import TreeMatcher.Matcher.Basic

/-!
# Redundant wildcards

A wildcard around a single matcher of the same name may be redundant:

* with the bounds `1` and `1` it is the matcher itself;
* around another wildcard, both with a lower bound of at most one, the two are one wildcard whose
  bounds are the products.

`collapse` does one such step at the top of a matcher, `normalize` all of them. What stands inside
is left as it is.

A step takes one wildcard off the chain of wildcards around single matchers, so the length of the
chain bounds the number of steps.

## Main results

* `nesting_collapse` — a step shortens the chain.
* `collapse_normalize` — no step is left to do.
-/

namespace TreeMatcher.Matcher

/-! ## One step -/

/-- One collapse at the top of a matcher; `none` where nothing is redundant. -/
def collapse : Matcher → Except BoundError (Option Matcher)
  | wildcard [[sub]] min max name? =>
    if min = 1 ∧ max = 1 ∧ sub.name? = name? then .ok (some sub)
    else
      match sub with
      | wildcard alternatives min' max' name'? =>
        if min.le 1 ∧ min'.le 1 ∧ name'? = name? then
          (wildcard? alternatives (min.mul min') (max.mulMax max') name?).map some
        else .ok none
      | _ => .ok none
  | _ => .ok none

/-- The number of wildcards around single matchers at the top of a matcher. -/
def nesting : Matcher → Nat
  | wildcard [[sub]] _ _ _ => nesting sub + 1
  | _ => 0

/-! ## All steps -/

/-- Up to `n` collapses at the top of a matcher. -/
def collapseUpTo : Nat → Matcher → Except BoundError Matcher
  | 0, m => .ok m
  | n + 1, m =>
    match collapse m with
    | .error e => .error e
    | .ok none => .ok m
    | .ok (some m') => collapseUpTo n m'

/-- A matcher without redundant wildcards at the top. -/
def normalize (m : Matcher) : Except BoundError Matcher := collapseUpTo m.nesting m

/-! ## Steps come to an end -/

theorem nesting_wildcard (as : List (List Matcher)) (min max : Number) (n : Option Text)
    (min' max' : Number) (n' : Option Text) :
    (wildcard as min max n).nesting = (wildcard as min' max' n').nesting := by
  match as with
  | [] => simp [nesting]
  | [[]] => simp [nesting]
  | [[_]] => simp [nesting]
  | [_ :: _ :: _] => simp [nesting]
  | _ :: _ :: _ => simp [nesting]

theorem nesting_collapse {m m' : Matcher} (h : collapse m = .ok (some m')) :
    m'.nesting < m.nesting := by
  unfold collapse at h
  split at h
  · next sub min max name? =>
    have hm : nesting (wildcard [[sub]] min max name?) = sub.nesting + 1 := by rw [nesting]
    rw [hm]
    split at h
    · cases h
      exact Nat.lt_succ_self _
    · split at h
      · next as min' max' name'? _ =>
        split at h
        · unfold wildcard? at h
          split at h
          · cases h
          · split at h
            · cases h
            · cases h
              rw [nesting_wildcard as _ _ _ min' max' name'?]
              exact Nat.lt_succ_self _
        · cases h
      · cases h
  · cases h

theorem collapse_of_nesting_zero {m : Matcher} (h : m.nesting = 0) : collapse m = .ok none := by
  unfold collapse
  split
  · simp [nesting] at h
  · rfl

/-- With enough steps nothing redundant is left at the top. -/
theorem collapse_collapseUpTo {n : Nat} {m m' : Matcher} (hn : m.nesting ≤ n)
    (h : collapseUpTo n m = .ok m') : collapse m' = .ok none := by
  induction n generalizing m with
  | zero =>
    cases h
    exact collapse_of_nesting_zero (Nat.le_zero.1 hn)
  | succ n ih =>
    unfold collapseUpTo at h
    split at h
    · cases h
    · next hc => cases h; exact hc
    · next m'' hc => exact ih (by have := nesting_collapse hc; omega) h

theorem collapse_normalize {m m' : Matcher} (h : normalize m = .ok m') : collapse m' = .ok none :=
  collapse_collapseUpTo (Nat.le_refl _) h

end TreeMatcher.Matcher
