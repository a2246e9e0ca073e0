import TreeMatcher.Matcher.Normal
import TreeMatcher.Proofs.Number.Bounds

/-!
# How wildcards collapse

What one collapse can do, said once, and how `normalize` goes from one collapse to the next.

## Main results

* `collapse_cases` — a collapse gives the matcher inside, or merges two wildcards.
* `collapse_of_merges` — two wildcards that merge are one wildcard with the products as bounds.
* `normalize_step` — collapsing once does not change the normal form.
* `normalize_related` — a relation that every collapse goes back over holds for the normal form.
* `normalize_of_settled` — a matcher that does not collapse is its own normal form.
-/

namespace TreeMatcher.Matcher

/-! ## One collapse -/

/-- Nothing at the top of the matcher is redundant. -/
def Settled (m : Matcher) : Prop := collapse m = .ok none

/-- Two wildcards of one name, one around the other, both with a lower bound of at most one. -/
def Merges (min : Number) (name? : Option Text) : Matcher → Prop
  | wildcard _ min' _ name'? => min.le 1 ∧ min'.le 1 ∧ name'? = name?
  | _ => False

theorem settled_leaf (k : Option Number) (v n : Option Text) : Settled (leaf k v n) := rfl

theorem settled_node (s : Option Number) (c : Option (List Matcher)) (n : Option Text) :
    Settled (node s c n) := rfl

theorem settled_negated (m : Matcher) (n : Option Text) : Settled (negated m n) := rfl

/-- A wildcard around anything but a single matcher does not collapse. -/
theorem settled_wildcard_of_ne {as : List (List Matcher)} (h : ∀ m, as ≠ [[m]]) (min max : Number)
    (n : Option Text) : Settled (wildcard as min max n) := by
  unfold Settled collapse
  split
  · next heq =>
    cases heq
    exact absurd rfl (h _)
  · rfl

/-- A wildcard around a single matcher does not collapse when it stands for more than that matcher
and does not merge with it. -/
theorem settled_wildcard_single {m : Matcher} {min max : Number} {n : Option Text}
    (hone : ¬(min = 1 ∧ max = 1 ∧ m.name? = n)) (hmerge : ¬Merges min n m) :
    Settled (wildcard [[m]] min max n) := by
  unfold Settled collapse
  dsimp only
  rw [if_neg hone]
  cases m with
  | wildcard as min' max' n' => exact if_neg hmerge
  | leaf => rfl
  | node => rfl
  | negated => rfl

/-- The checked constructor gives nothing but the wildcard asked for. -/
theorem eq_of_wildcard? {as : List (List Matcher)} {min max : Number} {n : Option Text}
    {m : Matcher} (h : wildcard? as min max n = .ok m) : m = wildcard as min max n := by
  unfold wildcard? at h
  split at h
  · cases h
  · split at h
    · cases h
    · cases h
      rfl

/-- A collapse takes away a wildcard around a single matcher of the same name. It gives that matcher
as it is, or, where that is a wildcard as well, with the products as bounds. -/
theorem collapse_cases {m m' : Matcher} (h : collapse m = .ok (some m')) :
    ∃ sub min max, m = wildcard [[sub]] min max sub.name? ∧
      (min = 1 ∧ max = 1 ∧ m' = sub ∨
        ∃ as min' max' name?, sub = wildcard as min' max' name? ∧ min.le 1 ∧ min'.le 1 ∧
          m' = wildcard as (min.mul min') (max.mulMax max') name?) := by
  unfold collapse at h
  split at h
  · next sub min max name? =>
    split at h
    · next hone =>
      obtain ⟨hmin, hmax, rfl⟩ := hone
      cases h
      exact ⟨_, _, _, rfl, .inl ⟨hmin, hmax, rfl⟩⟩
    · split at h
      · next as min' max' name'? _ =>
        split at h
        · next hmerge =>
          obtain ⟨hle, hle', rfl⟩ := hmerge
          cases hw : wildcard? as (min.mul min') (max.mulMax max') name'? with
          | error e =>
            rw [hw] at h
            cases h
          | ok w =>
            rw [hw] at h
            cases h
            obtain rfl := eq_of_wildcard? hw
            exact ⟨_, _, _, rfl, .inr ⟨_, _, _, _, rfl, hle, hle', rfl⟩⟩
        · cases h
      · cases h
  · cases h

/-- Two wildcards that merge are one wildcard whose bounds are the products. -/
theorem collapse_of_merges {as : List (List Matcher)} {min max min' max' : Number}
    {n : Option Text} (hone : ¬(min = 1 ∧ max = 1)) (hmin : min.le 1) (hmin' : min'.le 1)
    (hb : ValidBounds (min.mul min') (max.mulMax max')) :
    collapse (wildcard [[wildcard as min' max' n]] min max n) =
      .ok (some (wildcard as (min.mul min') (max.mulMax max') n)) := by
  unfold collapse
  dsimp only
  rw [if_neg (fun hc => hone ⟨hc.1, hc.2.1⟩), if_pos ⟨hmin, hmin', rfl⟩, wildcard?_eq_ok_iff.2 hb]
  rfl

/-! ## From one collapse to the next -/

private theorem collapseUpTo_of_settled {m : Matcher} (h : Settled m) (n : Nat) :
    collapseUpTo n m = .ok m := by
  cases n with
  | zero => rfl
  | succ n => rw [collapseUpTo, h]

/-- More steps than the chain is long change nothing. -/
private theorem collapseUpTo_eq {n k : Nat} {m : Matcher} (hn : m.nesting ≤ n)
    (hk : m.nesting ≤ k) :
    collapseUpTo n m = collapseUpTo k m := by
  induction n generalizing m k with
  | zero =>
    have hs : Settled m := collapse_of_nesting_zero (Nat.le_zero.1 hn)
    rw [collapseUpTo_of_settled hs, collapseUpTo_of_settled hs]
  | succ n ih =>
    cases k with
    | zero =>
      have hs : Settled m := collapse_of_nesting_zero (Nat.le_zero.1 hk)
      rw [collapseUpTo_of_settled hs, collapseUpTo_of_settled hs]
    | succ k =>
      rw [collapseUpTo, collapseUpTo]
      match hc : collapse m with
      | .error _ => rfl
      | .ok none => rfl
      | .ok (some m') =>
        have hlt := nesting_collapse hc
        exact ih (by omega) (by omega)

/-- Collapsing once does not change the normal form. -/
theorem normalize_step {m m' : Matcher} (h : collapse m = .ok (some m')) :
    normalize m = normalize m' := by
  have hlt := nesting_collapse h
  obtain ⟨k, hk⟩ : ∃ k, m.nesting = k + 1 := ⟨m.nesting - 1, by omega⟩
  unfold normalize
  rw [hk, collapseUpTo, h]
  exact collapseUpTo_eq (by omega) (Nat.le_refl _)

/-- What relates a matcher to itself, and goes back over a collapse, relates a matcher to its normal
form. -/
theorem normalize_related {R : Matcher → Matcher → Prop} (hrefl : ∀ m, R m m)
    (hstep : ∀ m m' m'', collapse m = .ok (some m') → R m' m'' → R m m'') {m m' : Matcher}
    (h : normalize m = .ok m') : R m m' := by
  unfold normalize at h
  generalize m.nesting = n at h
  induction n generalizing m with
  | zero =>
    cases h
    exact hrefl _
  | succ n ih =>
    rw [collapseUpTo] at h
    split at h
    · cases h
    · cases h
      exact hrefl _
    · next m'' hc => exact hstep m m'' m' hc (ih h)

theorem normalize_of_settled {m : Matcher} (h : Settled m) : normalize m = .ok m :=
  collapseUpTo_of_settled h _

end TreeMatcher.Matcher
