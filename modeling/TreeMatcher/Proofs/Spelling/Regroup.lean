import TreeMatcher.Proofs.Matcher.Normal
import TreeMatcher.Proofs.Matcher.Within

/-!
# What comes back from a spelling

A wildcard with a capture name is spelled as a name, a group and a repeater. Read again, the group
is compiled before the name is attached. Where it holds more than a single matcher it is a wildcard
of its own, without a name, and so it does not merge with the wildcard of the repeater, which has
one.

* `regroup m` — a matcher in which every such group is a wildcard of its own.

## Main results

* `regroup_eq_self_iff` — only named groups under a repeater are changed.
-/

namespace TreeMatcher.Matcher

/-! ## Groups of their own -/

/-- Whether some alternatives are one sequence of one matcher. -/
def isSole : List (List Matcher) → Bool
  | [[_]] => true
  | _ => false

theorem isSole_eq_false_iff {as : List (List Matcher)} : isSole as = false ↔ ∀ m, as ≠ [[m]] := by
  unfold isSole
  split
  · simp
  · next h => simpa using fun m hm => h m hm

mutual

/-- The matcher with the groups under a named repeater as wildcards of their own. -/
def regroup : Matcher → Matcher
  | leaf token? value? name? => leaf token? value? name?
  | node symbol? none name? => node symbol? none name?
  | node symbol? (some content) name? => node symbol? (some (regroupAll content)) name?
  | wildcard as min max name? =>
    if name?.isSome ∧ ¬(min = 1 ∧ max = 1) ∧ isSole as = false then
      wildcard [[wildcard (regroupEach as) 1 1 none]] min max name?
    else wildcard (regroupEach as) min max name?
  | negated inner name? => negated (regroup inner) name?

/-- The same for the matchers of a sequence. -/
def regroupAll : List Matcher → List Matcher
  | [] => []
  | m :: ms => regroup m :: regroupAll ms

/-- The same for alternatives. -/
def regroupEach : List (List Matcher) → List (List Matcher)
  | [] => []
  | s :: as => regroupAll s :: regroupEach as

end

theorem regroupAll_eq_map (ms : List Matcher) : regroupAll ms = ms.map regroup := by
  induction ms with
  | nil => rfl
  | cons m ms ih => rw [regroupAll, ih, List.map_cons]

theorem regroupEach_eq_map (as : List (List Matcher)) :
    regroupEach as = as.map fun s => s.map regroup := by
  induction as with
  | nil => rfl
  | cons s as ih => rw [regroupEach, ih, regroupAll_eq_map, List.map_cons]

/-- Wildcards stay wildcards with the same bounds, so the same of them merge. -/
theorem merges_regroup {min : Number} {n : Option Text} {m : Matcher} :
    Merges min n m.regroup ↔ Merges min n m := by
  cases m with
  | leaf => rfl
  | node s c n => cases c <;> simp [regroup, Merges]
  | wildcard as min max n =>
    rw [regroup]
    split <;> rfl
  | negated m n => simp [regroup, Merges]

theorem isSole_regroupEach (as : List (List Matcher)) : isSole (regroupEach as) = isSole as := by
  match as with
  | [] => rfl
  | [[]] => rfl
  | [[_]] => rfl
  | [_ :: _ :: _] => rfl
  | _ :: _ :: _ => simp [regroupEach, isSole]

/-! ## What is changed -/

mutual

/-- Nothing is changed but groups under a named repeater. -/
theorem regroup_eq_self_iff : (m : Matcher) → (m.regroup = m ↔ ¬Contains IsNamedGroup m)
  | leaf _ _ _ => by
    rw [contains_leaf, regroup]
    simp [IsNamedGroup]
  | node _ none _ => by
    rw [contains_bare, regroup]
    simp [IsNamedGroup]
  | node s (some c) n => by
    have hc := regroupAll_eq_self_iff c
    rw [contains_node, regroup]
    simp [IsNamedGroup, hc]
  | wildcard as min max n => by
    have has := regroupEach_eq_self_iff as
    have hgroup : IsNamedGroup (wildcard as min max n) ↔
        n.isSome ∧ ¬(min = 1 ∧ max = 1) ∧ isSole as = false := by
      rw [IsNamedGroup, isSole_eq_false_iff]
    rw [contains_wildcard, hgroup, regroup]
    split
    · next hcond =>
      constructor
      · intro heq
        exact absurd (wildcard.inj heq).1.symm (isSole_eq_false_iff.1 hcond.2.2 _)
      · exact fun h => absurd (.inl hcond) h
    · next hcond =>
      rw [wildcard.injEq, or_iff_right hcond, has]
      simp
  | negated m n => by
    have hm := regroup_eq_self_iff m
    rw [contains_negated, regroup]
    simp [IsNamedGroup, hm]

theorem regroupAll_eq_self_iff : (ms : List Matcher) →
    (regroupAll ms = ms ↔ ∀ m ∈ ms, ¬Contains IsNamedGroup m)
  | [] => by simp [regroupAll]
  | m :: ms => by
    rw [regroupAll, List.cons.injEq, regroup_eq_self_iff m, regroupAll_eq_self_iff ms,
      List.forall_mem_cons]

theorem regroupEach_eq_self_iff : (as : List (List Matcher)) →
    (regroupEach as = as ↔ ∀ s ∈ as, ∀ m ∈ s, ¬Contains IsNamedGroup m)
  | [] => by simp [regroupEach]
  | s :: as => by
    rw [regroupEach, List.cons.injEq, regroupAll_eq_self_iff s, regroupEach_eq_self_iff as,
      List.forall_mem_cons]

end

end TreeMatcher.Matcher
