import TreeMatcher.Proofs.Matcher.Names
import TreeMatcher.Proofs.Meaning.Matcher
import TreeMatcher.Proofs.Spelling.RoundTrip

/-!
# Spelling twice

What comes back from the spelling of a compiled matcher may have groups of their own that the
matcher did not have. It has them wherever it can, so spelled and compiled again it comes back as it
is.

A group of its own is repeated exactly once and has no name. So it adds nothing to the meaning or to
the names, and the matcher contains no other negation with a name and no other bound beyond the
limit than before.

## Main results

* `Superficial.contains_regroup` — what is regrouped contains what it contained before.
* `regroup_regroup` — regrouping twice is regrouping once.
* `relation_regroup` — regrouping keeps the meaning.
* `spelling_converges` — from the second time on, a spelling compiles to what was spelled.
-/

namespace TreeMatcher

universe u

open Outcome Grammar Matcher

namespace Matcher

variable {m : Matcher} {Q : Matcher → Prop}

/-! ## What is contained -/

/-- A property that depends on what a matcher says by itself, whatever its parts are, and that no
group of its own has. -/
structure Superficial (Q : Matcher → Prop) : Prop where
  node : ∀ s c c' n, Q (node s (some c) n) ↔ Q (node s (some c') n)
  negated : ∀ m m' n, Q (negated m n) ↔ Q (negated m' n)
  wildcard : ∀ as as' min max n, Q (wildcard as min max n) ↔ Q (wildcard as' min max n)
  once : ∀ as, ¬Q (Matcher.wildcard as 1 1 none)

private theorem Superficial.regroup (h : Superficial Q) (x : Matcher) : Q x.regroup ↔ Q x := by
  match x with
  | .leaf .. => exact Iff.rfl
  | .node _ none _ => exact Iff.rfl
  | .node _ (some _) _ => exact h.node _ _ _ _
  | .negated .. => exact h.negated _ _ _
  | .wildcard .. =>
    rw [Matcher.regroup]
    split <;> exact h.wildcard _ _ _ _ _

/-- Besides groups of their own nothing comes in between a matcher and its parts. -/
theorem contains_regroup (hgroup : ∀ as, ¬Q (wildcard as 1 1 none)) :
    Contains Q m.regroup ↔ Q m.regroup ∨ ∃ x ∈ m.parts, Contains Q x.regroup := by
  match m with
  | leaf t v n =>
    rw [regroup, contains_leaf]
    simp [parts]
  | node s none n =>
    rw [regroup, contains_bare]
    simp [parts]
  | node s (some c) n =>
    rw [regroup, contains_node, regroupAll_eq_map]
    simp [parts]
  | negated m n =>
    rw [regroup, contains_negated]
    simp [parts]
  | wildcard as min max n =>
    have hparts : (∃ s ∈ regroupEach as, ∃ x ∈ s, Contains Q x) ↔
        ∃ x ∈ (wildcard as min max n).parts, Contains Q x.regroup := by
      rw [regroupEach_eq_map]
      constructor
      · intro ⟨s', hs', y, hy, hcontains⟩
        obtain ⟨s, hs, rfl⟩ := List.mem_map.1 hs'
        obtain ⟨x, hx, rfl⟩ := List.mem_map.1 hy
        exact ⟨x, List.mem_flatten_of_mem hs hx, hcontains⟩
      · intro ⟨x, hx, hcontains⟩
        obtain ⟨s, hs, hx⟩ := List.mem_flatten.1 hx
        exact ⟨_, List.mem_map_of_mem hs, x.regroup, List.mem_map_of_mem hx, hcontains⟩
    rw [← hparts, regroup]
    split
    · rw [contains_wildcard]
      refine or_congr_right ?_
      simp only [List.mem_singleton, exists_eq_left, contains_wildcard, or_iff_right (hgroup _)]
    · exact contains_wildcard

/-- What is regrouped contains matchers of a superficial property if it did before. -/
theorem Superficial.contains_regroup (h : Superficial Q) :
    Contains Q m.regroup ↔ Contains Q m := by
  induction m using parts_induction with
  | step m ih =>
    rw [Matcher.contains_regroup h.once, contains_iff, h.regroup]
    exact or_congr_right (exists_congr fun x => and_congr_right fun hx => ih x hx)

private theorem superficial_isNamedNegation : Superficial IsNamedNegation where
  node _ _ _ _ := Iff.rfl
  negated _ _ _ := Iff.rfl
  wildcard _ _ _ _ _ := Iff.rfl
  once _ h := h

private theorem superficial_isBeyond : Superficial IsBeyond where
  node _ _ _ _ := Iff.rfl
  negated _ _ _ := Iff.rfl
  wildcard _ _ _ _ _ := Iff.rfl
  once as h := by simpa [boundLimit] using (@isBeyond_iff as 1 (some 1) none).1 h

private theorem superficial_name (n : Text) : Superficial fun x => x.name? = some n where
  node _ _ _ _ := Iff.rfl
  negated _ _ _ := Iff.rfl
  wildcard _ _ _ _ _ := Iff.rfl
  once _ h := by cases h

/-- What is regrouped carries the same names. -/
private theorem carries_regroup (n : Text) : Carries n m.regroup ↔ Carries n m :=
  (superficial_name n).contains_regroup

/-! ## Regrouping twice -/

/-- No group is left under a repeater with a name. -/
private theorem not_isNamedGroup_regroup (x : Matcher) : ¬IsNamedGroup x.regroup := by
  match x with
  | leaf .. => exact fun h => h
  | node _ none _ => exact fun h => h
  | node _ (some _) _ => exact fun h => h
  | negated .. => exact fun h => h
  | wildcard as min max n =>
    rw [regroup]
    split
    · exact fun h => h.2.2 _ rfl
    · next hcond =>
      intro ⟨hn, hone, has⟩
      have hsole := isSole_eq_false_iff.2 has
      rw [isSole_regroupEach] at hsole
      exact hcond ⟨hn, hone, hsole⟩

private theorem not_contains_isNamedGroup (m : Matcher) : ¬Contains IsNamedGroup m.regroup := by
  induction m using parts_induction with
  | step m ih =>
    rw [contains_regroup fun as h => h.2.1 ⟨rfl, rfl⟩, not_or]
    exact ⟨not_isNamedGroup_regroup m, fun ⟨x, hx, h⟩ => ih x hx h⟩

/-- Regrouping twice is regrouping once. -/
theorem regroup_regroup (m : Matcher) : m.regroup.regroup = m.regroup :=
  (regroup_eq_self_iff _).2 (not_contains_isNamedGroup m)

/-! ## Meaning -/

section

variable {P : Type u} (I : Interpretation P)

mutual

/-- A group of its own, repeated exactly once, does not change the meaning. -/
theorem relation_regroup : (m : Matcher) → relation I m.regroup = relation I m
  | leaf _ _ _ => rfl
  | node _ none _ => rfl
  | node s (some c) n => by
    rw [regroup, relation, relation, relationInRow_regroup c]
  | negated m n => by
    rw [regroup, relation, relation, relation_regroup m]
  | wildcard as min max n => by
    have has := relationOfAny_regroup as
    rw [regroup]
    split
    · rw [relation_around, relation_once, has, relation]
    · rw [relation, relation, has]

theorem relationInRow_regroup :
    (ms : List Matcher) → relationInRow I (regroupAll ms) = relationInRow I ms
  | [] => rfl
  | m :: ms => by
    rw [regroupAll, relationInRow, relationInRow, relation_regroup m, relationInRow_regroup ms]

theorem relationOfAny_regroup :
    (as : List (List Matcher)) → relationOfAny I (regroupEach as) = relationOfAny I as
  | [] => rfl
  | s :: as => by
    rw [regroupEach, relationOfAny, relationOfAny, relationInRow_regroup s,
      relationOfAny_regroup as]

end

end

end Matcher

/-! ## Spelling what comes back -/

variable {g : Grammar} {source t₁ : Text} {m₁ m₂ : Matcher}

/-- Where a compiled matcher has a spelling that compiles, this gives a matcher of the same meaning
and with the same names; and that one comes back from its own spelling as it is. -/
theorem spelling_converges (h₁ : g.matcherOf source = .ok m₁) (ht₁ : g.spell m₁ = .ok t₁)
    (h₂ : g.matcherOf t₁ = .ok m₂) :
    (∀ (P : Type u) (I : Interpretation P), relation I m₂ = relation I m₁) ∧
      (∀ n, Carries n m₂ ↔ Carries n m₁) ∧
      ∃ t₂, g.spell m₂ = .ok t₂ ∧ g.matcherOf t₂ = .ok m₂ := by
  have hneg : ¬Contains IsNamedNegation m₁ := not_contains_of_spell ht₁
  obtain ⟨t, ht, hback⟩ := (shaped_of_matcherOf h₁).exists_spelling hneg
  obtain rfl : t₁ = t := Except.ok.inj (ht₁.symm.trans ht)
  obtain ⟨hbeyond, rfl⟩ := (hback m₂).1 h₂
  refine ⟨fun P I => relation_regroup I m₁, carries_regroup, ?_⟩
  have hneg₂ : ¬Contains IsNamedNegation m₁.regroup := by
    rwa [superficial_isNamedNegation.contains_regroup]
  have hbeyond₂ : ¬Contains IsBeyond m₁.regroup := by
    rwa [superficial_isBeyond.contains_regroup]
  obtain ⟨t₂, ht₂, hback₂⟩ := (shaped_of_matcherOf h₂).exists_spelling hneg₂
  exact ⟨t₂, ht₂, (hback₂ _).2 ⟨hbeyond₂, (regroup_regroup m₁).symm⟩⟩

/-- A group under a repeater with a name, whose name stood inside and outside. -/
def mergedGroup : Matcher :=
  wildcard [[leaf (some (.int 1)) none none], [leaf (some (.int 3)) none none]] 0 .infinity
    (some "n")

/-- It comes back as another matcher, which comes back as it is. -/
theorem spelling_converges_group :
    expression.matcherOf "n=(n=(NAME | STRING))*" = .ok mergedGroup ∧
      ∃ m₂, expression.matcherOf "n=(NAME | STRING)*" = .ok m₂ ∧ m₂ ≠ mergedGroup ∧
        (∀ (P : Type) (I : Interpretation P), relation I m₂ = relation I mergedGroup) ∧
        (∀ n, Carries n m₂ ↔ Carries n mergedGroup) ∧
        ∃ t₂, expression.spell m₂ = .ok t₂ ∧ expression.matcherOf t₂ = .ok m₂ := by
  have h₁ : expression.matcherOf "n=(n=(NAME | STRING))*" = .ok mergedGroup :=
    eq_ok_of_toOption (by decide +kernel)
  have ht₁ : expression.spell mergedGroup = .ok "n=(NAME | STRING)*" :=
    eq_ok_of_toOption (by decide +kernel)
  have h₂ : expression.matcherOf "n=(NAME | STRING)*" =
      .ok (wildcard [[wildcard [[leaf (some (.int 1)) none none], [leaf (some (.int 3)) none none]]
        1 1 none]] 0 .infinity (some "n")) :=
    eq_ok_of_toOption (by decide +kernel)
  obtain ⟨hmeaning, hnames, hback⟩ := spelling_converges.{0} h₁ ht₁ h₂
  exact ⟨h₁, _, h₂, by decide +kernel, hmeaning, hnames, hback⟩

end TreeMatcher
