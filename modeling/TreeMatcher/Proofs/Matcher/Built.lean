import TreeMatcher.Proofs.Matcher.Names

/-!
# Matchers built by hand

Leaves, nodes, wildcards with checked bounds and negations are put together, and any of them may be
given a name. What is built like that may have any shape, but the bounds of its wildcards are bounds
that a wildcard may have.

* `Matcher.Built m` — the matcher is built by the constructors.

## Main results

* `Built.valid` — every wildcard in it has valid bounds.
-/

namespace TreeMatcher.Matcher

/-- A matcher that is built by the constructors. -/
inductive Built : Matcher → Prop where
  | leaf (token? : Option Number) (value? : Option Text) : Built (leaf token? value? none)
  | bare (symbol? : Option Number) : Built (node symbol? none none)
  | node (symbol? : Option Number) {content : List Matcher} (hc : ∀ m ∈ content, Built m) :
      Built (node symbol? (some content) none)
  | wildcard {as : List (List Matcher)} {min max : Number} {name? : Option Text} {m : Matcher}
      (has : ∀ s ∈ as, ∀ m ∈ s, Built m) (hm : wildcard? as min max name? = .ok m) : Built m
  | negated {m : Matcher} (hm : Built m) : Built (negated m none)
  | withName {m : Matcher} (hm : Built m) (n : Text) : Built (m.withName n)

/-- A wildcard with bounds that no wildcard may have. -/
def IsInvalid : Matcher → Prop
  | wildcard _ min max _ => ¬ValidBounds min max
  | _ => False

theorem isInvalid_withName {m : Matcher} {n : Text} : IsInvalid (m.withName n) ↔ IsInvalid m := by
  cases m <;> rfl

theorem parts_withName (m : Matcher) (n : Text) : (m.withName n).parts = m.parts := by
  cases m <;> rfl

/-- The wildcards in a matcher that is built have valid bounds. -/
theorem Built.valid {m : Matcher} (h : Built m) : ¬Contains IsInvalid m := by
  induction h with
  | leaf t v =>
    rw [contains_leaf]
    exact fun h => h
  | bare s =>
    rw [contains_bare]
    exact fun h => h
  | node s hc ih =>
    rw [contains_node, not_or]
    exact ⟨fun h => h, fun ⟨m, hm, h⟩ => ih m hm h⟩
  | @wildcard as min max name? m has hm ih =>
    obtain rfl := eq_of_wildcard? hm
    rw [contains_wildcard, not_or]
    exact ⟨fun h => h (wildcard?_eq_ok_iff.1 hm), fun ⟨s, hs, m, hm, h⟩ => ih s hs m hm h⟩
  | negated hm ih =>
    rw [contains_negated, not_or]
    exact ⟨fun h => h, ih⟩
  | withName hm n ih => rwa [contains_iff, isInvalid_withName, parts_withName, ← contains_iff]

end TreeMatcher.Matcher
