import TreeMatcher.Compile.Bounds
import TreeMatcher.Matcher.Basic

/-!
# What a matcher contains

* `Within x m` — the matcher `x` stands in `m`, at any depth, or is `m`.
* `Contains P m` — a matcher with the property `P` stands in `m`.
* `IsNamedNegation`, `IsNamedGroup`, `IsBeyond` — the shapes that do not come back when a matcher is
  spelled and compiled again.

## Main results

* `contains_wildcard`, `contains_node`, `contains_negated` — a matcher contains what its parts
  contain.
-/

namespace TreeMatcher.Matcher

/-! ## Parts of a matcher -/

/-- The matcher `x` stands in a matcher. -/
inductive Within (x : Matcher) : Matcher → Prop where
  | refl : Within x x
  | content {symbol? : Option Number} {content : List Matcher} {name? : Option Text} {m : Matcher}
      (hm : m ∈ content) (h : Within x m) : Within x (node symbol? (some content) name?)
  | alternative {as : List (List Matcher)} {min max : Number} {name? : Option Text}
      {s : List Matcher} {m : Matcher} (hs : s ∈ as) (hm : m ∈ s) (h : Within x m) :
      Within x (wildcard as min max name?)
  | inner {m : Matcher} {name? : Option Text} (h : Within x m) : Within x (negated m name?)

/-- A matcher with a given property stands in a matcher. -/
def Contains (P : Matcher → Prop) (m : Matcher) : Prop := ∃ x, Within x m ∧ P x

theorem contains_leaf {P : Matcher → Prop} {t : Option Number} {v n : Option Text} :
    Contains P (leaf t v n) ↔ P (leaf t v n) := by
  constructor
  · intro ⟨x, hx, h⟩
    cases hx
    exact h
  · exact fun h => ⟨_, .refl, h⟩

theorem contains_bare {P : Matcher → Prop} {s : Option Number} {n : Option Text} :
    Contains P (node s none n) ↔ P (node s none n) := by
  constructor
  · intro ⟨x, hx, h⟩
    cases hx
    exact h
  · exact fun h => ⟨_, .refl, h⟩

theorem contains_node {P : Matcher → Prop} {s : Option Number} {c : List Matcher}
    {n : Option Text} :
    Contains P (node s (some c) n) ↔ P (node s (some c) n) ∨ ∃ m ∈ c, Contains P m := by
  constructor
  · intro ⟨x, hx, h⟩
    cases hx with
    | refl => exact .inl h
    | content hm hx => exact .inr ⟨_, hm, x, hx, h⟩
  · rintro (h | ⟨m, hm, x, hx, h⟩)
    · exact ⟨_, .refl, h⟩
    · exact ⟨x, .content hm hx, h⟩

theorem contains_negated {P : Matcher → Prop} {m : Matcher} {n : Option Text} :
    Contains P (negated m n) ↔ P (negated m n) ∨ Contains P m := by
  constructor
  · intro ⟨x, hx, h⟩
    cases hx with
    | refl => exact .inl h
    | inner hx => exact .inr ⟨x, hx, h⟩
  · rintro (h | ⟨x, hx, h⟩)
    · exact ⟨_, .refl, h⟩
    · exact ⟨x, .inner hx, h⟩

theorem contains_wildcard {P : Matcher → Prop} {as : List (List Matcher)} {min max : Number}
    {n : Option Text} :
    Contains P (wildcard as min max n) ↔
      P (wildcard as min max n) ∨ ∃ s ∈ as, ∃ m ∈ s, Contains P m := by
  constructor
  · intro ⟨x, hx, h⟩
    cases hx with
    | refl => exact .inl h
    | alternative hs hm hx => exact .inr ⟨_, hs, _, hm, x, hx, h⟩
  · rintro (h | ⟨s, hs, m, hm, x, hx, h⟩)
    · exact ⟨_, .refl, h⟩
    · exact ⟨x, .alternative hs hm hx, h⟩

/-! ## Shapes that do not come back -/

/-- A negation with a capture name. -/
def IsNamedNegation : Matcher → Prop
  | negated _ name? => name?.isSome
  | _ => False

/-- A wildcard with a capture name, with other bounds than one and one, around anything but one
sequence of one matcher. -/
def IsNamedGroup : Matcher → Prop
  | wildcard as min max name? => name?.isSome ∧ ¬(min = 1 ∧ max = 1) ∧ ∀ m, as ≠ [[m]]
  | _ => False

/-- A wildcard with a finite bound that no repeater takes. -/
def IsBeyond : Matcher → Prop
  | wildcard _ min max _ => ∃ n : Nat, boundLimit < n ∧ (min = .int n ∨ max = .int n)
  | _ => False

end TreeMatcher.Matcher
