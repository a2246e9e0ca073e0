import Mathlib.Logic.Function.Basic
import TreeMatcher.Proofs.Compile.Shape
import TreeMatcher.Proofs.Meaning.Matcher

/-!
# What a matcher matches and captures

A matcher is read as a constraint on a tree of the target language. A leaf asks for a token kind and
a text, a node for a symbol and for children that match its content. Matchers in a row follow each
other, a wildcard repeats one of its alternatives, a negation looks ahead. A matcher with a name
notes down the part that it matched; a later note under the same name replaces an earlier one.

What has been noted never decides about a match. So it does not matter what is noted under a name
inside a matcher that carries the same name, and two wildcards of one name, one around the other,
match and capture what one wildcard with the products of their bounds does.

* `Forest` — what stands between positions of the target tree.
* `Matcher.matching F m` — from one position, with the captures so far, to another one.
* `Follows n R S` — what `R` does, `S` does as well, but for what is captured under `n`.
* `Miscounts min max name? m` — a wildcard merges with `m`, but the products of the bounds are not
  what repeating twice comes to.

## Main results

* `follows_matching` — what is captured does not decide about a match.
* `matching_around` — a wildcard merged with another one matches and captures the same.
-/

namespace TreeMatcher

universe u

/-! ## Positions and captures -/

/-- What stands between the positions of a tree of the target language. -/
structure Forest (P : Type u) where
  /-- From one position to the next there is a leaf of a token kind, with a text. -/
  leaf : P → P → Number → Text → Prop
  /-- From one position to the next there is a node of a symbol, its children between two others. -/
  node : P → P → Number → P → P → Prop

/-- What is captured under each name: the part between two positions. -/
abbrev Captured (P : Type u) : Type u := Text → Option (P × P)

/-- A position and what has been captured up to it. -/
abbrev Stage (P : Type u) : Type u := P × Captured P

variable {P : Type u}

/-- To note down under a name, if there is one, what was matched. -/
def capturing (name? : Option Text) (R : Stage P → Stage P → Prop) : Stage P → Stage P → Prop :=
  match name? with
  | none => R
  | some n => fun s t =>
    ∃ captured, R s (t.1, captured) ∧ t.2 = Function.update captured n (some (s.1, t.1))

private theorem capturing_iff {n : Text} {R : Stage P → Stage P → Prop} {p q : P}
    {ρ ρ' : Captured P} :
    capturing (some n) R (p, ρ) (q, ρ') ↔
      ∃ ρ₁, R (p, ρ) (q, ρ₁) ∧ ρ' = Function.update ρ₁ n (some (p, q)) := Iff.rfl

/-- Of two notes under the same name the outer one stays. -/
private theorem capturing_capturing (n : Text) (R : Stage P → Stage P → Prop) :
    capturing (some n) (capturing (some n) R) = capturing (some n) R := by
  funext ⟨p, ρ⟩ ⟨q, ρ'⟩
  apply propext
  simp only [capturing_iff]
  constructor
  · rintro ⟨_, ⟨ρ₁, hR, rfl⟩, rfl⟩
    exact ⟨ρ₁, hR, Function.update_idem _ _ _⟩
  · rintro ⟨ρ₁, hR, rfl⟩
    exact ⟨_, ⟨ρ₁, hR, rfl⟩, (Function.update_idem _ _ _).symm⟩

namespace Matcher

variable (F : Forest P)

mutual

/-- What a matcher matches and captures. -/
def matching : Matcher → Stage P → Stage P → Prop
  | leaf token? value? name? => capturing name? fun s t =>
    t.2 = s.2 ∧ ∃ k v, F.leaf s.1 t.1 k v ∧ (∀ k' ∈ token?, k = k') ∧ ∀ v' ∈ value?, v = v'
  | node symbol? none name? => capturing name? fun s t =>
    t.2 = s.2 ∧ ∃ k first last, F.node s.1 t.1 k first last ∧ ∀ k' ∈ symbol?, k = k'
  | node symbol? (some content) name? => capturing name? fun s t =>
    ∃ k first last, F.node s.1 t.1 k first last ∧ (∀ k' ∈ symbol?, k = k') ∧
      matchingInRow content (first, s.2) (last, t.2)
  | wildcard as min max name? =>
    capturing name? (repeated (Counts min max) (matchingOfAny as))
  | negated m name? => capturing name? (absent (matching m))

/-- What matchers in a row match and capture. -/
def matchingInRow : List Matcher → Stage P → Stage P → Prop
  | [] => Eq
  | m :: ms => Relation.Comp (matching m) (matchingInRow ms)

/-- What a choice between sequences matches and captures. -/
def matchingOfAny : List (List Matcher) → Stage P → Stage P → Prop
  | [] => fun _ _ => False
  | s :: as => fun p q => matchingInRow s p q ∨ matchingOfAny as p q

end

variable {F}

theorem matchingInRow_single (m : Matcher) : matchingInRow F [m] = matching F m := by
  rw [matchingInRow, matchingInRow, Relation.comp_eq]

theorem matchingOfAny_single (s : List Matcher) : matchingOfAny F [s] = matchingInRow F s := by
  funext p q
  simp [matchingOfAny]

/-- A wildcard around a single matcher repeats it. -/
theorem matching_repeat (m : Matcher) (min max : Number) (name? : Option Text) :
    matching F (wildcard [[m]] min max name?) =
      capturing name? (repeated (Counts min max) (matching F m)) := by
  rw [matching, matchingOfAny_single, matchingInRow_single]

/-- To stand exactly once is to stand. -/
theorem matching_once (as : List (List Matcher)) (name? : Option Text) :
    matching F (wildcard as 1 1 name?) = capturing name? (matchingOfAny F as) := by
  rw [matching, repeated_once fun k => counts_one]

/-- A name on a matcher without one, or in place of the same one, notes down what was matched. -/
private theorem matching_withName {m : Matcher} {n : Text} (h : ∀ k ∈ m.name?, k = n) :
    matching F (m.withName n) = capturing (some n) (matching F m) := by
  have hname : ∀ (name? : Option Text) (R : Stage P → Stage P → Prop), (∀ k ∈ name?, k = n) →
      capturing (some n) R = capturing (some n) (capturing name? R) := by
    intro name? R h
    cases name? with
    | none => rfl
    | some k =>
      obtain rfl := h k rfl
      exact (capturing_capturing k R).symm
  match m with
  | leaf .. => exact hname _ _ h
  | node _ none _ => exact hname _ _ h
  | node _ (some _) _ => exact hname _ _ h
  | wildcard .. => exact hname _ _ h
  | negated .. => exact hname _ _ h

end Matcher

/-! ## Captures do not decide about a match -/

/-- The same is captured under all names but one. -/
def AgreeBut (n : Text) (ρ σ : Captured P) : Prop := ∀ k, k ≠ n → ρ k = σ k

namespace AgreeBut

variable {n : Text} {ρ σ : Captured P}

private theorem refl (n : Text) (ρ : Captured P) : AgreeBut n ρ ρ := fun _ _ => rfl

private theorem symm (h : AgreeBut n ρ σ) : AgreeBut n σ ρ := fun k hk => (h k hk).symm

private theorem update (h : AgreeBut n ρ σ) (k : Text) (part : Option (P × P)) :
    AgreeBut n (Function.update ρ k part) (Function.update σ k part) := by
  intro j hj
  rw [Function.update_apply, Function.update_apply, h j hj]

/-- A note under the name itself ends the difference. -/
private theorem update_eq (h : AgreeBut n ρ σ) (part : Option (P × P)) :
    Function.update ρ n part = Function.update σ n part := by
  funext j
  rw [Function.update_apply, Function.update_apply]
  split
  · rfl
  · next hj => exact h j hj

private theorem update_left (ρ : Captured P) (n : Text) (part : Option (P × P)) :
    AgreeBut n (Function.update ρ n part) ρ := fun _ hk => Function.update_of_ne hk _ _

end AgreeBut

/-- What a relation does, another one does as well, from any captures that differ under one name at
most, and to such captures. -/
def Follows (n : Text) (R S : Stage P → Stage P → Prop) : Prop :=
  ∀ ⦃p q : P⦄ ⦃ρ ρ' σ : Captured P⦄, R (p, ρ) (q, ρ') → AgreeBut n ρ σ →
    ∃ σ', S (p, σ) (q, σ') ∧ AgreeBut n ρ' σ'

namespace Follows

variable {n : Text} {R R' S S' : Stage P → Stage P → Prop}

private theorem eq : Follows n (Eq : Stage P → Stage P → Prop) Eq := by
  rintro p q ρ ρ' σ ⟨⟩ hσ
  exact ⟨σ, rfl, hσ⟩

private theorem comp (h : Follows n R S) (h' : Follows n R' S') :
    Follows n (Relation.Comp R R') (Relation.Comp S S') := by
  rintro p q ρ ρ' σ ⟨⟨x, ρ₁⟩, hR, hR'⟩ hσ
  obtain ⟨σ₁, hS, hσ₁⟩ := h hR hσ
  obtain ⟨σ', hS', hσ'⟩ := h' hR' hσ₁
  exact ⟨σ', ⟨(x, σ₁), hS, hS'⟩, hσ'⟩

private theorem or (h : Follows n R S) (h' : Follows n R' S') :
    Follows n (fun s t => R s t ∨ R' s t) (fun s t => S s t ∨ S' s t) := by
  rintro p q ρ ρ' σ (hR | hR') hσ
  · obtain ⟨σ', hS, hσ'⟩ := h hR hσ
    exact ⟨σ', .inl hS, hσ'⟩
  · obtain ⟨σ', hS', hσ'⟩ := h' hR' hσ
    exact ⟨σ', .inr hS', hσ'⟩

private theorem power (h : Follows n R S) (k : Nat) : Follows n (power R k) (power S k) := by
  induction k with
  | zero => exact eq
  | succ k ih => exact h.comp ih

private theorem repeated (h : Follows n R S) (C : Nat → Prop) :
    Follows n (repeated C R) (repeated C S) := by
  rintro p q ρ ρ' σ ⟨k, hk, hR⟩ hσ
  obtain ⟨σ', hS, hσ'⟩ := h.power k hR hσ
  exact ⟨σ', ⟨k, hk, hS⟩, hσ'⟩

/-- What follows leads nowhere else, so looking ahead goes the other way round. -/
private theorem absent (h : Follows n S R) : Follows n (absent R) (absent S) := by
  rintro p q ρ ρ' σ ⟨⟨⟩, hnone⟩ hσ
  refine ⟨σ, ⟨rfl, fun x hS => ?_⟩, hσ⟩
  obtain ⟨ρ₁, hR, -⟩ := h hS hσ.symm
  exact hnone _ hR

private theorem capturing (h : Follows n R S) (name? : Option Text) :
    Follows n (capturing name? R) (capturing name? S) := by
  cases name? with
  | none => exact h
  | some k =>
    intro p q ρ ρ' σ hnoted hσ
    obtain ⟨ρ₁, hR, rfl⟩ := capturing_iff.1 hnoted
    obtain ⟨σ₁, hS, hσ₁⟩ := h hR hσ
    exact ⟨_, capturing_iff.2 ⟨σ₁, hS, rfl⟩, hσ₁.update k _⟩

/-- A note under the name makes no difference. -/
private theorem drop (h : Follows n R S) : Follows n (TreeMatcher.capturing (some n) R) S := by
  intro p q ρ ρ' σ hnoted hσ
  obtain ⟨ρ₁, hR, rfl⟩ := capturing_iff.1 hnoted
  obtain ⟨σ₁, hS, hσ₁⟩ := h hR hσ
  exact ⟨σ₁, hS, fun k hk => (AgreeBut.update_left ρ₁ n _ k hk).trans (hσ₁ k hk)⟩

private theorem add (h : Follows n R S) : Follows n R (TreeMatcher.capturing (some n) S) := by
  intro p q ρ ρ' σ hR hσ
  obtain ⟨σ₁, hS, hσ₁⟩ := h hR hσ
  exact ⟨_, capturing_iff.2 ⟨σ₁, hS, rfl⟩,
    fun k hk => (hσ₁ k hk).trans (AgreeBut.update_left σ₁ n _ k hk).symm⟩

/-- Relations that follow each other are the same once the name is noted. -/
private theorem capturing_eq (h : Follows n R S) (h' : Follows n S R) :
    TreeMatcher.capturing (some n) R = TreeMatcher.capturing (some n) S := by
  funext ⟨p, ρ⟩ ⟨q, ρ'⟩
  apply propext
  constructor
  · rintro ⟨ρ₁, hR, hρ'⟩
    obtain ⟨σ₁, hS, hσ₁⟩ := h hR (.refl n ρ)
    exact ⟨σ₁, hS, hρ'.trans (hσ₁.update_eq _)⟩
  · rintro ⟨ρ₁, hS, hρ'⟩
    obtain ⟨σ₁, hR, hσ₁⟩ := h' hS (.refl n ρ)
    exact ⟨σ₁, hR, hρ'.trans (hσ₁.update_eq _)⟩

end Follows

namespace Matcher

variable (F : Forest P) (n : Text)

mutual

/-- Matching does not depend on what has been captured. -/
theorem follows_matching : (m : Matcher) → Follows n (matching F m) (matching F m)
  | leaf token? value? name? => by
    rw [matching]
    refine Follows.capturing ?_ name?
    rintro p q ρ ρ' σ ⟨hρ, hleaf⟩ hσ
    obtain rfl : ρ' = ρ := hρ
    exact ⟨σ, ⟨rfl, hleaf⟩, hσ⟩
  | node symbol? none name? => by
    rw [matching]
    refine Follows.capturing ?_ name?
    rintro p q ρ ρ' σ ⟨hρ, hnode⟩ hσ
    obtain rfl : ρ' = ρ := hρ
    exact ⟨σ, ⟨rfl, hnode⟩, hσ⟩
  | node symbol? (some content) name? => by
    rw [matching]
    refine Follows.capturing ?_ name?
    rintro p q ρ ρ' σ ⟨k, first, last, hnode, hk, hcontent⟩ hσ
    obtain ⟨σ', hcontent', hσ'⟩ := follows_matchingInRow content hcontent hσ
    exact ⟨σ', ⟨k, first, last, hnode, hk, hcontent'⟩, hσ'⟩
  | wildcard as min max name? => by
    rw [matching]
    exact ((follows_matchingOfAny as).repeated _).capturing name?
  | negated m name? => by
    rw [matching]
    exact (follows_matching m).absent.capturing name?

theorem follows_matchingInRow : (ms : List Matcher) →
    Follows n (matchingInRow F ms) (matchingInRow F ms)
  | [] => by
    rw [matchingInRow]
    exact .eq
  | m :: ms => by
    rw [matchingInRow]
    exact (follows_matching m).comp (follows_matchingInRow ms)

theorem follows_matchingOfAny : (as : List (List Matcher)) →
    Follows n (matchingOfAny F as) (matchingOfAny F as)
  | [] => by
    rw [matchingOfAny]
    exact fun _ _ _ _ _ h => h.elim
  | s :: as => by
    rw [matchingOfAny]
    exact (follows_matchingInRow s).or (follows_matchingOfAny as)

end

variable {F}

/-! ## Wildcards around each other -/

/-- Between repeats of one name it does not matter what the inner one notes down. -/
private theorem matching_nested {as : List (List Matcher)} {min max min' max' : Number}
    {name? : Option Text} :
    matching F (wildcard [[wildcard as min' max' name?]] min max name?) =
      capturing name? (repeated (Counts min max)
        (repeated (Counts min' max') (matchingOfAny F as))) := by
  rw [matching_repeat, matching]
  cases name? with
  | none => rfl
  | some n =>
    have hinner := (follows_matchingOfAny F n as).repeated (Counts min' max')
    exact Follows.capturing_eq (hinner.drop.repeated _) (hinner.add.repeated _)

/-- A wildcard merges with a matcher, but the products of their bounds are not what repeating twice
comes to. -/
def Miscounts (min max : Number) (name? : Option Text) : Matcher → Prop
  | wildcard _ min' max' name'? =>
    min.le 1 ∧ min'.le 1 ∧ name'? = name? ∧ ¬Composes min max min' max'
  | _ => False

/-- A wildcard merged with another one matches and captures the same. -/
theorem matching_around {g : Grammar} {m : Matcher} {min max : Number} {name? : Option Text}
    (hm : Shaped g m) (hb : ValidBounds min max) (hcount : ¬Miscounts min max name? m) :
    matching F (m.around min max name?) = matching F (wildcard [[m]] min max name?) := by
  by_cases hmerge : Merges min name? m
  · cases m with
    | wildcard as min' max' name'? =>
      obtain ⟨hle, hle', rfl⟩ := hmerge
      have hcomposes : Composes min max min' max' := by
        by_contra h
        exact hcount ⟨hle, hle', rfl, h⟩
      rw [around_of_merges hle hle', matching_nested, repeated_repeated, matching,
        repeated_congr (counts_of_composes hb hm.valid hle hle' hcomposes)]
    | _ => exact absurd hmerge (fun h => h)
  · rw [around_of_not_merges hmerge]

/-- A name notes down what was matched, also where it makes two wildcards merge. -/
theorem matching_titled {g : Grammar} {m : Matcher} {n : Text} (hm : Shaped g m)
    (hname : ∀ k ∈ m.name?, k = n)
    (hcount : ∀ x min max name?, m = wildcard [[x]] min max name? →
      ¬Miscounts min max (some n) x) :
    matching F (m.titled n) = capturing (some n) (matching F m) := by
  rw [← matching_withName hname]
  cases hm with
  | repeated _ hb _ _ hx =>
    exact matching_around hx hb.valid (hcount _ _ _ _ rfl)
  | sequence _ _ _ htwo =>
    rw [titled_of_ne (sequence_ne htwo)]
    rfl
  | choice _ _ _ htwo =>
    rw [titled_of_ne (singles_ne htwo)]
    rfl
  | _ => rfl

end Matcher

end TreeMatcher
