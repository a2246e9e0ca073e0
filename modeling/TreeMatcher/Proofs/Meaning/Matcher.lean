import TreeMatcher.Proofs.Matcher.Normal
import TreeMatcher.Proofs.Meaning.Relation

/-!
# What a matcher means

A matcher relates positions of a child list: from where it begins to match to where it ends. What
leaves and nodes match is given by an interpretation; everything else follows from that. A negation
stays where it is, and stands where its operand leads nowhere.

Normalizing a matcher does not change what it means, as long as the bounds of its wildcards ascend
and the products of nested finite bounds are not rounded.

* `Matcher.relation` — what a matcher means.
* `Matcher.composed` — the same where leaves, nodes and negations are any relations.
* `Regular k m` — the bounds at the top of `m` ascend, and the largest product of nested finite
  upper bounds there is at most `k`.

## Main results

* `composed_merged` — two wildcards that merge mean what the merged wildcard means.
* `composed_relation` — the meaning of matchers is an instance.
* `Regular.normalize` — normalizing keeps the meaning.
-/

namespace TreeMatcher

universe u

/-- What leaves and nodes mean, as relations between positions. -/
structure Interpretation (P : Type u) where
  /-- A leaf, by its token kind and its text. -/
  leaf : Option Number → Option Text → P → P → Prop
  /-- A node, by its symbol and the meaning of its content. -/
  node : Option Number → Option (P → P → Prop) → P → P → Prop

/-- To stay where a relation leads nowhere. -/
def absent {P : Type u} (R : P → P → Prop) : P → P → Prop := fun p q => p = q ∧ ∀ x, ¬R p x

namespace Matcher

variable {P : Type u} (I : Interpretation P)

/-! ## Meaning -/

mutual

/-- What a matcher means. -/
def relation : Matcher → P → P → Prop
  | leaf token? value? _ => I.leaf token? value?
  | node symbol? none _ => I.node symbol? none
  | node symbol? (some content) _ => I.node symbol? (some (relationInRow content))
  | wildcard as min max _ => repeated (Counts min max) (relationOfAny as)
  | negated m _ => absent (relation m)

/-- What matchers in a row mean. -/
def relationInRow : List Matcher → P → P → Prop
  | [] => Eq
  | m :: ms => Relation.Comp (relation m) (relationInRow ms)

/-- What a choice between sequences means. -/
def relationOfAny : List (List Matcher) → P → P → Prop
  | [] => fun _ _ => False
  | s :: as => fun p q => relationInRow s p q ∨ relationOfAny as p q

end

/-! ## Wildcards around anything -/

section

variable (A : Matcher → P → P → Prop)

mutual

/-- What a matcher means where every leaf, node and negation has any meaning of its own. -/
def composed : Matcher → P → P → Prop
  | leaf token? value? name? => A (leaf token? value? name?)
  | node symbol? content? name? => A (node symbol? content? name?)
  | wildcard as min max _ => repeated (Counts min max) (composedOfAny as)
  | negated m name? => A (negated m name?)

/-- What matchers in a row mean. -/
def composedInRow : List Matcher → P → P → Prop
  | [] => Eq
  | m :: ms => Relation.Comp (composed m) (composedInRow ms)

/-- What a choice between sequences means. -/
def composedOfAny : List (List Matcher) → P → P → Prop
  | [] => fun _ _ => False
  | s :: as => fun p q => composedInRow s p q ∨ composedOfAny as p q

end

end

variable {I} {A : Matcher → P → P → Prop}

private theorem composedInRow_single (m : Matcher) : composedInRow A [m] = composed A m := by
  rw [composedInRow, composedInRow, Relation.comp_eq]

private theorem composedOfAny_single (s : List Matcher) :
    composedOfAny A [s] = composedInRow A s := by
  funext p q
  simp [composedOfAny]

theorem composed_around (m : Matcher) (min max : Number) (n : Option Text) :
    composed A (wildcard [[m]] min max n) = repeated (Counts min max) (composed A m) := by
  rw [composed, composedOfAny_single, composedInRow_single]

/-- To repeat a matcher exactly once is the matcher itself. -/
private theorem composed_once (m : Matcher) (n : Option Text) :
    composed A (wildcard [[m]] 1 1 n) = composed A m := by
  rw [composed_around]
  exact repeated_once (fun k => counts_one) _

/-- Two wildcards that merge mean what the merged wildcard means. -/
theorem composed_merged {min max min' max' : Number} (h : Ascending min max)
    (h' : Ascending min' max') (hle : min.le 1) (hle' : min'.le 1)
    (hlimit : max.factor * max'.factor ≤ Number.exactLimit) (as : List (List Matcher))
    (n n' : Option Text) :
    composed A (wildcard [[wildcard as min' max' n']] min max n) =
      composed A (wildcard as (min.mul min') (max.mulMax max') n) := by
  rw [composed_around, composed, composed, repeated_repeated]
  exact repeated_congr (counts_mul h h' hle hle' hlimit) _

mutual

/-- With the meanings of leaves, nodes and negations that follow from an interpretation, so does the
meaning of every matcher. -/
theorem composed_relation : (m : Matcher) → composed (relation I) m = relation I m
  | leaf t v n => by rw [composed]
  | node s c n => by rw [composed]
  | negated m n => by rw [composed]
  | wildcard as min max n => by rw [composed, relation, composedOfAny_relation as]

theorem composedInRow_relation :
    (ms : List Matcher) → composedInRow (relation I) ms = relationInRow I ms
  | [] => rfl
  | m :: ms => by
    rw [composedInRow, relationInRow, composed_relation m, composedInRow_relation ms]

theorem composedOfAny_relation :
    (as : List (List Matcher)) → composedOfAny (relation I) as = relationOfAny I as
  | [] => rfl
  | s :: as => by
    rw [composedOfAny, relationOfAny, composedInRow_relation s, composedOfAny_relation as]

end

theorem relationInRow_single (m : Matcher) : relationInRow I [m] = relation I m := by
  rw [← composedInRow_relation, composedInRow_single, composed_relation]

theorem relationOfAny_single (s : List Matcher) : relationOfAny I [s] = relationInRow I s := by
  rw [← composedOfAny_relation, composedOfAny_single, composedInRow_relation]

theorem relation_around (m : Matcher) (min max : Number) (n : Option Text) :
    relation I (wildcard [[m]] min max n) = repeated (Counts min max) (relation I m) := by
  rw [← composed_relation, composed_around, composed_relation]

/-- Names do not matter. -/
theorem relation_withName (name : Text) (m : Matcher) :
    relation I (m.withName name) = relation I m := by
  cases m with
  | node s c n => cases c <;> rfl
  | _ => rfl

/-- To repeat exactly once is the choice itself. -/
theorem relation_once (as : List (List Matcher)) (n : Option Text) :
    relation I (wildcard as 1 1 n) = relationOfAny I as := by
  rw [relation]
  exact repeated_once (fun k => counts_one) _

/-! ## Regular matchers -/

/-- The bounds of the wildcards at the top of a matcher, one around the other, ascend, and the
largest product of their finite upper bounds is at most `k`. -/
inductive Regular : Nat → Matcher → Prop where
  | plain {k : Nat} {m : Matcher} (hk : 1 ≤ k) (hm : ∀ as min max n, m ≠ wildcard as min max n) :
      Regular k m
  | around {k j : Nat} {m : Matcher} {min max : Number} {n : Option Text}
      (hb : Ascending min max) (hk : max.factor * j ≤ k) (hm : Regular j m) :
      Regular k (wildcard [[m]] min max n)
  | group {k : Nat} {as : List (List Matcher)} {min max : Number} {n : Option Text}
      (hb : Ascending min max) (hk : max.factor ≤ k) (has : ∀ m, as ≠ [[m]]) :
      Regular k (wildcard as min max n)

private theorem Regular.one_le {k : Nat} {m : Matcher} (h : Regular k m) : 1 ≤ k := by
  induction h with
  | plain hk => exact hk
  | around hb hk _ ih => exact Nat.le_trans (Nat.mul_le_mul (Number.one_le_factor _) ih) hk
  | group hb hk => exact Nat.le_trans (Number.one_le_factor _) hk

theorem Regular.mono {j k : Nat} {m : Matcher} (h : Regular j m) (hjk : j ≤ k) : Regular k m := by
  cases h with
  | plain hk hm => exact .plain (Nat.le_trans hk hjk) hm
  | around hb hk hm => exact .around hb (Nat.le_trans hk hjk) hm
  | group hb hk has => exact .group hb (Nat.le_trans hk hjk) has

theorem Regular.withName {k : Nat} {m : Matcher} (h : Regular k m) (name : Text) :
    Regular k (m.withName name) := by
  cases h with
  | @plain _ m hk hm =>
    apply Regular.plain hk
    intro as min max n heq
    cases m with
    | wildcard as' min' max' n' => exact hm _ _ _ _ rfl
    | _ => cases heq
  | around hb hk hm => exact .around hb hk hm
  | group hb hk has => exact .group hb hk has

private theorem Regular.of_around {k : Nat} {m : Matcher} {min max : Number} {n : Option Text}
    (h : Regular k (wildcard [[m]] min max n)) :
    Ascending min max ∧ ∃ j, max.factor * j ≤ k ∧ Regular j m := by
  cases h with
  | plain _ hm => exact absurd rfl (hm _ _ _ _)
  | around hb hk hm => exact ⟨hb, _, hk, hm⟩
  | group _ _ has => exact absurd rfl (has m)

/-- Two wildcards that merge are regular as one. -/
private theorem Regular.merged {k j : Nat} {as : List (List Matcher)} {min max min' max' : Number}
    {n : Option Text} (h : Regular j (wildcard as min' max' n)) (hb : Ascending min max)
    (hk : max.factor * j ≤ k) (hlimit : k ≤ Number.exactLimit) (hle : min.le 1) (hle' : min'.le 1) :
    Regular k (wildcard as (min.mul min') (max.mulMax max') n) ∧
      composed A (wildcard as (min.mul min') (max.mulMax max') n) =
        composed A (wildcard [[wildcard as min' max' n]] min max n) := by
  have hmerge : ∀ i, max'.factor * i ≤ j → Ascending min' max' → 1 ≤ i →
      (Ascending (min.mul min') (max.mulMax max') ∧ (max.mulMax max').factor * i ≤ k) ∧
        composed A (wildcard as (min.mul min') (max.mulMax max') n) =
          composed A (wildcard [[wildcard as min' max' n]] min max n) := by
    intro i hi hb' hpos
    have hprod : max.factor * max'.factor * i ≤ k := by
      rw [Nat.mul_assoc]
      exact Nat.le_trans (Nat.mul_le_mul_left _ hi) hk
    have hexact : max.factor * max'.factor ≤ Number.exactLimit :=
      Nat.le_trans (Nat.le_mul_of_pos_right _ hpos) (Nat.le_trans hprod hlimit)
    have hfactor := Number.factor_mulMax hb.upper hb'.upper hexact
    exact ⟨⟨hb.mul hb' hle hle', Nat.le_trans (Nat.mul_le_mul_right i hfactor) hprod⟩,
      (composed_merged hb hb' hle hle' hexact as n n).symm⟩
  cases h with
  | plain _ hm => exact absurd rfl (hm _ _ _ _)
  | around hb' hj hm =>
    obtain ⟨⟨hascending, hfactor⟩, hsame⟩ := hmerge _ hj hb' hm.one_le
    exact ⟨.around hascending hfactor hm, hsame⟩
  | group hb' hj has =>
    obtain ⟨⟨hascending, hfactor⟩, hsame⟩ := hmerge 1 (by rwa [Nat.mul_one]) hb' (Nat.le_refl 1)
    exact ⟨.group hascending (by rwa [Nat.mul_one] at hfactor) has, hsame⟩

/-- One collapse keeps a regular matcher regular, and keeps its meaning. -/
private theorem Regular.collapse {k : Nat} {m m' : Matcher} (h : Regular k m)
    (hlimit : k ≤ Number.exactLimit) (hc : collapse m = .ok (some m')) :
    Regular k m' ∧ composed A m' = composed A m := by
  obtain ⟨sub, min, max, rfl, ⟨rfl, rfl, rfl⟩ | ⟨as, min', max', n, rfl, hle, hle', rfl⟩⟩ :=
    collapse_cases hc
  · obtain ⟨-, j, hk, hsub⟩ := h.of_around
    rw [composed_once]
    exact ⟨hsub.mono (Nat.le_trans (Nat.le_mul_of_pos_left j (Number.one_le_factor 1)) hk), rfl⟩
  · obtain ⟨hb, j, hk, hsub⟩ := h.of_around
    exact hsub.merged hb hk hlimit hle hle'

/-- Normalizing keeps a regular matcher regular, and keeps its meaning. -/
theorem Regular.normalize {k : Nat} {m m' : Matcher} (h : Regular k m)
    (hlimit : k ≤ Number.exactLimit) (hm : normalize m = .ok m') :
    Regular k m' ∧ composed A m' = composed A m := by
  refine normalize_related (R := fun m m' => Regular k m →
    Regular k m' ∧ composed A m' = composed A m) (fun m h => ⟨h, rfl⟩) ?_ hm h
  intro m m' m'' hc hrest h
  obtain ⟨hregular, hsame⟩ := h.collapse (A := A) hlimit hc
  obtain ⟨hregular', hsame'⟩ := hrest hregular
  exact ⟨hregular', hsame'.trans hsame⟩

end Matcher

end TreeMatcher
