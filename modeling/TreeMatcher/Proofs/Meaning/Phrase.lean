import TreeMatcher.Compile.Basic
import TreeMatcher.Proofs.Meaning.Matcher
import TreeMatcher.Proofs.Pattern.Syntax

/-!
# What a phrase means

A phrase is read as a relation between positions, too, and without a look at what it compiles to: a
bar is a union, units in a row are composed, an exclamation mark is a negation, an optional group is
its content or nothing, and a repeater says how often its pattern is repeated. Capture names do not
matter. What names and literals stand for is looked up in the grammar.

* `Choice.relation` and its companions — what a phrase means.
* `Choice.repeaters` — the repeaters in a phrase, at any depth.
* `Choice.peak` — the largest product of finite upper bounds of repeaters that are nested in a
  phrase.

## Main results

* `Choice.peak_pos` and its companions — the product of no bounds is one.
-/

namespace TreeMatcher

universe u

/-! ## Repeaters -/

namespace Repeater

/-- How often a repeater repeats. -/
def counts : Repeater → Nat → Prop
  | star _ => fun _ => True
  | plus _ => fun k => 1 ≤ k
  | exactly _ n _ => fun k => k = n.text.decimalValue
  | between _ n _ m _ => fun k => n.text.decimalValue ≤ k ∧ k ≤ m.text.decimalValue

/-- The upper bound of a repeater, if it is finite. -/
def max? : Repeater → Option Nat
  | star _ => none
  | plus _ => none
  | exactly _ n _ => some n.text.decimalValue
  | between _ _ _ m _ => some m.text.decimalValue

/-- The bounds in braces are in order. -/
def Ordered : Repeater → Prop
  | between _ n _ m _ => n.text.decimalValue ≤ m.text.decimalValue
  | _ => True

end Repeater

mutual

/-- The repeaters in alternatives. -/
def Choice.repeaters : Choice → List Repeater
  | .single s => s.repeaters
  | .either s _ c => s.repeaters ++ c.repeaters

/-- The repeaters in an alternative. -/
def Sequence.repeaters : Sequence → List Repeater
  | .single i => i.repeaters
  | .followed i s => i.repeaters ++ s.repeaters

/-- The repeaters in a unit. -/
def Item.repeaters : Item → List Repeater
  | .negated _ o => o.repeaters
  | .plain _ o => o.repeaters
  | .repeated _ b r => r :: b.repeaters

/-- The repeaters in an operand. -/
def Operand.repeaters : Operand → List Repeater
  | .optional _ c _ => c.repeaters
  | .basic b => b.repeaters

/-- The repeaters in a basic pattern. -/
def Basic.repeaters : Basic → List Repeater
  | .literal _ => []
  | .name _ => []
  | .detailed _ _ c _ => c.repeaters
  | .group _ c _ => c.repeaters

end

mutual

/-- The largest product of nested finite upper bounds in alternatives. -/
def Choice.peak : Choice → Nat
  | .single s => s.peak
  | .either s _ c => max s.peak c.peak

/-- The largest product of nested finite upper bounds in an alternative. -/
def Sequence.peak : Sequence → Nat
  | .single i => i.peak
  | .followed i s => max i.peak s.peak

/-- The largest product of nested finite upper bounds in a unit. -/
def Item.peak : Item → Nat
  | .negated _ o => o.peak
  | .plain _ o => o.peak
  | .repeated _ b r =>
    match r.max? with
    | none => b.peak
    | some n => max b.peak (n * b.peak)

/-- The largest product of nested finite upper bounds in an operand. -/
def Operand.peak : Operand → Nat
  | .optional _ c _ => c.peak
  | .basic b => b.peak

/-- The largest product of nested finite upper bounds in a basic pattern. -/
def Basic.peak : Basic → Nat
  | .literal _ => 1
  | .name _ => 1
  | .detailed _ _ c _ => c.peak
  | .group _ c _ => c.peak

end

/-! ## Meaning -/

section

variable {P : Type u} (g : Grammar) (I : Interpretation P)

namespace Grammar

/-- The token kind of a literal: a name if it begins with a letter, or else an operator. -/
def literalKind? (value : Text) : Option Number :=
  if value.startsWithLetter then some (.int g.nameKind) else (g.operatorKind? value).map .int

/-- The symbols that a name stands for: any, or one that the grammar declares. -/
def symbolsOf? (name : Text) : Option (Option Number) :=
  if name = anySymbol ∨ name.head? = some CodeUnit.underscore then some none
  else (g.symbolKind? name).map fun k => some (.int k)

/-- What a literal means. -/
def literalRelation (source : Text) : P → P → Prop :=
  match Literal.unquote source with
  | .ok value => I.leaf (g.literalKind? value) (some value)
  | .error _ => fun _ _ => False

/-- What a name for token kinds means. -/
def tokenRelation (name : Text) : P → P → Prop :=
  match g.tokenNames.lookup name with
  | some kind => I.leaf kind none
  | none => fun _ _ => False

/-- What a name for symbols means, with content or without. -/
def symbolRelation (name : Text) (content? : Option (P → P → Prop)) : P → P → Prop :=
  match g.symbolsOf? name with
  | some symbol => I.node symbol content?
  | none => fun _ _ => False

end Grammar

mutual

/-- What alternatives mean. -/
def Choice.relation : Choice → P → P → Prop
  | .single s => s.relation
  | .either s _ c => fun p q => s.relation p q ∨ c.relation p q

/-- What an alternative means. -/
def Sequence.relation : Sequence → P → P → Prop
  | .single i => i.relation
  | .followed i s => Relation.Comp i.relation s.relation

/-- What a unit means. -/
def Item.relation : Item → P → P → Prop
  | .negated _ o => absent o.relation
  | .plain _ o => o.relation
  | .repeated _ b r => repeated r.counts b.relation

/-- What an operand means. -/
def Operand.relation : Operand → P → P → Prop
  | .optional _ c _ => fun p q => p = q ∨ c.relation p q
  | .basic b => b.relation

/-- What a basic pattern means. -/
def Basic.relation : Basic → P → P → Prop
  | .literal w => g.literalRelation I w.text
  | .name w =>
    if w.text.isUpperCase then g.tokenRelation I w.text else g.symbolRelation I w.text none
  | .detailed w _ c _ => g.symbolRelation I w.text (some c.relation)
  | .group _ c _ => c.relation

end

end

/-! ## The product of no bounds is one -/

mutual

theorem Choice.peak_pos : (c : Choice) → 1 ≤ c.peak
  | .single s => by
    rw [Choice.peak]
    exact Sequence.peak_pos s
  | .either s _ c => by
    rw [Choice.peak]
    exact Nat.le_trans (Sequence.peak_pos s) (Nat.le_max_left _ _)

theorem Sequence.peak_pos : (s : Sequence) → 1 ≤ s.peak
  | .single i => by
    rw [Sequence.peak]
    exact Item.peak_pos i
  | .followed i s => by
    rw [Sequence.peak]
    exact Nat.le_trans (Item.peak_pos i) (Nat.le_max_left _ _)

theorem Item.peak_pos : (i : Item) → 1 ≤ i.peak
  | .negated _ o => by
    rw [Item.peak]
    exact Operand.peak_pos o
  | .plain _ o => by
    rw [Item.peak]
    exact Operand.peak_pos o
  | .repeated _ b r => by
    rw [Item.peak]
    have hb := Basic.peak_pos b
    split
    · exact hb
    · exact Nat.le_trans hb (Nat.le_max_left _ _)

theorem Operand.peak_pos : (o : Operand) → 1 ≤ o.peak
  | .optional _ c _ => by
    rw [Operand.peak]
    exact Choice.peak_pos c
  | .basic b => by
    rw [Operand.peak]
    exact Basic.peak_pos b

theorem Basic.peak_pos : (b : Basic) → 1 ≤ b.peak
  | .literal _ => by simp [Basic.peak]
  | .name _ => by simp [Basic.peak]
  | .detailed _ _ c _ => by
    rw [Basic.peak]
    exact Choice.peak_pos c
  | .group _ c _ => by
    rw [Basic.peak]
    exact Choice.peak_pos c

end

end TreeMatcher
