import TreeMatcher.Matcher.Spelling
import TreeMatcher.Proofs.Compile.Places
import TreeMatcher.Proofs.Compile.Shape
import TreeMatcher.Proofs.Grammar.Declared
import TreeMatcher.Proofs.Number.LargeText
import TreeMatcher.Proofs.Pattern.Layout

/-!
# Repeaters that are written

A wildcard writes its bounds as a repeater. Read again, the repeater gives the bounds, unless one is
too large for a repeater to take.

* `repeaterOf min max` — the repeater that is written for some bounds.
* `captureOf name?` — the capture name that is written for a name.

## Main results

* `repeaterText_eq` — the text is that of the repeater.
* `bounds_repeaterOf` — the repeater gives the bounds back.
* `le_of_bounds_repeaterOf` — with a bound beyond the limit it is refused.
-/

namespace TreeMatcher

open Matcher

/-! ## Legibility -/

theorem Token.Legible.mono {P Q : Prop} {t : Token} (h : t.Legible P) (hPQ : P → Q) :
    t.Legible Q := by
  unfold Token.Legible at h ⊢
  split at h
  · exact h
  · exact h.imp_right fun h => ⟨hPQ h.1, h.2⟩
  · exact h
  · exact h

/-- The word of a mark. -/
def markWord (m : CodeUnit) : Word := .ofText [m]

theorem legible_mark {P : Prop} {k : TokenKind} {m : CodeUnit} (h : k.mark? = some m) :
    ((markWord m).token k).Legible P := by
  cases k <;> cases h <;> exact ⟨_, rfl, rfl⟩

/-! ## Names -/

/-- The capture name that is written for a name. -/
def captureOf (name? : Option Text) : Option Capture :=
  name?.map fun n => ⟨.ofText n, markWord 0x3D⟩

theorem captureSource_captureOf (name? : Option Text) :
    captureSource (captureOf name?) = Grammar.captureText name? := by
  cases name? <;> rfl

theorem legible_captureOf {P : Prop} {name? : Option Text} (h : Named name?) :
    ∀ t ∈ captureTokens (captureOf name?), t.Legible P := by
  cases name? with
  | none => simp [captureOf, captureTokens]
  | some n =>
    have hn : ((Word.ofText n).token .name).Legible P := h n rfl
    simpa [captureOf, captureTokens] using ⟨hn, legible_mark rfl⟩

/-- A name on a wildcard is attached before it is finished. -/
theorem captured_captureOf (as : List (List Matcher)) (min max : Number) (name? : Option Text) :
    (wildcard as min max none).captured (captureOf name?) = (wildcard as min max name?).finish := by
  cases name? <;> rfl

/-! ## Numbers -/

/-- The word of a bound. -/
def boundWord (n : Nat) : Word := .ofText (Number.toText (.int n))

theorem legible_boundWord {P : Prop} {n : Nat} (h : boundLimit < n → P) :
    ((boundWord n).token .number).Legible P := by
  show Text.IsNumeral P (Number.toText (.int n))
  by_cases hlarge : boundLimit < n
  · exact (Number.toText_of_large hlarge).1.imp_right fun hr => ⟨h hlarge, hr.2⟩
  · rw [Number.toText_of_le (by omega)]
    exact .inl (Text.isDecimal_ofNat n)

theorem boundOf_boundWord {n : Nat} (h : n ≤ boundLimit) :
    boundOf ((boundWord n).leaf .number) = .ok n := by
  have htext : (Leaf.ofToken ((boundWord n).token .number)).value = Text.ofNat n :=
    Number.toText_of_le h
  refine (boundOf_eq_ok_iff rfl ?_).2 ⟨?_, h⟩
  · rw [htext]
    exact Text.isDecimal_ofNat n
  · rw [htext, Text.decimalValue_ofNat]

/-- No repeater takes a bound beyond the limit, in whatever way it is written. -/
private theorem le_of_boundOf_boundWord {n k : Nat}
    (hk : boundOf ((boundWord n).leaf .number) = .ok k) :
    n ≤ boundLimit := by
  by_contra h
  have hlarge := (Number.toText_of_large (Nat.lt_of_not_le h)).2
  have hvalue : (Leaf.ofToken ((boundWord n).token .number)).value = Number.toText (.int n) := rfl
  have hlabel : (Leaf.ofToken ((boundWord n).token .number)).label = .token .number := rfl
  rw [Word.leaf, Tree.ofToken, boundOf, if_pos hlabel, hvalue] at hk
  split at hk
  · next hd =>
    split at hk
    · next hle => exact absurd (hlarge hd) (Nat.not_lt.2 hle)
    · cases hk
  · cases hk

/-! ## Repeaters -/

/-- An upper bound; `none` is infinity. -/
def upperBound : Option Nat → Number
  | none => .infinity
  | some b => .int b

/-- The repeater that is written for some bounds. -/
def repeaterOf (a : Nat) : Option Nat → Repeater
  | none => if a = 0 then .star (markWord 0x2A) else .plus (markWord 0x2B)
  | some b =>
    if a = b then .exactly (markWord 0x7B) (boundWord a) (markWord 0x7D)
    else .between (markWord 0x7B) (boundWord a) (markWord 0x2C) (boundWord b) (markWord 0x7D)

theorem legible_repeaterOf {P : Prop} {a : Nat} {b? : Option Nat} (ha : boundLimit < a → P)
    (hb : ∀ b ∈ b?, boundLimit < b → P) : ∀ t ∈ (repeaterOf a b?).tokens, t.Legible P := by
  have hword : ((boundWord a).token .number).Legible P := legible_boundWord ha
  cases b? with
  | none =>
    rw [repeaterOf]
    split <;> simpa [Repeater.tokens] using legible_mark rfl
  | some b =>
    have hword' : ((boundWord b).token .number).Legible P := legible_boundWord (hb b rfl)
    rw [repeaterOf]
    split
    · simpa [Repeater.tokens] using ⟨legible_mark rfl, hword, legible_mark rfl⟩
    · simpa [Repeater.tokens] using
        ⟨legible_mark rfl, hword, legible_mark rfl, hword', legible_mark rfl⟩

theorem int_eq_iff {a b : Nat} : Number.int a = .int b ↔ a = b := by
  rw [Number.int.injEq, Int.ofNat_inj]

/-- What is written for some bounds is the text of the repeater. -/
theorem repeaterText_eq {a : Nat} {b? : Option Nat} (hone : ¬(a = 1 ∧ b? = some 1))
    (hinf : b? = none → a ≤ 1) :
    Grammar.repeaterText (.int a) (upperBound b?) = .ok (repeaterOf a b?).text := by
  cases b? with
  | none =>
    rcases (by have := hinf rfl; omega : a = 0 ∨ a = 1) with rfl | rfl <;> rfl
  | some b =>
    have hone' : ¬(Number.int a = 1 ∧ Number.int b = 1) := fun h =>
      hone ⟨int_eq_iff.1 h.1, congrArg some (int_eq_iff.1 h.2)⟩
    rw [Grammar.repeaterText, upperBound, if_neg hone', if_neg (by simp), repeaterOf]
    by_cases hab : a = b
    · rw [if_pos ⟨int_eq_iff.2 hab, by simp⟩, if_pos hab]
      simp only [Repeater.text, markWord, boundWord, Word.ofText, List.append_assoc]
      rfl
    · rw [if_neg (fun h => hab (int_eq_iff.1 h.1)), if_neg hab]
      simp only [Repeater.text, markWord, boundWord, Word.ofText, List.append_assoc]
      rfl

/-- The repeater gives the bounds back. -/
theorem bounds_repeaterOf {a : Nat} {b? : Option Nat} (ha : a ≤ boundLimit)
    (hinf : b? = none → a ≤ 1) (hb : ∀ b ∈ b?, b ≤ boundLimit) :
    (repeaterOf a b?).bounds = .ok (.int a, upperBound b?) := by
  cases b? with
  | none =>
    rw [repeaterOf]
    rcases (by have := hinf rfl; omega : a = 0 ∨ a = 1) with rfl | rfl <;> rfl
  | some b =>
    have hle : b ≤ boundLimit := hb b rfl
    rw [repeaterOf]
    split
    · next hab =>
      rw [Repeater.bounds, boundOf_boundWord ha, upperBound, ← hab]
      rfl
    · rw [Repeater.bounds, boundOf_boundWord ha, boundOf_boundWord hle]
      rfl

/-- A repeater that is not refused has no bound beyond the limit. -/
theorem le_of_bounds_repeaterOf {a : Nat} {b? : Option Nat} {bs : Number × Number}
    (hinf : b? = none → a ≤ 1) (h : (repeaterOf a b?).bounds = .ok bs) :
    a ≤ boundLimit ∧ ∀ b ∈ b?, b ≤ boundLimit := by
  cases b? with
  | none => exact ⟨Nat.le_trans (hinf rfl) (by decide), by simp⟩
  | some b =>
    rw [repeaterOf] at h
    split at h
    · next hab =>
      obtain ⟨k, hk, -⟩ := eq_ok_of_bind h
      have ha := le_of_boundOf_boundWord hk
      exact ⟨ha, by simpa [← hab] using ha⟩
    · obtain ⟨k, hk, h⟩ := eq_ok_of_bind h
      obtain ⟨k', hk', -⟩ := eq_ok_of_bind h
      exact ⟨le_of_boundOf_boundWord hk, by simpa using le_of_boundOf_boundWord hk'⟩

end TreeMatcher
