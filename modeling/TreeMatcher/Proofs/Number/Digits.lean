import Mathlib.Algebra.Group.Nat.Defs
import TreeMatcher.Number.Shortest

/-!
# Decimal digits read back

## Main results

* `isDecimal_ofNat`, `decimalValue_ofNat` — the digits of a natural number are a run of digits with
  that value.
* `exists_withoutZeros` — a run of digits without its trailing zeros, and the zeros.
-/

namespace TreeMatcher.Text

/-! ## Digits of a number -/

/-- The unit of a decimal digit. -/
def digitUnit (d : Nat) : CodeUnit := d.digitChar.toNat.toUInt16

private theorem digitUnit_facts {d : Nat} (h : d < 10) :
    (digitUnit d).isDigit = true ∧ digitValue (digitUnit d) = d := by
  have hall : ∀ d : Fin 10, (digitUnit d).isDigit = true ∧ digitValue (digitUnit d) = d.val := by
    decide
  exact hall ⟨d, h⟩

private theorem ofNat_of_lt {n : Nat} (h : n < 10) : ofNat n = [digitUnit n] := by
  rw [ofNat, Nat.toDigits_of_lt_base h]
  rfl

private theorem ofNat_of_le {n : Nat} (h : 10 ≤ n) :
    ofNat n = ofNat (n / 10) ++ [digitUnit (n % 10)] := by
  rw [ofNat, Nat.toDigits_of_base_le (by decide) h, List.map_append]
  rfl

theorem isDecimal_append {s t : Text} (hs : isDecimal s) (ht : ∀ c ∈ t, c.isDigit) :
    isDecimal (s ++ t) := by
  rw [isDecimal, Bool.and_eq_true, Bool.not_eq_true', List.isEmpty_eq_false_iff,
    List.all_eq_true] at hs ⊢
  refine ⟨by simp [hs.1], ?_⟩
  intro c hc
  rcases List.mem_append.1 hc with hc | hc
  · exact hs.2 c hc
  · exact ht c hc

theorem isDecimal_ofNat (n : Nat) : isDecimal (ofNat n) := by
  induction n using Nat.strongRecOn with
  | ind n ih =>
    by_cases h : n < 10
    · rw [ofNat_of_lt h]
      simp [isDecimal, (digitUnit_facts h).1]
    · rw [ofNat_of_le (by omega)]
      refine isDecimal_append (ih _ (by omega)) ?_
      simpa using (digitUnit_facts (Nat.mod_lt n (by decide))).1

theorem decimalValue_ofNat (n : Nat) : decimalValue (ofNat n) = n := by
  induction n using Nat.strongRecOn with
  | ind n ih =>
    by_cases h : n < 10
    · rw [ofNat_of_lt h]
      simp [decimalValue, (digitUnit_facts h).2]
    · rw [ofNat_of_le (by omega), decimalValue_concat, ih _ (by omega),
        (digitUnit_facts (Nat.mod_lt n (by decide))).2]
      omega

/-! ## Trailing zeros -/

theorem decimalValue_replicate (z : Nat) : decimalValue (List.replicate z 0x30) = 0 := by
  induction z with
  | zero => rfl
  | succ z ih =>
    rw [List.replicate_succ', decimalValue_concat, ih]
    rfl

theorem decimalValue_append_zeros (t : Text) (z : Nat) :
    decimalValue (t ++ List.replicate z 0x30) = decimalValue t * 10 ^ z := by
  rw [decimalValue_append, decimalValue_replicate, List.length_replicate, Nat.add_zero]

/-- A text without the zeros at its end. -/
def withoutZeros (t : Text) : Text := (t.reverse.dropWhile (· == 0x30)).reverse

/-- A text is what is left without the zeros at its end, and those zeros. -/
theorem exists_withoutZeros (t : Text) : ∃ z, t = withoutZeros t ++ List.replicate z 0x30 := by
  have hzeros : ∀ c ∈ t.reverse.takeWhile (· == 0x30), c = 0x30 := fun c hc =>
    eq_of_beq (List.all_eq_true.1 List.all_takeWhile c hc)
  refine ⟨(t.reverse.takeWhile (· == 0x30)).length, ?_⟩
  calc t = t.reverse.reverse := t.reverse_reverse.symm
    _ = (t.reverse.takeWhile (· == 0x30) ++ t.reverse.dropWhile (· == 0x30)).reverse := by
      rw [List.takeWhile_append_dropWhile]
    _ = withoutZeros t ++ (t.reverse.takeWhile (· == 0x30)).reverse := List.reverse_append
    _ = withoutZeros t ++
        List.replicate (t.reverse.takeWhile (· == 0x30)).length 0x30 := by
      rw [List.eq_replicate_of_mem hzeros, List.reverse_replicate, List.length_replicate]

/-! ## Numerals -/

/-- A number in decimal; where numbers may be rounded, also one with a point or an exponent behind
its first digits. -/
def IsNumeral (rounded : Prop) (t : Text) : Prop :=
  isDecimal t ∨ rounded ∧ ∃ digits c more, t = digits ++ c :: more ∧ isDecimal digits ∧
    (c = 0x2E ∨ c = 0x65)

end TreeMatcher.Text
