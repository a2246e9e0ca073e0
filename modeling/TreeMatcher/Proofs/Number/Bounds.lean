import Mathlib.Algebra.Group.Nat.Defs
import TreeMatcher.Compile.Bounds

/-!
# Products of repeat bounds

Where two repeats are merged, their bounds are multiplied. An upper bound is a natural number or
infinite, and so is every product of two of them, also where it is rounded: beyond `2 ^ 53` the last
bit of a number stands for at least one, so rounding gives an integer again, or an infinity.

## Main results

* `isNat_or_infinity_mulMax` — the product of two upper bounds is an upper bound.
* `mul_of_le_one` — lower bounds of at most one are multiplied exactly.
-/

namespace TreeMatcher.Number

/-! ## Rounding large integers -/

private theorem binaryExponent_one (n : Nat) (hn : n ≠ 0) : binaryExponent n 1 = n.log2 := by
  have h1 : Nat.log2 1 = 0 := by decide
  have hpow : 2 ^ n.log2 ≤ n := Nat.log2_self_le hn
  unfold binaryExponent
  have hneg : (-(n.log2 : Int)).toNat = 0 := by omega
  dsimp only
  rw [h1, Int.natCast_zero, Int.sub_zero, hneg, Int.toNat_natCast, Nat.pow_zero, Nat.one_mul,
    Nat.mul_one, if_pos hpow]

/-- Beyond `2 ^ 53` the last bit of a number stands for more than one. -/
theorem lastBitExponent_of_large {n : Nat} (h : exactLimit < n) :
    53 ≤ n.log2 ∧ lastBitExponent n 1 = (n.log2 - 52 : Nat) := by
  have hn : n ≠ 0 := by omega
  have hlog : 53 ≤ n.log2 := (Nat.le_log2 hn).2 (Nat.le_of_lt h)
  have hexp := binaryExponent_one n hn
  unfold lastBitExponent
  omega

/-- The significand of a number beyond `2 ^ 53` has 53 bits. -/
theorem le_div_of_large {n : Nat} (h : exactLimit < n) : 2 ^ 52 ≤ n / 2 ^ (n.log2 - 52) := by
  have hlog := (lastBitExponent_of_large h).1
  refine (Nat.le_div_iff_mul_le (Nat.two_pow_pos _)).2 ?_
  rw [← Nat.pow_add, show 52 + (n.log2 - 52) = n.log2 by omega]
  exact Nat.log2_self_le (by omega)

private theorem le_roundQuotient (n d : Nat) : n / d ≤ roundQuotient n d := by
  unfold roundQuotient
  dsimp only
  split
  · exact Nat.le_refl _
  · split
    · exact Nat.le_succ _
    · split
      · exact Nat.le_refl _
      · exact Nat.le_succ _

/-- A number beyond `2 ^ 53` is not rounded below `2 ^ 53`. -/
private theorem exactLimit_le_rounded {n : Nat} (h : exactLimit < n) :
    exactLimit ≤
      roundQuotient (n * 2 ^ (-lastBitExponent n 1).toNat) (1 * 2 ^ (lastBitExponent n 1).toNat) *
        2 ^ (lastBitExponent n 1).toNat := by
  obtain ⟨hlog, hexp⟩ := lastBitExponent_of_large h
  have hneg : (-((n.log2 - 52 : Nat) : Int)).toNat = 0 := by omega
  rw [hexp, hneg, Int.toNat_natCast, Nat.pow_zero, Nat.mul_one, Nat.one_mul]
  have hquot := le_div_of_large h
  have htwo : 2 ^ 1 ≤ 2 ^ (n.log2 - 52) := Nat.pow_le_pow_right (by decide) (by omega)
  calc exactLimit = 2 ^ 52 * 2 ^ 1 := by decide
    _ ≤ roundQuotient n (2 ^ (n.log2 - 52)) * 2 ^ (n.log2 - 52) :=
      Nat.mul_le_mul (Nat.le_trans hquot (le_roundQuotient _ _)) htwo

/-- A natural number is rounded to a natural number, or to infinity; one beyond `2 ^ 53` to none
below. -/
theorem ofInt_natCast (n : Nat) :
    ofInt n = .infinity ∨
      ∃ m : Nat, ofInt n = .int m ∧ (n ≤ exactLimit → m = n) ∧
        (exactLimit < n → exactLimit ≤ m) := by
  unfold ofInt
  rw [Int.natAbs_natCast]
  split
  · next hsmall => exact .inr ⟨n, rfl, fun _ => rfl, fun h => absurd hsmall (Nat.not_le.2 h)⟩
  · next hlarge =>
    have hlt : exactLimit < n := Nat.lt_of_not_le hlarge
    have hneg : decide ((n : Int) < 0) = false := by simp
    have hscale : (-lastBitExponent n 1).toNat = 0 := by
      have := (lastBitExponent_of_large hlt).2
      omega
    have hrounded := exactLimit_le_rounded hlt
    rw [hneg, ofRatio, if_neg (by omega)]
    simp only [hscale, ofDyadic] at hrounded ⊢
    split
    · exact .inl rfl
    · exact .inr ⟨_, rfl, fun h => absurd h hlarge, fun _ => hrounded⟩

/-! ## Bounds -/

theorem isNat_iff {x : Number} : x.isNat ↔ ∃ n : Nat, x = .int n := by
  constructor
  · intro h
    cases x with
    | int n =>
      rw [isNat, decide_eq_true_eq] at h
      exact ⟨n.toNat, by rw [Int.toNat_of_nonneg h]⟩
    | _ => cases h
  · rintro ⟨n, rfl⟩
    simp [isNat]

@[simp] theorem isNat_int (n : Nat) : isNat (.int n) = true := by
  simp [isNat]

/-! ## Products of upper bounds -/

theorem mulMax_int_infinity (n : Nat) :
    mulMax (.int n) .infinity = if n = 0 then .int 0 else .infinity := by
  split
  · next h => rw [h]; rfl
  · next h => simp [mulMax, mul, ratio?, isNegative, h]

theorem mulMax_infinity_int (n : Nat) :
    mulMax .infinity (.int n) = if n = 0 then .int 0 else .infinity := by
  split
  · next h => rw [h]; rfl
  · next h => simp [mulMax, mul, ratio?, isNegative, h]

/-- The product of two finite bounds is rounded. -/
theorem mulMax_int_int (m n : Nat) : mulMax (.int m) (.int n) = ofInt (m * n : Nat) := by
  by_cases hzero : m = 0 ∨ n = 0
  · have hprod : m * n = 0 := Nat.mul_eq_zero.2 hzero
    rw [hprod]
    rcases hzero with rfl | rfl <;> simp [mulMax, ofInt]
  · rw [not_or] at hzero
    simp [mulMax, hzero, mul_int_int]

/-- Finite bounds are multiplied exactly up to the limit of exactness. -/
theorem mulMax_natCast {m n : Nat} (h : m * n ≤ exactLimit) :
    mulMax (.int m) (.int n) = .int (m * n : Nat) := by
  rw [mulMax_int_int]
  exact ofInt_of_natAbs_le (by rw [Int.natAbs_natCast]; exact h)

/-- Nothing is the product of nothing and any upper bound. -/
theorem zero_mulMax {b : Number} (hb : b = .infinity ∨ b.isNat) : mulMax 0 b = 0 := by
  rcases hb with rfl | hb
  · rfl
  · obtain ⟨n, rfl⟩ := isNat_iff.1 hb
    have hmul := mulMax_natCast (m := 0) (n := n) (by simp)
    rwa [Nat.zero_mul] at hmul

theorem mulMax_zero {b : Number} (hb : b = .infinity ∨ b.isNat) : mulMax b 0 = 0 := by
  rcases hb with rfl | hb
  · rfl
  · obtain ⟨n, rfl⟩ := isNat_iff.1 hb
    exact mulMax_natCast (m := n) (n := 0) (by simp)

/-- The product of two upper bounds is an upper bound. -/
theorem isNat_or_infinity_mulMax {a b : Number} (ha : a = .infinity ∨ a.isNat)
    (hb : b = .infinity ∨ b.isNat) : mulMax a b = .infinity ∨ (mulMax a b).isNat := by
  simp only [isNat_iff] at ha hb ⊢
  rcases ha with rfl | ⟨m, rfl⟩ <;> rcases hb with rfl | ⟨n, rfl⟩
  · exact .inl rfl
  · rw [mulMax_infinity_int]
    split
    · exact .inr ⟨0, rfl⟩
    · exact .inl rfl
  · rw [mulMax_int_infinity]
    split
    · exact .inr ⟨0, rfl⟩
    · exact .inl rfl
  · rw [mulMax_int_int]
    rcases ofInt_natCast (m * n) with h | ⟨k, h, -⟩
    · exact .inl h
    · exact .inr ⟨k, h⟩

/-- The product of two upper bounds is one only when both are. -/
theorem eq_one_of_mulMax {a b : Number} (ha : a = .infinity ∨ a.isNat)
    (hb : b = .infinity ∨ b.isNat) (h : mulMax a b = 1) : a = 1 ∧ b = 1 := by
  simp only [isNat_iff] at ha hb
  rcases ha with rfl | ⟨m, rfl⟩ <;> rcases hb with rfl | ⟨n, rfl⟩
  · cases h
  · rw [mulMax_infinity_int] at h
    split at h <;> cases h
  · rw [mulMax_int_infinity] at h
    split at h <;> cases h
  · rw [mulMax_int_int] at h
    rcases ofInt_natCast (m * n) with hinf | ⟨k, hk, hexact, hlarge⟩
    · rw [hinf] at h
      cases h
    · rw [hk] at h
      have hone : k = 1 := Int.ofNat.inj (int.inj h)
      have hsmall : m * n ≤ exactLimit := by
        apply Nat.le_of_not_lt
        intro hlt
        have hk1 := hlarge hlt
        rw [hone] at hk1
        exact absurd hk1 (by decide)
      have hprod : m * n = 1 := by rw [← hexact hsmall, hone]
      rw [Nat.eq_one_of_mul_eq_one_right hprod, Nat.eq_one_of_mul_eq_one_left hprod]
      exact ⟨rfl, rfl⟩

theorem le_one_iff {n : Nat} : (Number.int n).le 1 ↔ n ≤ 1 := by
  rw [show (1 : Number) = .int (1 : Nat) from rfl, le_int, decide_eq_true_eq, Int.ofNat_le]

/-- Lower bounds of at most one are multiplied exactly. -/
theorem mul_of_le_one {m n : Nat} (hm : m ≤ 1) (hn : n ≤ 1) :
    mul (.int m) (.int n) = .int (m * n : Nat) := by
  have hprod : m * n ≤ 1 := Nat.mul_le_mul hm hn
  have hlimit : m * n ≤ exactLimit := Nat.le_trans hprod (by decide)
  rw [Int.natCast_mul]
  exact mul_int (by rw [← Int.natCast_mul, Int.natAbs_natCast]; exact hlimit)

/-- An upper bound stays what it is when it is multiplied by one, up to the limit of exactness. -/
theorem mulMax_one {b : Number} (hb : b = .infinity ∨ ∃ n : Nat, b = .int n ∧ n ≤ exactLimit) :
    mulMax b 1 = b := by
  rcases hb with rfl | ⟨n, rfl, hn⟩
  · rfl
  · have h : ((n : Int) * 1).natAbs ≤ exactLimit := by simpa using hn
    rw [show (1 : Number) = .int 1 from rfl, mulMax_int h, Int.mul_one]

end TreeMatcher.Number
