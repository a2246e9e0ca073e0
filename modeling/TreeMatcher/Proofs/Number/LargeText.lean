import TreeMatcher.Compile.Bounds
import TreeMatcher.Proofs.Number.Bounds
import TreeMatcher.Proofs.Number.Digits

/-!
# The text of a bound that is too large

Merged bounds may lie beyond the largest bound that a repeater takes. Such a number is written with
the shortest digits that read back as the same number, so the digits may stand for a smaller number
than the bound; but never for one that a repeater takes, since half a last place below a number
beyond `2 ^ 53` is still above `2 ^ 53 - 1`. From `1e21` on it is written with an exponent.

## Main results

* `toText_of_large` — the text of a large bound is a numeral, and no repeater takes it.
* `toText_of_le` — the text of any other bound is its digits.
-/

namespace TreeMatcher.Number

/-! ## Digits that read back -/

private theorem lower_le_of_holds {i : Interval} {s : Nat} {t : Int} (h : i.holds s t) :
    i.lower * 10 ^ (-t).toNat ≤ s * 10 ^ t.toNat * i.denominator := by
  unfold Interval.holds at h
  dsimp only at h
  split at h
  · rw [Bool.and_eq_true, decide_eq_true_eq, decide_eq_true_eq] at h
    exact h.1
  · rw [Bool.and_eq_true, decide_eq_true_eq, decide_eq_true_eq] at h
    exact Nat.le_of_lt h.1

private theorem holds_of_neighbour? {i : Interval} {point : Int} {k s : Nat}
    (h : neighbour? i point k = some s) : i.holds s (point - k) := by
  unfold neighbour? at h
  extract_lets t s' twice middle nearer farther at h
  split at h
  · next hs => exact Option.some.inj h ▸ hs
  · split at h
    · next hs => exact Option.some.inj h ▸ hs
    · cases h

/-- The digits found lie in the interval, unless all numbers of digits were tried. -/
private theorem shortestFrom_cases (i : Interval) (point : Int) (fuel k : Nat) :
    i.holds (shortestFrom i point fuel k).1 (point - (shortestFrom i point fuel k).2) ∨
      shortestFrom i point fuel k =
        (i.value * 10 ^ ((k + fuel : Nat) - point).toNat /
          (i.denominator * 10 ^ (point - (k + fuel : Nat)).toNat), k + fuel) := by
  induction fuel generalizing k with
  | zero => exact .inr rfl
  | succ fuel ih =>
    rw [shortestFrom]
    cases h : neighbour? i point k with
    | some s => exact .inl (holds_of_neighbour? h)
    | none =>
      rw [show k + (fuel + 1) = k + 1 + fuel by omega]
      exact ih (k + 1)

/-! ## The digits of a large number -/

private theorem roundingInterval_of_large {n : Nat} (h : exactLimit < n) :
    (roundingInterval n 1).value =
        n / 2 ^ (n.log2 - 52) * 2 ^ (n.log2 - 52) * (roundingInterval n 1).denominator ∧
      boundLimit * (roundingInterval n 1).denominator < (roundingInterval n 1).lower ∧
      0 < (roundingInterval n 1).denominator := by
  obtain ⟨hlog, hexp⟩ := lastBitExponent_of_large h
  have hquot := le_div_of_large h
  have hneg : (-((n.log2 - 52 : Nat) : Int)).toNat = 0 := by omega
  have hsig : significand n 1 = (n / 2 ^ (n.log2 - 52), ((n.log2 - 52 : Nat) : Int)) := by
    unfold significand
    dsimp only
    rw [hexp, hneg, Int.toNat_natCast, Nat.pow_zero, Nat.mul_one, Nat.one_mul]
  unfold roundingInterval
  rw [hsig]
  generalize n / 2 ^ (n.log2 - 52) = m at hquot ⊢
  generalize hε : n.log2 - 52 = ε
  dsimp only
  -- the reals that round to the number lie above the limit, also next to a power of two
  have hbelow : 2 * boundLimit + 1 ≤
      4 * m - if decide (m = 2 ^ 52) && decide (-1074 < (ε : Int)) then 1 else 2 := by
    rw [boundLimit]
    split
    · omega
    · next hne =>
      rw [Bool.and_eq_true, decide_eq_true_eq, decide_eq_true_eq] at hne
      have hm : m ≠ 2 ^ 52 := fun hm => hne ⟨hm, by omega⟩
      omega
  generalize (4 * m - if decide (m = 2 ^ 52) && decide (-1074 < (ε : Int)) then 1 else 2) = lower
    at hbelow ⊢
  rcases (by omega : ε = 1 ∨ 2 ≤ ε) with rfl | htwo
  · have hup : (((1 : Nat) : Int) - 2).toNat = 0 := by decide
    have hdown : (2 - ((1 : Nat) : Int)).toNat = 1 := by decide
    rw [hup, hdown, Nat.pow_zero]
    exact ⟨by omega, by omega, by decide⟩
  · obtain ⟨δ, rfl⟩ := Nat.exists_eq_add_of_le' htwo
    have hup : (((δ + 2 : Nat) : Int) - 2).toNat = δ := by omega
    have hdown : (2 - ((δ + 2 : Nat) : Int)).toNat = 0 := by omega
    rw [hup, hdown, Nat.pow_zero, Nat.mul_one, Nat.mul_one]
    refine ⟨?_, ?_, by decide⟩
    · rw [Nat.pow_add, Nat.mul_comm 4 m, Nat.mul_assoc, Nat.mul_comm 4]
    · have hpow : 1 ≤ 2 ^ δ := Nat.one_le_two_pow
      calc boundLimit < lower * 1 := by omega
        _ ≤ lower * 2 ^ δ := Nat.mul_le_mul_left _ hpow

private theorem pow_le_of_pointPosition {n j : Nat} (hn : 1 ≤ n)
    (h : (j : Int) < pointPosition n 1) :
    10 ^ j ≤ n := by
  rw [pointPosition, if_pos hn, Nat.div_one] at h
  cases j with
  | zero => exact hn
  | succ j =>
    apply Nat.le_of_not_lt
    intro hlt
    have hlen := (Nat.length_toDigits_le_iff (b := 10) (by decide) (Nat.succ_pos j)).2 hlt
    omega

/-- Eighteen digits of a large number, cut off, stand for more than the limit. -/
private theorem cut_of_large {n : Nat} (h : exactLimit < n) :
    boundLimit * 10 ^ (-(pointPosition n 1 - 18)).toNat <
      (roundingInterval n 1).value * 10 ^ (18 - pointPosition n 1).toNat /
        ((roundingInterval n 1).denominator * 10 ^ (pointPosition n 1 - 18).toNat) *
        10 ^ (pointPosition n 1 - 18).toNat := by
  obtain ⟨hvalue, -, hden⟩ := roundingInterval_of_large h
  have hquot := le_div_of_large h
  have hlog := (lastBitExponent_of_large h).1
  have htwo : 2 ^ 1 ≤ 2 ^ (n.log2 - 52) := Nat.pow_le_pow_right (by decide) (by omega)
  have hlt : n < (n / 2 ^ (n.log2 - 52) + 1) * 2 ^ (n.log2 - 52) := by
    have := Nat.lt_div_mul_add (a := n) (Nat.two_pow_pos (n.log2 - 52))
    rw [Nat.add_mul, Nat.one_mul]
    exact this
  rw [hvalue]
  generalize n / 2 ^ (n.log2 - 52) = m at hquot hlt ⊢
  generalize 2 ^ (n.log2 - 52) = p at htwo hlt ⊢
  generalize (roundingInterval n 1).denominator = d at hden ⊢
  have hmp : 2 ^ 53 ≤ m * p := Nat.mul_le_mul hquot htwo
  rw [Nat.mul_right_comm, Nat.mul_comm (m * p * _) d, Nat.mul_div_mul_left _ _ hden]
  rcases (by omega : pointPosition n 1 ≤ 18 ∨ 18 < pointPosition n 1) with hp | hp
  · have hzero : (pointPosition n 1 - 18).toNat = 0 := by omega
    rw [hzero, Nat.pow_zero, Nat.div_one, Nat.mul_one,
      show -(pointPosition n 1 - 18) = 18 - pointPosition n 1 by omega]
    refine Nat.mul_lt_mul_of_pos_right ?_ (Nat.pow_pos (by decide))
    rw [boundLimit]
    omega
  · obtain ⟨b, hb⟩ : ∃ b : Nat, pointPosition n 1 - 18 = b :=
      ⟨_, (Int.toNat_of_nonneg (by omega)).symm⟩
    have hzero : (18 - pointPosition n 1).toNat = 0 := by omega
    have hneg : (-(b : Int)).toNat = 0 := by omega
    rw [hb, hzero, hneg, Int.toNat_natCast, Nat.pow_zero, Nat.mul_one, Nat.mul_one]
    have hn : 10 ^ (b + 17) ≤ n := pow_le_of_pointPosition (by omega) (by omega)
    have hdiv := Nat.lt_div_mul_add (a := m * p) (Nat.pow_pos (n := b) (by decide : 0 < 10))
    rw [Nat.pow_add] at hn
    have hpow : 1 ≤ 10 ^ b := Nat.one_le_pow _ _ (by decide)
    have hm : p ≤ m * p := Nat.le_mul_of_pos_left p (by omega)
    rw [Nat.add_mul, Nat.one_mul] at hlt
    rw [boundLimit]
    omega

/-- The digits of a large number stand for more than the limit. -/
private theorem shortestFrom_of_large {n k s : Nat} (h : exactLimit < n)
    (hs : shortestFrom (roundingInterval n 1) (pointPosition n 1) 17 1 = (s, k)) :
    boundLimit * 10 ^ (-(pointPosition n 1 - k)).toNat <
      s * 10 ^ (pointPosition n 1 - k).toNat := by
  rcases shortestFrom_cases (roundingInterval n 1) (pointPosition n 1) 17 1 with hc | hc
  · rw [hs] at hc
    obtain ⟨-, hlower, hden⟩ := roundingInterval_of_large h
    have hle := lower_le_of_holds hc
    have hpow : 0 < 10 ^ (-(pointPosition n 1 - k)).toNat := Nat.pow_pos (by decide)
    refine Nat.lt_of_mul_lt_mul_right (a := (roundingInterval n 1).denominator) ?_
    calc boundLimit * 10 ^ (-(pointPosition n 1 - k)).toNat * (roundingInterval n 1).denominator
        = boundLimit * (roundingInterval n 1).denominator *
            10 ^ (-(pointPosition n 1 - k)).toNat := Nat.mul_right_comm _ _ _
      _ < (roundingInterval n 1).lower * 10 ^ (-(pointPosition n 1 - k)).toNat :=
        Nat.mul_lt_mul_of_pos_right hlower hpow
      _ ≤ s * 10 ^ (pointPosition n 1 - k).toNat * (roundingInterval n 1).denominator := hle
  · rw [hs] at hc
    cases hc
    exact cut_of_large h

/-! ## Placing the point -/

open Text

/-- Digits with a point or an exponent behind them are a numeral, and not in decimal. -/
private theorem numeral_of_mark {digits : Text} {c : CodeUnit} (hd : isDecimal digits)
    (hc : c = 0x2E ∨ c = 0x65) (more : Text) :
    IsNumeral True (digits ++ c :: more) ∧ ¬isDecimal (digits ++ c :: more) := by
  refine ⟨.inr ⟨trivial, digits, c, more, rfl, hd, hc⟩, ?_⟩
  intro h
  rw [isDecimal, Bool.and_eq_true, List.all_eq_true] at h
  have hdigit := h.2 c (by simp)
  rcases hc with rfl | rfl <;> exact absurd hdigit (by decide)

private theorem isDecimal_of_forall {d : Text} (hd : ∀ c ∈ d, c.isDigit) (hne : d ≠ []) :
    isDecimal d := by
  rw [isDecimal, Bool.and_eq_true, Bool.not_eq_true', List.isEmpty_eq_false_iff, List.all_eq_true]
  exact ⟨hne, hd⟩

private theorem isDecimal_take {d : Text} (hd : ∀ c ∈ d, c.isDigit) (hne : d ≠ []) {k : Nat}
    (hk : 0 < k) :
    isDecimal (d.take k) := by
  refine isDecimal_of_forall (fun c hc => hd c (List.mem_of_mem_take hc)) ?_
  rw [ne_eq, List.take_eq_nil_iff]
  rintro (h | h)
  · omega
  · exact hne h

/-- Digits with their zeros stand for more than the limit when the digits with their point do. -/
private theorem lt_decimalValue_zeros {d : Text} {t : Int} {z : Nat}
    (h : boundLimit * 10 ^ (-t).toNat < decimalValue d * 10 ^ z * 10 ^ t.toNat)
    (hz : 0 ≤ z + t) :
    boundLimit < decimalValue (d ++ List.replicate (z + t).toNat 0x30) := by
  rw [decimalValue_append_zeros]
  have hpos : 0 < 10 ^ (-t).toNat := Nat.pow_pos (by decide)
  refine Nat.lt_of_mul_lt_mul_right (a := 10 ^ (-t).toNat) (Nat.lt_of_lt_of_eq h ?_)
  rw [Nat.mul_assoc, Nat.mul_assoc, ← Nat.pow_add, ← Nat.pow_add]
  congr 2
  omega

/-- Digits with the point placed are a numeral; without a point and an exponent their value is that
of the digits with their zeros. -/
private theorem placePoint_of_large {d : Text} {t : Int} {z : Nat} (hd : ∀ c ∈ d, c.isDigit)
    (h : boundLimit * 10 ^ (-t).toNat < decimalValue d * 10 ^ z * 10 ^ t.toNat) :
    IsNumeral True (placePoint d (d.length + z + t)) ∧
      (isDecimal (placePoint d (d.length + z + t)) →
        boundLimit < decimalValue (placePoint d (d.length + z + t))) := by
  have hne : d ≠ [] := by
    rintro rfl
    rw [decimalValue_nil, Nat.zero_mul, Nat.zero_mul] at h
    exact absurd h (Nat.not_lt_zero _)
  have hmarked : ∀ {digits : Text} {c : CodeUnit} (more : Text), isDecimal digits →
      (c = 0x2E ∨ c = 0x65) → IsNumeral True (digits ++ c :: more) ∧
        (isDecimal (digits ++ c :: more) → boundLimit < decimalValue (digits ++ c :: more)) :=
    fun more hd hc =>
      ⟨(numeral_of_mark hd hc more).1, fun hdec => absurd hdec (numeral_of_mark hd hc more).2⟩
  unfold placePoint
  dsimp only
  split
  · next hcase =>
    rw [Bool.and_eq_true, decide_eq_true_eq, decide_eq_true_eq] at hcase
    have hzeros : (d.length + z + t - d.length : Int) = z + t := by omega
    rw [hzeros]
    refine ⟨.inl (isDecimal_append (isDecimal_of_forall hd hne) ?_), fun _ =>
      lt_decimalValue_zeros h (by omega)⟩
    intro c hc
    rw [(List.mem_replicate.1 hc).2]
    decide
  split
  · next hcase =>
    rw [Bool.and_eq_true, decide_eq_true_eq, decide_eq_true_eq] at hcase
    rw [List.append_assoc]
    exact hmarked _ (isDecimal_take hd hne (by omega)) (.inl rfl)
  split
  · have hzero : isDecimal [0x30] := by decide
    rw [List.append_assoc]
    exact hmarked _ hzero (.inl rfl)
  · split
    · next hlen =>
      rw [List.append_assoc, List.append_assoc, List.append_assoc]
      exact hmarked _ (isDecimal_take hd hne (by decide)) (.inl rfl)
    · next hlen =>
      have hdrop : d.drop 1 = [] := List.drop_eq_nil_of_le (by omega)
      have htake : isDecimal (d.take 1) := isDecimal_take hd hne (by decide)
      rw [hdrop, show ofString "" = [] from rfl, List.append_nil, List.append_nil,
        List.append_assoc]
      split <;> exact hmarked _ htake (.inr rfl)

/-! ## The text of a large bound -/

/-- A bound beyond the limit is written as a numeral that no repeater takes. -/
theorem toText_of_large {n : Nat} (h : boundLimit < n) :
    IsNumeral True (toText (.int n)) ∧
      (isDecimal (toText (.int n)) → boundLimit < decimalValue (toText (.int n))) := by
  rcases Nat.lt_or_ge exactLimit n with hlarge | hle
  · have htext : toText (.int n) = ratioText n 1 := by
      rw [toText, if_neg (by rw [Int.natAbs_natCast]; omega)]
    have hneg : ¬(n : Int) < 0 := by omega
    rw [htext, ratioText, shortestDigits, Int.natAbs_natCast]
    cases hs : shortestFrom (roundingInterval n 1) (pointPosition n 1) 17 1 with
    | mk s k =>
      have hdigits := shortestFrom_of_large hlarge hs
      obtain ⟨z, hz⟩ := exists_withoutZeros (ofNat s)
      have hvalue : decimalValue (withoutZeros (ofNat s)) * 10 ^ z = s := by
        rw [← decimalValue_append_zeros, ← hz, decimalValue_ofNat]
      have hlen : ((ofNat s).length : Int) = (withoutZeros (ofNat s)).length + z := by
        have := congrArg List.length hz
        rw [List.length_append, List.length_replicate] at this
        omega
      have hd : ∀ c ∈ withoutZeros (ofNat s), c.isDigit := by
        intro c hc
        have hall := isDecimal_ofNat s
        rw [isDecimal, Bool.and_eq_true, List.all_eq_true] at hall
        refine hall.2 c ?_
        rw [hz]
        exact List.mem_append_left _ hc
      rw [← hvalue] at hdigits
      have hplaced := placePoint_of_large hd hdigits
      dsimp only
      rw [if_neg hneg, show ofString "" = [] from rfl, List.nil_append, hlen]
      rw [show pointPosition n 1 + ((withoutZeros (ofNat s)).length + z - k : Int) =
        (withoutZeros (ofNat s)).length + z + (pointPosition n 1 - k) by omega]
      exact hplaced
  · have htext : toText (.int n) = ofNat n := by
      rw [toText_int (by rw [Int.natAbs_natCast]; exact hle)]
      rfl
    rw [htext]
    exact ⟨.inl (isDecimal_ofNat n), fun _ => by rwa [decimalValue_ofNat]⟩

/-- A bound up to the limit is written digit by digit. -/
theorem toText_of_le {n : Nat} (h : n ≤ boundLimit) : toText (.int n) = ofNat n := by
  rw [toText_int (by rw [Int.natAbs_natCast]; exact Nat.le_trans h (by decide))]
  rfl

end TreeMatcher.Number
