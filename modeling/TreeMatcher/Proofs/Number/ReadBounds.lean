import TreeMatcher.Proofs.Number.Bounds
import TreeMatcher.Proofs.Number.Digits

/-!
# Bounds that are rounded before they are checked

The digits of a repeat bound can be compared with the largest bound, or they can be read as a number
and the number be checked. Reading rounds, so the number of a long run of digits is not the integer
that they denote; beyond the range of numbers it is infinite, and digits behind the first ones may
be left out of it. The check asks for a safe integer, one to which no other integer is rounded. That
is enough: rounding keeps the order, `2 ^ 53` is a number itself, and so an integer beyond the
largest bound is read as `2 ^ 53` or more, never as a safe integer. Leading zeros change nothing.

* `Text.keepDigits n t` — a run of digits with zeros behind its first `n` significant ones.
* `Number.ofDigits n t` — the number as which such a run is read.
* `readBound n t` — the bound of a leaf, read as a number that is checked.

## Main results

* `Number.isSafeInteger_ofInt_iff` — an integer is read as a safe one exactly up to the limit.
* `Text.keepDigits_cases` — sixteen significant digits tell the bounds from what is too large.
* `readBound_exact_or_refused` — a bound is read exactly, or it is refused at its place.
-/

namespace TreeMatcher

/-! ## Reading digits as a number -/

/-- A run of digits in which those behind the `n`-th significant one are replaced by zeros. -/
def Text.keepDigits (n : Nat) (t : Text) : Text :=
  let digits := t.dropWhile (· == 0x30)
  t.takeWhile (· == 0x30) ++ (digits.take n ++ List.replicate (digits.length - n) 0x30)

/-- The number nearest to the integer that a run of digits denotes. Only the first `n` significant
digits need to be taken into account. -/
def Number.ofDigits (n : Nat) (t : Text) : Number := ofInt (t.keepDigits n).decimalValue

/-- Whether a number is an integer to which no other integer is rounded. -/
def Number.isSafeInteger : Number → Bool
  | .int n => n.natAbs ≤ boundLimit
  | _ => false

/-- The number that a leaf stands for as a repeat bound, if it is a safe integer. -/
def readBound (n : Nat) : Tree → Except CompileError Number
  | .leaf l =>
    if l.label = .token .number then
      if l.value.isDecimal then
        if (Number.ofDigits n l.value).isSafeInteger then .ok (Number.ofDigits n l.value)
        else .error (.pattern (l.error (.boundTooLarge l.value)))
      else .error (.shape (.malformedBound l.value))
    else .error (.shape .boundNotNumber)
  | .branch .. => .error (.shape .boundNotNumber)

/-! ## Safe integers -/

namespace Number

private theorem ofInt_of_le_boundLimit {m : Nat} (h : m ≤ boundLimit) : ofInt m = .int m :=
  ofInt_of_natAbs_le (Nat.le_trans h (by decide))

/-- An integer beyond the limit is rounded to one beyond the limit, or to infinity. -/
theorem isSafeInteger_ofInt_iff (m : Nat) : (ofInt m).isSafeInteger ↔ m ≤ boundLimit := by
  constructor
  · intro h
    rcases ofInt_natCast m with hinf | ⟨k, hk, hexact, hlarge⟩
    · rw [hinf] at h
      cases h
    · rw [hk, isSafeInteger, decide_eq_true_eq, Int.natAbs_natCast] at h
      rcases Nat.lt_or_ge exactLimit m with hlt | hle
      · exact absurd (Nat.le_trans (hlarge hlt) h) (by decide)
      · rwa [← hexact hle]
  · intro h
    rw [ofInt_of_le_boundLimit h, isSafeInteger, decide_eq_true_eq, Int.natAbs_natCast]
    exact h

end Number

/-! ## Significant digits -/

namespace Text

variable {t : Text} {n : Nat}

private theorem decimalValue_cons (c : CodeUnit) (t : Text) :
    decimalValue (c :: t) = digitValue c * 10 ^ t.length + decimalValue t := by
  have happend := decimalValue_append [c] t
  rwa [show decimalValue [c] = digitValue c from Nat.zero_add _] at happend

/-- Zeros in front of a run of digits do not count. -/
private theorem decimalValue_takeWhile_append (t u : Text) :
    decimalValue (t.takeWhile (· == 0x30) ++ u) = decimalValue u := by
  have hzeros : ∀ c ∈ t.takeWhile (· == 0x30), c = 0x30 := fun c hc =>
    eq_of_beq (List.all_eq_true.1 List.all_takeWhile c hc)
  rw [List.eq_replicate_of_mem hzeros, decimalValue_append, decimalValue_replicate, Nat.zero_mul,
    Nat.zero_add]

private theorem digitValue_pos {c : CodeUnit} (hd : c.isDigit) (hc : c ≠ 0x30) :
    0 < digitValue c := by
  rw [CodeUnit.isDigit, Bool.and_eq_true, decide_eq_true_eq, UInt16.le_iff_toNat_le] at hd
  have hne : c.toNat ≠ (0x30 : CodeUnit).toNat := fun h => hc (UInt16.toNat_inj.1 h)
  exact Nat.sub_pos_of_lt (Nat.lt_of_le_of_ne hd.1 hne.symm)

/-- A run of digits that does not begin with a zero denotes at least a power of ten. -/
private theorem pow_le_decimalValue {c : CodeUnit} (hd : c.isDigit) (hc : c ≠ 0x30) (t : Text) :
    10 ^ t.length ≤ decimalValue (c :: t) := by
  calc 10 ^ t.length = 1 * 10 ^ t.length := (Nat.one_mul _).symm
    _ ≤ digitValue c * 10 ^ t.length := Nat.mul_le_mul_right _ (digitValue_pos hd hc)
    _ ≤ decimalValue (c :: t) := by
      rw [decimalValue_cons]
      exact Nat.le_add_right _ _

/-- Seventeen digits of which the first is no zero denote more than the largest bound. -/
private theorem boundLimit_lt_decimalValue {c : CodeUnit} (hd : c.isDigit) (hc : c ≠ 0x30)
    {t : Text} (ht : 16 ≤ t.length) : boundLimit < decimalValue (c :: t) := by
  calc boundLimit < 10 ^ 16 := by decide
    _ ≤ 10 ^ t.length := Nat.pow_le_pow_right (by decide) ht
    _ ≤ decimalValue (c :: t) := pow_le_decimalValue hd hc t

/-- Sixteen significant digits tell the bounds from what is too large: a run of digits is kept as it
is, or it denotes more than the largest bound, whether its last digits are kept or not. -/
theorem keepDigits_cases (hn : 16 ≤ n) (hd : ∀ c ∈ t, c.isDigit) :
    t.keepDigits n = t ∨
      boundLimit < decimalValue t ∧ boundLimit < decimalValue (t.keepDigits n) := by
  have hsplit := List.takeWhile_append_dropWhile (p := (· == 0x30)) (l := t)
  rw [keepDigits]
  rcases Nat.lt_or_ge n (t.dropWhile (· == 0x30)).length with hlt | hle
  · -- More than sixteen digits follow the zeros, and the first of them is kept and is no zero.
    right
    have hpos : 0 < (t.dropWhile (· == 0x30)).length := Nat.zero_lt_of_lt hlt
    obtain ⟨c, rest, hcons⟩ := List.exists_cons_of_length_pos hpos
    have hc : c ≠ 0x30 := by
      have hfirst := List.head?_dropWhile_not (· == (0x30 : CodeUnit)) t
      rw [hcons] at hfirst
      simpa using hfirst
    have hdigit : c.isDigit := by
      apply hd
      rw [← hsplit, hcons]
      exact List.mem_append_right _ List.mem_cons_self
    have hvalue : decimalValue t = decimalValue (c :: rest) := by
      rw [← hcons, ← decimalValue_takeWhile_append t (t.dropWhile (· == 0x30)), hsplit]
    obtain ⟨m, rfl⟩ : ∃ m, n = m + 1 := ⟨n - 1, by omega⟩
    rw [hcons, List.length_cons] at hlt
    rw [hvalue, decimalValue_takeWhile_append, hcons, List.take_succ_cons, List.cons_append]
    refine ⟨boundLimit_lt_decimalValue hdigit hc (by omega),
      boundLimit_lt_decimalValue hdigit hc ?_⟩
    rw [List.length_append, List.length_take, List.length_replicate, List.length_cons]
    omega
  · left
    rw [List.take_of_length_le hle, Nat.sub_eq_zero_of_le hle, List.replicate_zero,
      List.append_nil, hsplit]

end Text

/-- Reading a run of digits gives a safe integer exactly when the digits denote one, and then this
one. -/
private theorem Number.ofDigits_cases {n : Nat} (hn : 16 ≤ n) {t : Text} (ht : t.isDecimal) :
    t.decimalValue ≤ boundLimit ∧ ofDigits n t = .int t.decimalValue ∧
        (ofDigits n t).isSafeInteger ∨
      boundLimit < t.decimalValue ∧ ¬(ofDigits n t).isSafeInteger := by
  have hdigits : ∀ c ∈ t, c.isDigit := by
    rw [Text.isDecimal, Bool.and_eq_true, List.all_eq_true] at ht
    exact ht.2
  rw [ofDigits, isSafeInteger_ofInt_iff]
  rcases Nat.lt_or_ge boundLimit t.decimalValue with hlarge | hsmall
  · right
    refine ⟨hlarge, Nat.not_le.2 ?_⟩
    rcases Text.keepDigits_cases hn hdigits with hkept | ⟨-, hlarge'⟩
    · rwa [hkept]
    · exact hlarge'
  · left
    rcases Text.keepDigits_cases hn hdigits with hkept | ⟨hlarge, -⟩
    · rw [hkept]
      exact ⟨hsmall, ofInt_of_le_boundLimit hsmall, hsmall⟩
    · exact absurd hlarge (Nat.not_lt.2 hsmall)

/-! ## The bound of a leaf -/

section

variable {n : Nat} {l : Leaf}

/-- What a number leaf is read as: its integer, a refusal at its place, or no bound at all. -/
private theorem readBound_cases (hn : 16 ≤ n) (hk : l.label = .token .number) :
    l.value.isDecimal ∧ l.value.decimalValue ≤ boundLimit ∧
        readBound n (.leaf l) = .ok (.int l.value.decimalValue) ∨
      l.value.isDecimal ∧ boundLimit < l.value.decimalValue ∧
        readBound n (.leaf l) = .error (.pattern (l.error (.boundTooLarge l.value))) ∨
      ¬l.value.isDecimal ∧
        readBound n (.leaf l) = .error (.shape (.malformedBound l.value)) := by
  rw [readBound, if_pos hk]
  by_cases ht : l.value.isDecimal
  · rw [if_pos ht]
    rcases Number.ofDigits_cases hn ht with ⟨hle, hvalue, hsafe⟩ | ⟨hlt, hunsafe⟩
    · exact .inl ⟨ht, hle, by rw [if_pos hsafe, hvalue]⟩
    · exact .inr (.inl ⟨ht, hlt, if_neg hunsafe⟩)
  · exact .inr (.inr ⟨ht, if_neg ht⟩)

/-- A bound that is read as a number and checked is the bound whose digits are compared. -/
private theorem readBound_eq_map (hn : 16 ≤ n) (tree : Tree) :
    readBound n tree = (boundOf tree).map fun m => .int m := by
  cases tree with
  | branch k ts => rfl
  | leaf l =>
    rw [boundOf]
    by_cases hk : l.label = .token .number
    · rw [if_pos hk]
      rcases readBound_cases hn hk with ⟨ht, hle, h⟩ | ⟨ht, hlt, h⟩ | ⟨ht, h⟩
      · rw [h, if_pos ht, if_pos hle]
        rfl
      · rw [h, if_pos ht, if_neg (Nat.not_le.2 hlt)]
        rfl
      · rw [h, if_neg ht]
        rfl
    · rw [readBound, if_neg hk, if_neg hk]
      rfl

/-- Whatever the length and the leading zeros of a run of digits, and whether or not the digits
behind the sixteenth significant one are taken into account, rounding and checking the number
afterwards gives what the digits say. The bound is the integer that they denote up to the largest
bound; beyond it the bound is refused with the line and the column of its leaf, also where the
integer is rounded. No text but a run of digits is read as a bound or found too large. -/
theorem readBound_exact_or_refused (hn : 16 ≤ n) (hk : l.label = .token .number) :
    (∀ x, readBound n (.leaf l) = .ok x ↔
        l.value.isDecimal ∧ l.value.decimalValue ≤ boundLimit ∧ x = .int l.value.decimalValue) ∧
      (∀ e, readBound n (.leaf l) = .error (.pattern e) ↔
        l.value.isDecimal ∧ boundLimit < l.value.decimalValue ∧
          e = ⟨.boundTooLarge l.value, some l.line, some l.column⟩) ∧
      readBound n (.leaf l) = (boundOf (.leaf l)).map fun m => .int m := by
  refine ⟨?_, ?_, readBound_eq_map hn (.leaf l)⟩
  · intro x
    rcases readBound_cases hn hk with ⟨ht, hle, h⟩ | ⟨-, hlt, h⟩ | ⟨ht, h⟩
    · rw [h]
      constructor
      · intro hx
        exact ⟨ht, hle, (Except.ok.inj hx).symm⟩
      · intro hx
        rw [hx.2.2]
    · rw [h]
      exact iff_of_false nofun fun hx => Nat.not_le.2 hlt hx.2.1
    · rw [h]
      exact iff_of_false nofun fun hx => ht hx.1
  · intro e
    rcases readBound_cases hn hk with ⟨-, hle, h⟩ | ⟨ht, hlt, h⟩ | ⟨ht, h⟩
    · rw [h]
      exact iff_of_false nofun fun he => Nat.not_lt.2 hle he.2.1
    · rw [h]
      constructor
      · intro he
        exact ⟨ht, hlt, (CompileError.pattern.inj (Except.error.inj he)).symm⟩
      · intro he
        rw [he.2.2]
        rfl
    · rw [h]
      exact iff_of_false nofun fun he => ht he.1

end

/-- The largest bound behind leading zeros; two more than it, which is rounded; and a run of digits
of which the last ones are left out. -/
theorem readBound_exact_or_refused_leadingZeros :
    let largest : Leaf := ⟨.token .number, "00000000009007199254740991", 2, 7, 30⟩
    let rounded : Leaf := ⟨.token .number, "00000000009007199254740993", 2, 7, 30⟩
    let long : Leaf := ⟨.token .number, "9007199254740991000000000", 3, 9, 60⟩
    (∀ x, readBound 20 (.leaf largest) = .ok x ↔ x = .int 9007199254740991) ∧
      Number.ofDigits 20 rounded.value = .int 9007199254740992 ∧
      readBound 20 (.leaf rounded) =
        .error (.pattern ⟨.boundTooLarge rounded.value, some 2, some 7⟩) ∧
      readBound 20 (.leaf long) =
        .error (.pattern ⟨.boundTooLarge long.value, some 3, some 9⟩) := by
  intro largest rounded long
  have hn : 16 ≤ 20 := by decide
  have hlargest : largest.value.isDecimal ∧ largest.value.decimalValue ≤ boundLimit := by decide
  have hrounded : rounded.value.isDecimal ∧ boundLimit < rounded.value.decimalValue := by decide
  have hlong : long.value.isDecimal ∧ boundLimit < long.value.decimalValue := by decide
  refine ⟨?_, by decide +kernel, ?_, ?_⟩
  · intro x
    rw [(readBound_exact_or_refused (l := largest) hn rfl).1 x]
    constructor
    · intro h
      exact h.2.2
    · intro h
      exact ⟨hlargest.1, hlargest.2, h⟩
  · exact ((readBound_exact_or_refused hn rfl).2.1 _).2 ⟨hrounded.1, hrounded.2, rfl⟩
  · exact ((readBound_exact_or_refused hn rfl).2.1 _).2 ⟨hlong.1, hlong.2, rfl⟩

end TreeMatcher
