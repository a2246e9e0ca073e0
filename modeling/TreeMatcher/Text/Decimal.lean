import TreeMatcher.Text.Basic

/-!
# Integers in decimal

* `Text.ofNat` and `Text.ofInt` write an integer in decimal, without leading zeros.
* `Text.decimalValue` reads a run of digits, leading zeros allowed.
* `Text.isDecimal` holds of the texts that are a non-empty run of digits.

## Main results

* `decimalValue_append` — reading goes from left to right, one power of ten per digit.
-/

namespace TreeMatcher.Text

-- Powers of natural numbers are those of the core library, whatever else is imported.
attribute [local instance (high)] instPowNat

/-- The decimal digits of a natural number. -/
def ofNat (n : Nat) : Text := (Nat.toDigits 10 n).map fun c => c.toNat.toUInt16

/-- An integer in decimal, a minus sign in front of the negative ones. -/
def ofInt : Int → Text
  | .ofNat n => ofNat n
  | .negSucc n => 0x2D :: ofNat (n + 1)

/-- The value of one decimal digit. -/
def digitValue (c : CodeUnit) : Nat := c.toNat - 0x30

/-- The number that a run of decimal digits denotes. -/
def decimalValue (t : Text) : Nat := t.foldl (fun n c => 10 * n + digitValue c) 0

/-- A non-empty run of decimal digits. -/
def isDecimal (t : Text) : Bool := !t.isEmpty && t.all CodeUnit.isDigit

@[simp] theorem decimalValue_nil : decimalValue [] = 0 := rfl

theorem foldl_digits (t : Text) (n : Nat) :
    t.foldl (fun n c => 10 * n + digitValue c) n = n * 10 ^ t.length + decimalValue t := by
  induction t generalizing n with
  | nil => simp
  | cons c t ih =>
    rw [decimalValue, List.foldl_cons, List.foldl_cons, ih, ih (10 * 0 + digitValue c)]
    simp only [List.length_cons, Nat.pow_succ]
    rw [Nat.mul_zero, Nat.zero_add, Nat.add_mul, Nat.add_assoc]
    congr 1
    rw [Nat.mul_comm 10 n, Nat.mul_assoc, Nat.mul_comm 10]

theorem decimalValue_append (s t : Text) :
    decimalValue (s ++ t) = decimalValue s * 10 ^ t.length + decimalValue t := by
  rw [decimalValue, List.foldl_append, foldl_digits]
  rfl

theorem decimalValue_concat (t : Text) (c : CodeUnit) :
    decimalValue (t ++ [c]) = 10 * decimalValue t + digitValue c := by
  simp [decimalValue]

end TreeMatcher.Text
