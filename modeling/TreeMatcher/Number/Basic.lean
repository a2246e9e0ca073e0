/-!
# Numbers of binary64 precision

Repeat bounds are binary64 numbers, and so are the places and kinds in trees and matchers built by
hand. Nothing tells the two zeros apart. A number is therefore one of: not a number, one of the two
infinities, an exact integer, or a fraction whose denominator is a power of two. Integers have a
constructor of their own: bounds written in a pattern are integers, and their products are exact as
long as they stay within `2 ^ 53`.

* `Number.ofRatio` rounds an exact quotient to the nearest number, ties to the even significand.
* `Number.mul` is the rounded product; `Number.mulMax` is the product in which zero wins over
  infinity.
* `Number.le` and `Number.lt` compare; nothing is comparable with `nan`.

## Main results

* `ofInt_of_natAbs_le` — integers up to `2 ^ 53` are not rounded.
* `mul_int`, `mulMax_int` — their products are exact.
-/

namespace TreeMatcher

/-- A binary64 value. `fraction n k` is `n / 2 ^ (k + 1)` with `n` odd. -/
inductive Number where
  | nan
  | negInfinity
  | infinity
  | int (n : Int)
  | fraction (numerator : Int) (scale : Nat)
deriving DecidableEq, Repr, Inhabited

namespace Number

-- Powers of natural numbers are those of the core library, whatever else is imported.
attribute [local instance (high)] instPowNat

instance (n : Nat) : OfNat Number n := ⟨.int n⟩

/-! ## Rounding -/

/-- The integer nearest to `n / d`, of two equally near ones the even one. -/
def roundQuotient (n d : Nat) : Nat :=
  let q := n / d
  let r := n % d
  if 2 * r < d then q
  else if d < 2 * r then q + 1
  else if q % 2 = 0 then q
  else q + 1

/-- The greatest `e` with `2 ^ e ≤ n / d`, for positive `n` and `d`. -/
def binaryExponent (n d : Nat) : Int :=
  let e : Int := (n.log2 : Int) - d.log2
  if d * 2 ^ e.toNat ≤ n * 2 ^ (-e).toNat then e else e - 1

/-- Exponent of the last significand bit of a number next to `n / d`; subnormal numbers share the
smallest one. -/
def lastBitExponent (n d : Nat) : Int := max (binaryExponent n d - 52) (-1074)

/-- The fraction `n / 2 ^ k` in lowest terms. -/
def ofDyadic (n : Int) : Nat → Number
  | 0 => .int n
  | k + 1 => if n % 2 = 0 then ofDyadic (n / 2) k else .fraction n k

/-- A magnitude with a sign in front. -/
def signed (negative : Bool) (n : Nat) : Int := if negative then -n else n

/-- The number nearest to `n / d`, negated on request. From `2 ^ 1024` on it is an infinity. -/
def ofRatio (negative : Bool) (n d : Nat) : Number :=
  if n = 0 then .int 0
  else
    let e := lastBitExponent n d
    let m := roundQuotient (n * 2 ^ (-e).toNat) (d * 2 ^ e.toNat)
    if 2 ^ (1024 : Nat) ≤ m * 2 ^ e.toNat then if negative then .negInfinity else .infinity
    else ofDyadic (signed negative (m * 2 ^ e.toNat)) (-e).toNat

/-- The largest integer up to which every integer is a number. -/
def exactLimit : Nat := 2 ^ (53 : Nat)

/-- The number nearest to an integer. -/
def ofInt (n : Int) : Number :=
  if n.natAbs ≤ exactLimit then .int n else ofRatio (n < 0) n.natAbs 1

theorem ofInt_of_natAbs_le {n : Int} (h : n.natAbs ≤ exactLimit) : ofInt n = .int n := by
  simp [ofInt, h]

/-! ## Parts of a finite number -/

/-- Whether a number is an integer and not negative. -/
def isNat : Number → Bool
  | .int n => 0 ≤ n
  | _ => false

/-- Numerator and denominator of a finite number. -/
def ratio? : Number → Option (Int × Nat)
  | .int n => some (n, 1)
  | .fraction n k => some (n, 2 ^ (k + 1))
  | _ => none

/-- Whether a number lies below zero. -/
def isNegative : Number → Bool
  | .negInfinity => true
  | .int n => n < 0
  | .fraction n _ => n < 0
  | _ => false

/-! ## Order -/

/-- Strictly less. -/
def lt : Number → Number → Bool
  | .nan, _ => false
  | _, .nan => false
  | _, .negInfinity => false
  | .negInfinity, _ => true
  | .infinity, _ => false
  | _, .infinity => true
  | a, b =>
    match a.ratio?, b.ratio? with
    | some (m, c), some (n, d) => m * d < n * c
    | _, _ => false

/-- Less or equal; `nan` is not even equal to itself. -/
def le (a b : Number) : Bool := a != .nan && (a == b || a.lt b)

@[simp] theorem lt_int (m n : Int) : lt (.int m) (.int n) = decide (m < n) := by
  simp [lt, ratio?]

@[simp] theorem le_int (m n : Int) : le (.int m) (.int n) = decide (m ≤ n) := by
  rw [le, lt_int, Bool.eq_iff_iff]
  simp
  omega

/-! ## Products -/

/-- The product, rounded once. Zero times an infinity is not a number. -/
def mul : Number → Number → Number
  | .nan, _ => .nan
  | _, .nan => .nan
  | .int m, .int n => ofInt (m * n)
  | a, b =>
    match a.ratio?, b.ratio? with
    | some (m, c), some (n, d) => ofRatio (m * n < 0) (m * n).natAbs (c * d)
    | _, _ =>
      if a = .int 0 || b = .int 0 then .nan
      else if a.isNegative == b.isNegative then .infinity
      else .negInfinity

/-- The product of two upper bounds: zero repetitions win over unboundedly many. -/
def mulMax (a b : Number) : Number :=
  if a = .int 0 || b = .int 0 then .int 0 else mul a b

@[simp] theorem mul_int_int (m n : Int) : mul (.int m) (.int n) = ofInt (m * n) := by
  simp [mul]

theorem mul_int {m n : Int} (h : (m * n).natAbs ≤ exactLimit) :
    mul (.int m) (.int n) = .int (m * n) := by
  rw [mul_int_int, ofInt_of_natAbs_le h]

theorem mulMax_int {m n : Int} (h : (m * n).natAbs ≤ exactLimit) :
    mulMax (.int m) (.int n) = .int (m * n) := by
  unfold mulMax
  split
  · next hz =>
    simp only [int.injEq, Bool.or_eq_true, decide_eq_true_eq] at hz
    rcases hz with rfl | rfl <;> simp
  · exact mul_int h

end Number

end TreeMatcher
