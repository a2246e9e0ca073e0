import TreeMatcher.Number.Basic
import TreeMatcher.Text.Decimal

/-!
# Decimal text of a number

A number is written with the fewest significant digits that read back as the same number, and of
those digits the ones nearest to it. Magnitudes from `1e-6` up to but not including `1e21` are
written without an exponent.

The search is exact. A finite number is `m · 2 ^ e`; the reals that round to it form an interval
around it that is half a last place wide on each side, a quarter below a power of two, and holds
its ends when `m` is even. For one digit, two digits and so on, the two neighbours of the number on
that decimal grid are tested against the interval.

## Main results

* `toText_int` — integers up to `2 ^ 53` are written digit by digit.
-/

namespace TreeMatcher.Number

-- Powers of natural numbers are those of the core library, whatever else is imported.
attribute [local instance (high)] instPowNat

/-- The significand and the exponent of its last bit, for a positive magnitude `n / d`. -/
def significand (n d : Nat) : Nat × Int :=
  let e := lastBitExponent n d
  (n * 2 ^ (-e).toNat / (d * 2 ^ e.toNat), e)

/-- An interval of positive reals over a common denominator. -/
structure Interval where
  lower : Nat
  value : Nat
  upper : Nat
  denominator : Nat
  closed : Bool

/-- The reals that round to the positive number `n / d`. -/
def roundingInterval (n d : Nat) : Interval :=
  let (m, e) := significand n d
  let below := if m = 2 ^ (52 : Nat) && -1074 < e then 1 else 2
  let up := 2 ^ (e - 2).toNat
  { lower := (4 * m - below) * up
    value := 4 * m * up
    upper := (4 * m + 2) * up
    denominator := 2 ^ (2 - e).toNat
    closed := m % 2 = 0 }

/-- Whether `s · 10 ^ t` lies in the interval. -/
def Interval.holds (i : Interval) (s : Nat) (t : Int) : Bool :=
  let x := s * 10 ^ t.toNat * i.denominator
  let scale := 10 ^ (-t).toNat
  if i.closed then i.lower * scale ≤ x && x ≤ i.upper * scale
  else i.lower * scale < x && x < i.upper * scale

/-- The number of decimal digits in front of the point of `n / d`; zero or negative when the first
digit other than zero stands behind the point. -/
def pointPosition (n d : Nat) : Int :=
  if d ≤ n then ((Nat.toDigits 10 (n / d)).length : Int)
  else leadingZeros 400 n
where
  leadingZeros : Nat → Nat → Int
    | 0, _ => 0
    | fuel + 1, n => if d ≤ 10 * n then 0 else leadingZeros fuel (10 * n) - 1

/-- The neighbour of the value with `k` digits that reads back, the nearer one of two. -/
def neighbour? (i : Interval) (point : Int) (k : Nat) : Option Nat :=
  let t := point - k
  let s := i.value * 10 ^ (-t).toNat / (i.denominator * 10 ^ t.toNat)
  let twice := 2 * i.value * 10 ^ (-t).toNat
  let middle := (2 * s + 1) * i.denominator * 10 ^ t.toNat
  let nearer := if twice < middle || (twice = middle && s % 2 = 0) then s else s + 1
  let farther := if nearer = s then s + 1 else s
  if i.holds nearer t then some nearer
  else if i.holds farther t then some farther
  else none

/-- The fewest digits that read back, tried from `k` digits on. -/
def shortestFrom (i : Interval) (point : Int) : Nat → Nat → Nat × Nat
  | 0, k => (i.value * 10 ^ (k - point).toNat / (i.denominator * 10 ^ (point - k).toNat), k)
  | fuel + 1, k =>
    match neighbour? i point k with
    | some s => (s, k)
    | none => shortestFrom i point fuel (k + 1)

/-- The shortest digits of a positive number and the position of its decimal point among them. -/
def shortestDigits (n d : Nat) : Text × Int :=
  let point := pointPosition n d
  let (s, k) := shortestFrom (roundingInterval n d) point 17 1
  let digits := Text.ofNat s
  (digits.reverse.dropWhile (· == 0x30) |>.reverse, point + (digits.length - k : Int))

/-- Positional notation ends where the point lies more than this many places to the right. -/
def positionalPlaces : Int := 21

/-- Digits with a decimal point after `point` of them, as positional or exponential notation. -/
def placePoint (digits : Text) (point : Int) : Text :=
  let k : Int := digits.length
  if k ≤ point && point ≤ positionalPlaces then
    digits ++ List.replicate (point - k).toNat 0x30
  else if 0 < point && point ≤ positionalPlaces then
    digits.take point.toNat ++ "." ++ digits.drop point.toNat
  else if -6 < point && point ≤ 0 then
    ("0." : Text) ++ List.replicate (-point).toNat 0x30 ++ digits
  else
    let exponent := point - 1
    let mark : Text := if exponent < 0 then "e-" else "e+"
    let point : Text := if 1 < digits.length then "." else ""
    digits.take 1 ++ point ++ digits.drop 1 ++ mark ++ Text.ofNat exponent.natAbs

/-- The text of a finite number with numerator `n` and denominator `d`. -/
def ratioText (n : Int) (d : Nat) : Text :=
  let (digits, point) := shortestDigits n.natAbs d
  let sign : Text := if n < 0 then "-" else ""
  sign ++ placePoint digits point

/-- The decimal text of a number. -/
def toText : Number → Text
  | .nan => "NaN"
  | .infinity => "Infinity"
  | .negInfinity => "-Infinity"
  | .int n => if n.natAbs ≤ exactLimit then Text.ofInt n else ratioText n 1
  | .fraction n k => ratioText n (2 ^ (k + 1))

theorem toText_int {n : Int} (h : n.natAbs ≤ exactLimit) : toText (.int n) = Text.ofInt n := by
  simp [toText, h]

end TreeMatcher.Number
