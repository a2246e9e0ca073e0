import TreeMatcher.Number.Basic
import TreeMatcher.Text.Decimal

/-!
# Reading decimals

A decimal is an optional minus sign, an integer part without superfluous zeros, an optional
fraction and an optional exponent. Its value is rounded once to the nearest number.

* `Decimal.scan` reads a decimal at the beginning of a text and gives the rest.
* `Number.ofDecimal?` reads a text that is a decimal as a whole.
-/

namespace TreeMatcher

/-- A decimal: the value is `± mantissa · 10 ^ exponent`. -/
structure Decimal where
  negative : Bool
  mantissa : Nat
  exponent : Int
deriving DecidableEq, Repr

namespace Decimal

-- Powers of natural numbers are those of the core library, whatever else is imported.
attribute [local instance (high)] instPowNat

/-- Magnitudes whose first digit stands more than this many places off the point are beyond the
range of numbers on either side. -/
def rangeLimit : Int := 400

/-- The number nearest to a decimal. -/
def toNumber (x : Decimal) : Number :=
  let magnitude : Int := x.exponent + (Nat.toDigits 10 x.mantissa).length
  if x.mantissa = 0 then .int 0
  else if rangeLimit < magnitude then if x.negative then .negInfinity else .infinity
  else if magnitude < -rangeLimit then .int 0
  else
    Number.ofRatio x.negative (x.mantissa * 10 ^ x.exponent.toNat) (10 ^ (-x.exponent).toNat)

/-- Splits off the leading digits. -/
def spanDigits (t : Text) : Text × Text := t.span CodeUnit.isDigit

/-- The integer part: a zero alone, or digits that do not begin with one. -/
def scanInteger : Text → Option (Text × Text)
  | [] => none
  | c :: rest =>
    if c == 0x30 then some ([c], rest)
    else if c.isDigit then some (spanDigits (c :: rest))
    else none

/-- A point and the digits behind it, if a point follows. -/
def scanFraction : Text → Option (Text × Text)
  | [] => some ([], [])
  | c :: rest =>
    if c == 0x2E then
      match spanDigits rest with
      | ([], _) => none
      | digits => some digits
    else some ([], c :: rest)

/-- An optional sign; whether it is a minus. -/
def scanSign : Text → Bool × Text
  | [] => (false, [])
  | c :: rest =>
    if c == 0x2D then (true, rest) else if c == 0x2B then (false, rest) else (false, c :: rest)

/-- The exponent behind an `e` or `E`, if one follows. -/
def scanExponent : Text → Option (Int × Text)
  | [] => some (0, [])
  | c :: rest =>
    if c == 0x65 || c == 0x45 then
      let (negative, rest) := scanSign rest
      match spanDigits rest with
      | ([], _) => none
      | (digits, rest) => some (Number.signed negative (Text.decimalValue digits), rest)
    else some (0, c :: rest)

/-- A decimal at the beginning of a text, and the rest. -/
def scan (t : Text) : Option (Decimal × Text) := do
  let negative := t.head? == some 0x2D
  let (whole, rest) ← scanInteger (if negative then t.drop 1 else t)
  let (places, rest) ← scanFraction rest
  let (exponent, rest) ← scanExponent rest
  pure ({ negative := negative
          mantissa := Text.decimalValue (whole ++ places)
          exponent := exponent - places.length }, rest)

end Decimal

/-- The number that a decimal text denotes. -/
def Number.ofDecimal? (t : Text) : Option Number :=
  match Decimal.scan t with
  | some (x, []) => some x.toNumber
  | _ => none

end TreeMatcher
