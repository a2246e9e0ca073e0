import TreeMatcher.Text.Basic

/-!
# Code points of a text

A surrogate pair is read as one code point. A surrogate without its partner stands for itself; no
character has its number, so it belongs to no class of characters.
-/

namespace TreeMatcher.Text

/-- The code point of a surrogate pair. -/
def joinSurrogates (high low : CodeUnit) : Nat :=
  0x10000 + (high.toNat - 0xD800) * 0x400 + (low.toNat - 0xDC00)

/-- The code points of a text, in order. -/
def codePoints : Text → List Nat
  | [] => []
  | [c] => [c.toNat]
  | c :: d :: rest =>
    if c.isHighSurrogate && d.isLowSurrogate then joinSurrogates c d :: codePoints rest
    else c.toNat :: codePoints (d :: rest)

/-- Whether a text holds a surrogate without its partner. -/
def hasLoneSurrogate (t : Text) : Bool :=
  (codePoints t).any fun c => 0xD800 ≤ c && c ≤ 0xDFFF

/-- The unit that stands for what cannot be encoded. -/
def replacement : CodeUnit := 0xFFFD

/-- A text as it comes back from an encoding that knows no lone surrogates: each of them is
replaced. -/
def replaceLoneSurrogates : Text → Text
  | [] => []
  | [c] => if c.isHighSurrogate || c.isLowSurrogate then [replacement] else [c]
  | c :: d :: rest =>
    if c.isHighSurrogate && d.isLowSurrogate then c :: d :: replaceLoneSurrogates rest
    else if c.isHighSurrogate || c.isLowSurrogate then
      replacement :: replaceLoneSurrogates (d :: rest)
    else c :: replaceLoneSurrogates (d :: rest)

end TreeMatcher.Text
