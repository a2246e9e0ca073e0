import TreeMatcher.Text.CodePoint

/-!
# Quoted strings of JSON

A string is quoted with short escapes where JSON has one, with `\uXXXX` for the other control units
and for surrogates without a partner, and unit by unit otherwise.

* `Json.quote t` — the quoted string.
-/

namespace TreeMatcher.Json

/-- The escape of a unit by its four hexadecimal digits. -/
def hexEscape (c : CodeUnit) : Text :=
  let n := c.toNat
  [CodeUnit.backslash, 0x75, CodeUnit.ofHexDigit (n / 0x1000), CodeUnit.ofHexDigit (n / 0x100 % 16),
   CodeUnit.ofHexDigit (n / 16 % 16), CodeUnit.ofHexDigit (n % 16)]

/-- A unit inside a quoted string, unless it is a surrogate. -/
def quoteUnit (c : CodeUnit) : Text :=
  if c = CodeUnit.doubleQuote then "\\\""
  else if c = CodeUnit.backslash then "\\\\"
  else if c = 0x08 then "\\b"
  else if c = 0x0C then "\\f"
  else if c = 0x0A then "\\n"
  else if c = 0x0D then "\\r"
  else if c = 0x09 then "\\t"
  else if c < 0x20 then hexEscape c
  else [c]

/-- The inside of a quoted string. -/
def quoteBody : Text → Text
  | [] => []
  | [c] => if c.isHighSurrogate || c.isLowSurrogate then hexEscape c else quoteUnit c
  | c :: d :: rest =>
    if c.isHighSurrogate && d.isLowSurrogate then c :: d :: quoteBody rest
    else if c.isHighSurrogate || c.isLowSurrogate then hexEscape c ++ quoteBody (d :: rest)
    else quoteUnit c ++ quoteBody (d :: rest)

/-- A text as a quoted string. -/
def quote (t : Text) : Text := "\"" ++ quoteBody t ++ "\""

end TreeMatcher.Json
