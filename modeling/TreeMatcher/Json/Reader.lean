import TreeMatcher.Json.Basic
import TreeMatcher.Number.Decimal

/-!
# Reading JSON

The strict format: nothing but one value, with blanks around it and between its parts. Control units
must be escaped in strings; an escape may also name half of a surrogate pair. A value takes at least
one unit, so the length of the text bounds the recursion.

* `Json.ofText? t` — the value that a text denotes.
-/

namespace TreeMatcher.Json

/-- Blanks of JSON: space, tab, line feed and carriage return. -/
def isSpace (c : CodeUnit) : Bool := c == 0x20 || c == 0x09 || c == 0x0A || c == 0x0D

/-- A text without the blanks in front. -/
def skipSpace (t : Text) : Text := t.dropWhile isSpace

/-- The rest of a text behind a given unit, blanks in front of it skipped. -/
def expect (c : CodeUnit) (t : Text) : Option Text :=
  match skipSpace t with
  | [] => none
  | d :: rest => if d = c then some rest else none

/-- The rest of a text behind a given word. -/
def expectWord (word t : Text) : Option Text :=
  if t.take word.length = word then some (t.drop word.length) else none

/-! ## Strings -/

/-- What a backslash and one more unit stand for. -/
def simpleEscape? (c : CodeUnit) : Option CodeUnit :=
  if c = 0x22 || c = 0x5C || c = 0x2F then some c
  else if c = 0x62 then some 0x08
  else if c = 0x66 then some 0x0C
  else if c = 0x6E then some 0x0A
  else if c = 0x72 then some 0x0D
  else if c = 0x74 then some 0x09
  else none

/-- The unit that four hexadecimal digits name. -/
def unitOfHex? (a b c d : CodeUnit) : Option CodeUnit := do
  let a ← a.hexDigitValue?
  let b ← b.hexDigitValue?
  let c ← c.hexDigitValue?
  let d ← d.hexDigitValue?
  pure (((a * 16 + b) * 16 + c) * 16 + d).toUInt16

/-- The rest of a string behind its opening quote mark, and what stands behind it. -/
def readString : Text → Option (Text × Text)
  | [] => none
  | c :: rest =>
    if c = CodeUnit.doubleQuote then some ([], rest)
    else if c < 0x20 then none
    else if c = CodeUnit.backslash then
      match rest with
      | 0x75 :: a :: b :: d :: e :: rest =>
        match unitOfHex? a b d e with
        | some u => (readString rest).map fun (t, rest) => (u :: t, rest)
        | none => none
      | e :: rest =>
        match simpleEscape? e with
        | some u => (readString rest).map fun (t, rest) => (u :: t, rest)
        | none => none
      | [] => none
    else (readString rest).map fun (t, rest) => (c :: t, rest)

/-! ## Values -/

mutual

/-- A value at the beginning of a text, and the rest. -/
def readValue : Nat → Text → Option (Json × Text)
  | 0, _ => none
  | fuel + 1, t =>
    match skipSpace t with
    | [] => none
    | c :: rest =>
      if c = 0x22 then (readString rest).map fun (t, rest) => (string t, rest)
      else if c = 0x7B then
        match expect 0x7D rest with
        | some rest => some (object [], rest)
        | none => (readEntries fuel rest).map fun (es, rest) => (object es, rest)
      else if c = 0x5B then
        match expect 0x5D rest with
        | some rest => some (array [], rest)
        | none => (readItems fuel rest).map fun (xs, rest) => (array xs, rest)
      else if c = 0x74 then (expectWord "true" (c :: rest)).map fun rest => (bool true, rest)
      else if c = 0x66 then (expectWord "false" (c :: rest)).map fun rest => (bool false, rest)
      else if c = 0x6E then (expectWord "null" (c :: rest)).map fun rest => (null, rest)
      else (Decimal.scan (c :: rest)).map fun (x, rest) => (number x.toNumber, rest)

/-- One item or several, up to the closing bracket. -/
def readItems : Nat → Text → Option (List Json × Text)
  | 0, _ => none
  | fuel + 1, t => do
    let (x, rest) ← readValue fuel t
    match expect 0x2C rest with
    | some rest => do
      let (xs, rest) ← readItems fuel rest
      pure (x :: xs, rest)
    | none => do
      let rest ← expect 0x5D rest
      pure ([x], rest)

/-- One entry or several, up to the closing brace. -/
def readEntries : Nat → Text → Option (List (Text × Json) × Text)
  | 0, _ => none
  | fuel + 1, t => do
    let rest ← expect 0x22 t
    let (key, rest) ← readString rest
    let rest ← expect 0x3A rest
    let (x, rest) ← readValue fuel rest
    match expect 0x2C rest with
    | some rest => do
      let (es, rest) ← readEntries fuel rest
      pure ((key, x) :: es, rest)
    | none => do
      let rest ← expect 0x7D rest
      pure ([(key, x)], rest)

end

/-- The value that a text denotes. -/
def ofText? (t : Text) : Option Json :=
  match readValue (2 * t.length + 2) t with
  | some (j, rest) => if (skipSpace rest).isEmpty then some j else none
  | none => none

end TreeMatcher.Json
