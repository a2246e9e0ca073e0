/-!
# Texts as sequences of 16-bit code units

A pattern source is a list of UTF-16 code units. Offsets, columns and lengths count units, and a
surrogate that has no partner is an ordinary unit, so every list of units is a text.

* `CodeUnit` and the classes of units that the pattern language tells apart.
* `Text.ofString` writes a Lean string in units; it is a coercion, so messages can be put together
  from string literals and texts with `++`.
* `Text.run p t` is the length of the longest beginning of `t` whose units satisfy `p`.
* `Text.lines` splits a text at its line breaks.

## Main results

* `run_append_of_stop` — a run ends where a unit outside the class follows.
* `lines_ne_nil` — every text has a line, also the empty one.
-/

namespace TreeMatcher

/-- One UTF-16 code unit. -/
abbrev CodeUnit := UInt16

/-- A sequence of UTF-16 code units; any sequence is allowed. -/
abbrev Text := List CodeUnit

/-! ## Units with a meaning of their own -/

namespace CodeUnit

/-- The line feed. -/
abbrev lineFeed : CodeUnit := 0x0A

/-- The carriage return. -/
abbrev carriageReturn : CodeUnit := 0x0D

/-- The single quote. -/
abbrev singleQuote : CodeUnit := 0x27

/-- The double quote. -/
abbrev doubleQuote : CodeUnit := 0x22

/-- The backslash. -/
abbrev backslash : CodeUnit := 0x5C

/-- The hash sign, which opens a comment. -/
abbrev hash : CodeUnit := 0x23

/-- The underscore. -/
abbrev underscore : CodeUnit := 0x5F

/-- Blanks: space, tab and form feed. -/
def isBlank (c : CodeUnit) : Bool := c == 0x20 || c == 0x09 || c == 0x0C

/-- Units that end a line in an editor: line feed and carriage return. -/
def isLineEnd (c : CodeUnit) : Bool := c == lineFeed || c == carriageReturn

/-- Units that end a line for a literal: also the line and the paragraph separator. -/
def isLineTerminator (c : CodeUnit) : Bool := c.isLineEnd || c == 0x2028 || c == 0x2029

/-- The two quote marks. -/
def isQuote (c : CodeUnit) : Bool := c == singleQuote || c == doubleQuote

/-- The decimal digits `0` to `9`. -/
def isDigit (c : CodeUnit) : Bool := 0x30 ≤ c && c ≤ 0x39

/-- The octal digits `0` to `7`. -/
def isOctalDigit (c : CodeUnit) : Bool := 0x30 ≤ c && c ≤ 0x37

/-- Units that may begin a name: the letters of ASCII and the underscore. -/
def isNameStart (c : CodeUnit) : Bool :=
  (0x41 ≤ c && c ≤ 0x5A) || (0x61 ≤ c && c ≤ 0x7A) || c == underscore

/-- Units that may continue a name. -/
def isNamePart (c : CodeUnit) : Bool := c.isNameStart || c.isDigit

/-- The value of a hexadecimal digit of either case. -/
def hexDigitValue? (c : CodeUnit) : Option Nat :=
  if c.isDigit then some (c.toNat - 0x30)
  else if 0x41 ≤ c && c ≤ 0x46 then some (c.toNat - 0x41 + 10)
  else if 0x61 ≤ c && c ≤ 0x66 then some (c.toNat - 0x61 + 10)
  else none

/-- The lower-case hexadecimal digit of a value below sixteen. -/
def ofHexDigit (n : Nat) : CodeUnit :=
  if n < 10 then (0x30 + n).toUInt16 else (0x61 + (n - 10)).toUInt16

/-- The first half of a surrogate pair. -/
def isHighSurrogate (c : CodeUnit) : Bool := 0xD800 ≤ c && c ≤ 0xDBFF

/-- The second half of a surrogate pair. -/
def isLowSurrogate (c : CodeUnit) : Bool := 0xDC00 ≤ c && c ≤ 0xDFFF

end CodeUnit

/-! ## Writing strings in units -/

/-- The units of one character: one below `U+10000`, a surrogate pair from there on. -/
def Text.ofChar (c : Char) : Text :=
  if c.toNat < 0x10000 then [c.toNat.toUInt16]
  else
    [(0xD800 + (c.toNat - 0x10000) / 0x400).toUInt16,
     (0xDC00 + (c.toNat - 0x10000) % 0x400).toUInt16]

/-- The units of a string. -/
def Text.ofString (s : String) : Text := s.toList.flatMap Text.ofChar

instance : Coe String Text := ⟨Text.ofString⟩

namespace Text

/-! ## Runs -/

/-- The length of the longest beginning whose units all satisfy `p`. -/
def run (p : CodeUnit → Bool) (t : Text) : Nat := (t.takeWhile p).length

@[simp] theorem run_nil (p : CodeUnit → Bool) : run p [] = 0 := rfl

theorem run_cons (p : CodeUnit → Bool) (c : CodeUnit) (t : Text) :
    run p (c :: t) = if p c then run p t + 1 else 0 := by
  by_cases h : p c <;> simp [run, h]

theorem run_le_length (p : CodeUnit → Bool) (t : Text) : run p t ≤ t.length := by
  induction t with
  | nil => simp
  | cons c t ih =>
    rw [run_cons, List.length_cons]
    split <;> omega

/-- A run of units in the class that is followed by a unit outside it, or by nothing. -/
theorem run_append_of_stop (p : CodeUnit → Bool) (t rest : Text) (ht : ∀ c ∈ t, p c)
    (hr : ∀ c ∈ rest.head?, p c = false) : run p (t ++ rest) = t.length := by
  induction t with
  | nil =>
    cases rest with
    | nil => rfl
    | cons c rest => simpa [run_cons] using hr c rfl
  | cons c t ih =>
    have hc : p c = true := ht c (by simp)
    simp [run_cons, hc, ih fun d hd => ht d (by simp [hd])]

/-! ## Lines -/

/-- Puts a unit in front of the first line. -/
def onFirstLine (c : CodeUnit) : List Text → List Text
  | [] => [[c]]
  | line :: rest => (c :: line) :: rest

/-- The lines of a text. A line feed ends a line, and a carriage return before it belongs to the
break; any other carriage return is part of its line. -/
def lines : Text → List Text
  | [] => [[]]
  | c :: rest =>
    if c == CodeUnit.lineFeed then [] :: lines rest
    else if c == CodeUnit.carriageReturn && rest.head? == some CodeUnit.lineFeed then lines rest
    else onFirstLine c (lines rest)

theorem onFirstLine_ne_nil (c : CodeUnit) (ls : List Text) : onFirstLine c ls ≠ [] := by
  cases ls <;> simp [onFirstLine]

theorem lines_ne_nil (t : Text) : lines t ≠ [] := by
  induction t with
  | nil => simp [lines]
  | cons c rest ih =>
    unfold lines
    split
    · simp
    · split
      · exact ih
      · exact onFirstLine_ne_nil c _

end Text

end TreeMatcher
