import TreeMatcher.Number.Shortest
import TreeMatcher.Pattern.Token

/-!
# Errors of a pattern

Why a pattern is refused, apart from the place where it is. The wording of every cause is in
`PatternError.Cause.message`; an error whose line is known names the line in front.
-/

namespace TreeMatcher

/-- What the parser waits for. -/
inductive Expectation where
  /-- At least one unit. -/
  | units
  /-- A literal, a name, a group or an optional group. -/
  | basic
  /-- One token of this kind. -/
  | token (kind : TokenKind)
  /-- The end of the pattern. -/
  | patternEnd
deriving DecidableEq, Repr

/-- A place where the parser waits for something else than the next token. At the end of the
pattern there is no next token. -/
structure Mismatch where
  expected : Expectation
  found? : Option Token
deriving DecidableEq, Repr

namespace Mismatch

/-- The text of the next token, empty at the end of the pattern. -/
def foundText (m : Mismatch) : Text :=
  match m.found? with
  | some t => t.text
  | none => []

/-- The wording of a mismatch. -/
def message (m : Mismatch) : Text :=
  match m.expected with
  | .units =>
    "Expecting: expecting at least one iteration which starts with one of these "
      ++ "possible Token sequences::\n  <[BANG] ,[NAME] ,[LSQB] ,[STRING] ,[LPAR]>\n"
      ++ "but found: '" ++ m.foundText ++ "'"
  | .basic =>
    "Expecting: one of these possible Token sequences:\n"
      ++ "  1. [LSQB]\n  2. [STRING]\n  3. [NAME]\n  4. [LPAR]\n"
      ++ "but found: '" ++ m.foundText ++ "'"
  | .token k =>
    "Expecting token of type --> " ++ k.label ++ " <-- but found --> '" ++ m.foundText ++ "' <--"
  | .patternEnd => "Redundant input, expecting EOF but found: " ++ m.foundText

end Mismatch

/-- Why a pattern is refused. -/
inductive PatternError.Cause where
  /-- No lexeme begins with this unit. -/
  | unexpectedCharacter (c : CodeUnit)
  /-- The parser waits for something else. -/
  | mismatch (m : Mismatch)
  /-- An upper-case name that is no kind of token. -/
  | unknownToken (name : Text)
  /-- A kind of token with a details clause. -/
  | detailsOfToken (name : Text)
  /-- A name that the grammar does not declare as a symbol. -/
  | unknownSymbol (name : Text)
  /-- A repeat bound beyond the exact integers. -/
  | boundTooLarge (digits : Text)
  /-- A text that is not between matching quote marks. -/
  | malformedLiteral (literal : Text)
  /-- A hexadecimal escape without two digits; the text behind the backslash. -/
  | invalidHexEscape (escape : Text)
deriving DecidableEq, Repr

/-- The wording of a cause. -/
def PatternError.Cause.message : PatternError.Cause → Text
  | unexpectedCharacter c => "Unexpected character \"" ++ [c] ++ "\""
  | mismatch m => m.message
  | unknownToken name => "Invalid token \"" ++ name ++ "\""
  | detailsOfToken name => "Can't have details for token \"" ++ name ++ "\""
  | unknownSymbol name => "Invalid symbol \"" ++ name ++ "\""
  | boundTooLarge digits => "Repeat bound " ++ digits ++ " is too large"
  | malformedLiteral literal => "Malformed string literal " ++ literal
  | invalidHexEscape escape => "Invalid hex string escape \"\\" ++ escape ++ "\""

/-- A refused pattern: the cause, and the place if it is known. -/
structure PatternError where
  cause : PatternError.Cause
  line? : Option Number
  column? : Option Number
deriving DecidableEq, Repr

namespace PatternError

/-- An error without a place. -/
def nowhere (cause : Cause) : PatternError := ⟨cause, none, none⟩

/-- An error at a position. -/
def located (cause : Cause) (p : Position) : PatternError :=
  ⟨cause, some (.int p.line), some (.int p.column)⟩

/-- A wording with the line named in front, if it is known. -/
def withLine (line? : Option Number) (wording : Text) : Text :=
  match line? with
  | some n => "Line " ++ n.toText ++ ": " ++ wording
  | none => wording

/-- The message of an error. -/
def message (e : PatternError) : Text := withLine e.line? e.cause.message

end PatternError

/-- A mismatch as an error; at the end of the pattern it has no place. -/
def Mismatch.toError (m : Mismatch) : PatternError :=
  match m.found? with
  | some t => .located (.mismatch m) t.start
  | none => .nowhere (.mismatch m)

end TreeMatcher
