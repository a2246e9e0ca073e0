import TreeMatcher.Pattern.Piece

/-!
# Tokens with their source lines

A tool that shows a token shows the line it begins on. The tokens of a text are handed out with the
positions of their first and last unit and with the text of that line, which is looked up by its
number among the lines of the text. The number comes from the positions, where a carriage return
ends a line also without a line feed; the lines are split at line feeds. Where no line has the
number the text is empty.

* `tokenize t` — the tokens of a text with their source lines, or the error that refuses the text.

## Main results

* `tokenize_eq_ok_iff` — the tokens handed out are those of the text, each with its line.
-/

namespace TreeMatcher

/-- A token as it is handed out: where it begins and ends, and the text of the line where it
begins. -/
structure SourceToken where
  kind : TokenKind
  text : Text
  start : Position
  stop : Position
  line : Text
deriving DecidableEq, Repr

/-- A token with the line that has the number of its position. -/
def Token.withLine (lines : List Text) (t : Token) : SourceToken :=
  ⟨t.kind, t.text, t.start, t.stop, lines.getD (t.start.line - 1) []⟩

/-- The tokens of a text with their source lines, or the error that refuses the text. -/
def tokenize (t : Text) : Except PatternError (List SourceToken) :=
  (lex t).map fun ts => ts.map (Token.withLine t.lines)

theorem tokenize_eq_ok_iff {t : Text} {ps : List SourceToken} :
    tokenize t = .ok ps ↔
      unrecognized t = [] ∧ (tokens t).map (Token.withLine t.lines) = ps := by
  unfold tokenize lex
  cases h : unrecognized t <;> simp [Except.map]

end TreeMatcher
