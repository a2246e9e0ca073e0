import TreeMatcher.Pattern.Parse

/-!
# Diagnostics

All faults of a pattern text, for an editor: first the unrecognized pieces, then the mismatches of
the lenient parser on the tokens that were found. A range counts lines and characters from zero and
stays on one line; its end is exclusive. A mismatch at the end of the pattern stands behind the last
line of the text.

* `diagnose t` — the diagnostics of a text; without any, also its tree.
-/

namespace TreeMatcher

/-- A place in an editor, both counted from zero. -/
structure Place where
  line : Nat
  character : Nat
deriving DecidableEq, Repr

/-- A fault and where it is, from `start` up to but not including `stop`. -/
structure Diagnostic where
  message : Text
  start : Place
  stop : Place
deriving DecidableEq, Repr

namespace Diagnostic

/-- A fault that covers some characters of a line. -/
def onLine (message : Text) (start : Place) (width : Nat) : Diagnostic :=
  ⟨message, start, ⟨start.line, start.character + width⟩⟩

/-- A position, counted from zero. -/
def placeOf (p : Position) : Place := ⟨p.line - 1, p.column - 1⟩

/-- The place behind the last line of a text. -/
def endOf (t : Text) : Place :=
  let lines := t.lines
  ⟨lines.length - 1, (lines.getLastD []).length⟩

/-- The wording for an unrecognized piece. -/
def unrecognizedMessage (p : Piece) : Text :=
  "unexpected character: ->" ++ p.text.take 1 ++ "<- at offset: " ++ Text.ofNat p.offset
    ++ ", skipped " ++ Text.ofNat p.text.length ++ " characters."

/-- The diagnostic for an unrecognized piece. -/
def ofPiece (p : Piece) : Diagnostic :=
  onLine (unrecognizedMessage p) (placeOf p.start) p.text.length

/-- The diagnostic for a mismatch in a text. -/
def ofMismatch (t : Text) (m : Mismatch) : Diagnostic :=
  let start :=
    match m.found? with
    | some token => placeOf token.start
    | none => endOf t
  onLine m.message start (max m.foundText.length 1)

end Diagnostic

/-- What an editor is told about a text. -/
structure Diagnosis where
  diagnostics : List Diagnostic
  tree? : Option Tree

/-- The diagnostics of a text, and its tree if there are none. -/
def diagnose (t : Text) : Diagnosis :=
  let (tree, mismatches) := parseTokens .lenient (tokens t)
  let diagnostics :=
    (unrecognized t).map Diagnostic.ofPiece ++ mismatches.map (Diagnostic.ofMismatch t)
  ⟨diagnostics, if diagnostics.isEmpty then some tree else none⟩

end TreeMatcher
