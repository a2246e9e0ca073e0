import TreeMatcher.Pattern.Lexeme
import TreeMatcher.Pattern.Error

/-!
# Pieces of a pattern text

A text is cut into consecutive pieces. At each place the lexeme that begins there is taken; where
none begins, all units up to the next place where one does are one unrecognized piece. Pieces carry
their text, their offset and their position. A stray carriage return only moves the column.

* `pieces t` — the pieces of a text.
* `tokens t` — the tokens among them; `unrecognized t` — the pieces that are no lexeme.
* `lex t` — the tokens of a text, or the error at its first unrecognized piece.

## Main results

* `flatMap_text_pieces` — the texts of the pieces, one after the other, are the text.
* `lex_eq_ok_iff` — a text is lexed when it has no unrecognized piece.
-/

namespace TreeMatcher

/-- A piece of a pattern text; `lexeme?` is `none` where no lexeme begins. -/
structure Piece where
  lexeme? : Option Lexeme
  text : Text
  start : Position
  offset : Nat
deriving DecidableEq, Repr

namespace Piece

/-- The position behind a piece. -/
def behind (p : Piece) : Position :=
  match p.lexeme? with
  | some _ => p.start.after p.text
  | none => p.start.right p.text.length

/-- The number of units in front of the next place where a lexeme begins. -/
def unrecognizedLength : Text → Nat
  | [] => 0
  | c :: rest => if (Lexeme.first? (c :: rest)).isSome then 0 else unrecognizedLength rest + 1

/-- The piece at the beginning of a text that stands at `start` and `offset`. -/
def first (t : Text) (start : Position) (offset : Nat) : Piece :=
  match Lexeme.first? t with
  | some (l, n) => ⟨some l, t.take n, start, offset⟩
  | none => ⟨none, t.take (unrecognizedLength t), start, offset⟩

/-- The pieces of a text behind its first `skip` units; the place behind these is given. -/
def ofText : Text → Nat → Position → Nat → List Piece
  | [], _, _, _ => []
  | _ :: rest, skip + 1, start, offset => ofText rest skip start offset
  | c :: rest, 0, start, offset =>
    let piece := first (c :: rest) start offset
    piece :: ofText rest (piece.text.length - 1) piece.behind (offset + piece.text.length)

/-- The token that a piece is, if it is one. -/
def token? (p : Piece) : Option Token :=
  match p.lexeme? with
  | some (.token k) => some ⟨k, p.text, p.start, p.offset⟩
  | _ => none

/-- Whether a piece is no lexeme. -/
def isUnrecognized (p : Piece) : Bool := p.lexeme?.isNone

end Piece

/-- The pieces of a text. -/
def pieces (t : Text) : List Piece := Piece.ofText t 0 Position.first 0

/-- The tokens of a text. -/
def tokens (t : Text) : List Token := (pieces t).filterMap Piece.token?

/-- The unrecognized pieces of a text. -/
def unrecognized (t : Text) : List Piece := (pieces t).filter Piece.isUnrecognized

/-- The error at an unrecognized piece; it names the first unit. -/
def Piece.toError (p : Piece) : PatternError :=
  .located (.unexpectedCharacter (p.text.headD 0)) p.start

/-- The tokens of a text without unrecognized pieces, or the error at the first such piece. -/
def lex (t : Text) : Except PatternError (List Token) :=
  match unrecognized t with
  | [] => .ok (tokens t)
  | p :: _ => .error p.toError

/-! ## The pieces make up the text -/

namespace Piece

theorem unrecognizedLength_le (t : Text) : unrecognizedLength t ≤ t.length := by
  induction t with
  | nil => simp [unrecognizedLength]
  | cons c rest ih =>
    unfold unrecognizedLength
    split <;> simp only [List.length_cons] <;> omega

theorem first_text_eq_take (t : Text) (start : Position) (offset : Nat) :
    (first t start offset).text = t.take (first t start offset).text.length := by
  unfold first
  split
  · next l n h => simp [Nat.min_eq_left (Lexeme.first?_le_length h)]
  · simp [Nat.min_eq_left (unrecognizedLength_le t)]

theorem first_text_length (c : CodeUnit) (rest : Text) (start : Position) (offset : Nat) :
    1 ≤ (first (c :: rest) start offset).text.length := by
  unfold first
  split
  · next l n h =>
    have := Lexeme.first?_bounds h
    simp only [List.length_take]
    omega
  · next h =>
    have := unrecognizedLength_le rest
    simp only [List.length_take, unrecognizedLength, h, Option.isSome_none, Bool.false_eq_true,
      if_false, List.length_cons]
    omega

theorem ofText_skip (t : Text) (skip : Nat) (start : Position) (offset : Nat) :
    ofText t skip start offset = ofText (t.drop skip) 0 start offset := by
  induction t generalizing skip with
  | nil => cases skip <;> simp [ofText]
  | cons c rest ih =>
    cases skip with
    | zero => rfl
    | succ skip => rw [ofText, ih, List.drop_succ_cons]

/-- One piece, and then the pieces of what stands behind it. -/
theorem ofText_cons (c : CodeUnit) (rest : Text) (start : Position) (offset : Nat) :
    ofText (c :: rest) 0 start offset =
      first (c :: rest) start offset ::
        ofText ((c :: rest).drop (first (c :: rest) start offset).text.length) 0
          (first (c :: rest) start offset).behind
          (offset + (first (c :: rest) start offset).text.length) := by
  rw [ofText, ofText_skip]
  congr 2
  have := first_text_length c rest start offset
  obtain ⟨n, hn⟩ : ∃ n, (first (c :: rest) start offset).text.length = n + 1 :=
    ⟨_, (Nat.sub_add_cancel this).symm⟩
  rw [hn, List.drop_succ_cons, Nat.add_sub_cancel]

theorem flatMap_text_ofText (t : Text) (start : Position) (offset : Nat) :
    (ofText t 0 start offset).flatMap Piece.text = t := by
  generalize hn : t.length = n
  induction n using Nat.strongRecOn generalizing t start offset with
  | ind n ih =>
    cases t with
    | nil => rfl
    | cons c rest =>
      rw [ofText_cons, List.flatMap_cons]
      have hpos := first_text_length c rest start offset
      rw [ih _ _ _ _ _ rfl]
      · conv => rhs; rw [← List.take_append_drop
          (first (c :: rest) start offset).text.length (c :: rest)]
        rw [← first_text_eq_take]
      · simp only [List.length_drop, List.length_cons] at hn ⊢
        omega

end Piece

theorem flatMap_text_pieces (t : Text) : (pieces t).flatMap Piece.text = t :=
  Piece.flatMap_text_ofText t _ _

theorem lex_eq_ok_iff {t : Text} {ts : List Token} :
    lex t = .ok ts ↔ unrecognized t = [] ∧ tokens t = ts := by
  unfold lex
  cases h : unrecognized t <;> simp

end TreeMatcher
