import TreeMatcher.Text.Basic

/-!
# Tokens of the pattern language

* `TokenKind` — the kinds of tokens, with the label each is shown under.
* `Position` — a line and a column, both counted from one.
* `Position.after` — the position behind a text: a line feed, a carriage return and the pair of
  both each end one line, and columns count code units.
* `Token` — a kind, the text, and where the text stands.

## Main results

* `Position.after_append` — moving over two texts is moving over their concatenation, unless the
  cut separates a carriage return from its line feed.
* `Position.after_of_no_lineEnd` — within a line only the column moves.
-/

namespace TreeMatcher

/-! ## Kinds -/

/-- The kinds of tokens. -/
inductive TokenKind where
  | name
  | string
  | number
  | equal
  | vbar
  | bang
  | star
  | plus
  | lbrace
  | rbrace
  | comma
  | lpar
  | rpar
  | lsqb
  | rsqb
  | less
  | greater
deriving DecidableEq, Repr, Inhabited

namespace TokenKind

/-- The label of a kind. -/
def label : TokenKind → Text
  | name => "NAME"
  | string => "STRING"
  | number => "NUMBER"
  | equal => "EQUAL"
  | vbar => "VBAR"
  | bang => "BANG"
  | star => "STAR"
  | plus => "PLUS"
  | lbrace => "LBRACE"
  | rbrace => "RBRACE"
  | comma => "COMMA"
  | lpar => "LPAR"
  | rpar => "RPAR"
  | lsqb => "LSQB"
  | rsqb => "RSQB"
  | less => "LESS"
  | greater => "GREATER"

/-- All kinds. -/
def all : List TokenKind :=
  [name, string, number, equal, vbar, bang, star, plus, lbrace, rbrace, comma, lpar, rpar, lsqb,
   rsqb, less, greater]

/-- The kind with a given label. -/
def ofLabel? (t : Text) : Option TokenKind := all.find? fun k => k.label == t

theorem ofLabel?_label (k : TokenKind) : ofLabel? k.label = some k := by cases k <;> rfl

/-- The kind of a single punctuation mark. -/
def ofPunctuation? (c : CodeUnit) : Option TokenKind :=
  if c == 0x3D then some equal
  else if c == 0x7C then some vbar
  else if c == 0x21 then some bang
  else if c == 0x2A then some star
  else if c == 0x2B then some plus
  else if c == 0x7B then some lbrace
  else if c == 0x7D then some rbrace
  else if c == 0x2C then some comma
  else if c == 0x28 then some lpar
  else if c == 0x29 then some rpar
  else if c == 0x5B then some lsqb
  else if c == 0x5D then some rsqb
  else if c == 0x3C then some less
  else if c == 0x3E then some greater
  else none

end TokenKind

/-! ## Positions -/

/-- A line and a column, both counted from one. -/
structure Position where
  line : Nat
  column : Nat
deriving DecidableEq, Repr, Inhabited

namespace Position

/-- Where a text begins. -/
def first : Position := ⟨1, 1⟩

/-- The beginning of the next line. -/
def nextLine (p : Position) : Position := ⟨p.line + 1, 1⟩

/-- The position `n` columns further on the same line. -/
def right (p : Position) (n : Nat) : Position := ⟨p.line, p.column + n⟩

/-- The position behind one unit: a line end opens the next line. -/
def step (p : Position) (c : CodeUnit) : Position :=
  if c.isLineEnd then p.nextLine else p.right 1

/-- The position behind a text that begins at `p`. A carriage return in front of a line feed is
counted with it. -/
def after (p : Position) : Text → Position
  | [] => p
  | c :: rest =>
    if c = CodeUnit.carriageReturn ∧ rest.head? = some CodeUnit.lineFeed then after p rest
    else after (p.step c) rest

@[simp] theorem after_nil (p : Position) : p.after [] = p := rfl

theorem after_of_no_lineEnd (p : Position) (t : Text) (h : ∀ c ∈ t, c.isLineEnd = false) :
    p.after t = p.right t.length := by
  induction t generalizing p with
  | nil => rfl
  | cons c t ih =>
    have hc := h c (by simp)
    have hr : c ≠ CodeUnit.carriageReturn := by rintro rfl; simp [CodeUnit.isLineEnd] at hc
    rw [after, if_neg (by simp [hr]), ih _ fun d hd => h d (by simp [hd])]
    simp only [step, hc, right, List.length_cons, Bool.false_eq_true, if_false, Position.mk.injEq,
      true_and]
    omega

theorem after_append (p : Position) (s t : Text)
    (h : s.getLast? = some CodeUnit.carriageReturn → t.head? ≠ some CodeUnit.lineFeed) :
    p.after (s ++ t) = (p.after s).after t := by
  induction s generalizing p with
  | nil => rfl
  | cons c s ih =>
    cases s with
    | nil =>
      have hc : ¬(c = CodeUnit.carriageReturn ∧ t.head? = some CodeUnit.lineFeed) :=
        fun hc => h (by simp [hc.1]) hc.2
      simp [after, hc]
    | cons d s =>
      have hs : ∀ q : Position, q.after (d :: s ++ t) = (q.after (d :: s)).after t :=
        fun q => ih q (by simpa using h)
      rw [List.cons_append, after, after]
      by_cases hc : c = CodeUnit.carriageReturn ∧ d = CodeUnit.lineFeed
      · rw [if_pos (by simp [hc]), if_pos (by simp [hc]), hs]
      · rw [if_neg (by simpa using hc), if_neg (by simpa using hc), hs]

end Position

/-! ## Tokens -/

/-- A token and where it stands. -/
structure Token where
  kind : TokenKind
  text : Text
  start : Position
  offset : Nat
deriving DecidableEq, Repr, Inhabited

namespace Token

/-- The position of the last unit of a token. A token never ends with a line end. -/
def stop (t : Token) : Position :=
  let behind := t.start.after t.text
  ⟨behind.line, behind.column - 1⟩

end Token

end TreeMatcher
