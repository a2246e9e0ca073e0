import TreeMatcher.Pattern.Diagnostic
import TreeMatcher.Proofs.Pattern.Composed
import TreeMatcher.Proofs.Pattern.SourceLine

/-!
# The ranges of diagnostics

A diagnostic is at the end of the text, or at a piece of it, a token or some units that are no
lexeme. It begins where the piece does and goes on for as many characters as the piece has units, on
the same line.

Its line is counted by the lexer, where a stray carriage return in a literal ends a line, and is
looked up among the lines of the text, where it does not. So a diagnostic is as many lines too far
down as there are such carriage returns in front of it, and it need not be in the text. Apart from
that it begins in the text, and also ends there unless the piece is a literal that goes over several
lines, which is the only one that is not on the line that it begins on.

* `Piece.strays p` — the stray carriage returns in a literal.
* `Piece.StandsBehind t start before p` — the line and the column of a piece, from the pieces in
  front of it.
* `Place.IsIn p t` — a place is on a line of a text.
* `Diagnostic.Covers d t before p` — a diagnostic is at a piece, with some pieces in front of it.

## Main results

* `Piece.standsBehind_of_ofText` — every piece stands behind the pieces in front of it.
* `Diagnostic.Covers.range` — how far a diagnostic at a piece is in the text.
* `range_of_diagnostic` — the range of every diagnostic.
-/

namespace TreeMatcher

open Text

/-! ## Pieces and the pieces in front of them -/

namespace Lexeme

private theorem first?_lineFeed (t : Text) :
    first? (CodeUnit.lineFeed :: t) = some (.newline, 1) := rfl

private theorem first?_carriageReturn (t : Text) :
    first? (CodeUnit.carriageReturn :: CodeUnit.lineFeed :: t) = some (.newline, 2) := rfl

private theorem strayReturns_take {t : Text} {l : Lexeme} {n : Nat} (h : first? t = some (l, n))
    (hl : l ≠ .token .string) : strayReturns (t.take n) = 0 := by
  by_cases htoken : ∃ k, l = .token k
  · obtain ⟨k, rfl⟩ := htoken
    apply strayReturns_of_no_lineEnd
    exact isLineEnd_of_mem_token h fun hk => hl (congrArg Lexeme.token hk)
  · exact (isFiller_of_first? h fun k hk => htoken ⟨k, hk⟩).strayReturns_eq

end Lexeme

namespace Piece

/-- No lexeme begins in an unrecognized piece. -/
private theorem first?_drop_of_lt {t : Text} {i : Nat} (h : i < unrecognizedLength t) :
    Lexeme.first? (t.drop i) = none := by
  induction t generalizing i with
  | nil => simp [unrecognizedLength] at h
  | cons c t ih =>
    rw [unrecognizedLength] at h
    split at h
    · omega
    · next hnone =>
      cases i with
      | zero => simpa using hnone
      | succ i =>
        rw [List.drop_succ_cons]
        exact ih (by omega)

private theorem lineFeed_not_mem_unrecognized (t : Text) :
    CodeUnit.lineFeed ∉ t.take (unrecognizedLength t) := by
  intro hmem
  obtain ⟨i, hi, hfeed⟩ := List.mem_iff_getElem.1 hmem
  rw [List.length_take, Nat.lt_min] at hi
  have hdrop : t.drop i = CodeUnit.lineFeed :: t.drop (i + 1) := by
    rw [List.drop_eq_getElem_cons hi.2, ← hfeed, List.getElem_take]
  have hnone := first?_drop_of_lt hi.1
  rw [hdrop, Lexeme.first?_lineFeed] at hnone
  cases hnone

/-- The first piece of a text is not cut off between a carriage return and its line feed. -/
private theorem head?_drop_first (t : Text) (start : Position) (offset : Nat)
    (h : (first t start offset).text.getLast? = some CodeUnit.carriageReturn) :
    (t.drop (first t start offset).text.length).head? ≠ some CodeUnit.lineFeed := by
  unfold first at h ⊢
  split at h
  · next l n hfirst => exact absurd h (Lexeme.getLast?_ne_carriageReturn hfirst)
  · dsimp only at h ⊢
    rw [List.length_take_of_le (unrecognizedLength_le t)]
    intro hfeed
    obtain ⟨rest, hrest⟩ := List.head?_eq_some_iff.1 hfeed
    generalize hn : unrecognizedLength t = n at h hrest
    cases n with
    | zero => simp at h
    | succ i =>
      have hlen := unrecognizedLength_le t
      have hi : i < t.length := by omega
      rw [List.take_succ_eq_append_getElem hi, List.getLast?_concat] at h
      have hdrop : t.drop i = CodeUnit.carriageReturn :: CodeUnit.lineFeed :: rest := by
        rw [List.drop_eq_getElem_cons hi, hrest, Option.some.inj h]
      have hstuck := first?_drop_of_lt (t := t) (i := i) (by omega)
      rw [hdrop, Lexeme.first?_carriageReturn] at hstuck
      cases hstuck

/-- The stray carriage returns in a piece that count as line ends: those in a literal. -/
def strays (p : Piece) : Nat :=
  if p.lexeme? = some (.token .string) then strayReturns p.text else 0

section First

variable (t : Text) (start : Position) (offset : Nat)

/-- Behind the first piece the line is further down by its line feeds and its stray carriage
returns. -/
private theorem line_behind_first : (first t start offset).behind.line =
    start.line + (first t start offset).text.count CodeUnit.lineFeed +
      (first t start offset).strays := by
  unfold first
  split
  · next l n hfirst =>
    show (start.after (t.take n)).line = _
    rw [Position.line_after, strays]
    split
    · rfl
    · next hl => rw [Lexeme.strayReturns_take hfirst fun hstring => hl (congrArg some hstring)]
  · have hnone := List.count_eq_zero.2 (lineFeed_not_mem_unrecognized t)
    show start.line = start.line + (t.take (unrecognizedLength t)).count CodeUnit.lineFeed + 0
    omega

private theorem column_behind_first_le : (first t start offset).behind.column ≤
    columnBehind start.column (first t start offset).text := by
  unfold first
  split
  · exact Position.column_after_le start _
  · have hfeed := lineFeed_not_mem_unrecognized t
    rw [columnBehind, List.count_eq_zero.2 hfeed, if_pos rfl, lastLine_of_no_lineFeed hfeed]
    exact Nat.le_refl _

/-- Without stray carriage returns, the column behind the first piece is behind its last line. -/
private theorem column_behind_first (h : (first t start offset).strays = 0) :
    (first t start offset).behind.column =
      columnBehind start.column (first t start offset).text := by
  unfold first at h ⊢
  split at h
  · next l n hfirst =>
    apply Position.column_after start
    by_cases hl : l = .token .string
    · rwa [strays, if_pos (congrArg some hl)] at h
    · exact Lexeme.strayReturns_take hfirst hl
  · have hfeed := lineFeed_not_mem_unrecognized t
    rw [columnBehind, List.count_eq_zero.2 hfeed, if_pos rfl, lastLine_of_no_lineFeed hfeed]
    rfl

end First

/-- The texts of some pieces, one after the other. -/
def textOf (ps : List Piece) : Text := ps.flatMap text

/-- The stray carriage returns in some pieces that count as line ends. -/
def straysOf (ps : List Piece) : Nat := (ps.map strays).sum

/-- Where a piece stands in a text that begins at `start`, with some pieces in front of it. Its line
is further down by their line feeds and their stray carriage returns, and only the latter keep its
column from being behind their last line. -/
structure StandsBehind (t : Text) (start : Position) (before : List Piece) (p : Piece) : Prop where
  exists_first : ∃ rest offset, t = textOf before ++ rest ∧ p = first rest p.start offset
  line_eq : p.start.line = start.line + (textOf before).count CodeUnit.lineFeed + straysOf before
  column_le : p.start.column ≤ columnBehind start.column (textOf before)
  column_eq : straysOf before = 0 → p.start.column = columnBehind start.column (textOf before)

private theorem standsBehind_nil (t : Text) (start : Position) (offset : Nat) :
    StandsBehind t start [] (first t start offset) := by
  have hcolumn : columnBehind start.column (textOf []) = start.column := rfl
  have hstart := first_start t start offset
  exact {
    exists_first := ⟨t, offset, rfl, by rw [hstart]⟩
    line_eq := by rw [hstart]; rfl
    column_le := by rw [hstart, hcolumn]
    column_eq := by rw [hstart, hcolumn]; exact fun _ => rfl }

/-- What stands behind the first piece, seen from the beginning of that piece. -/
private theorem StandsBehind.cons {t : Text} {start : Position} {offset : Nat} {before : List Piece}
    {p q : Piece} (hq : first t start offset = q)
    (h : StandsBehind (t.drop q.text.length) q.behind before p) :
    StandsBehind t start (q :: before) p := by
  obtain ⟨⟨rest, offset', htext, hfirst⟩, hline, hle, heq⟩ := h
  have hqtext := first_text_eq_take t start offset
  have hqline := line_behind_first t start offset
  have hqle := column_behind_first_le t start offset
  have hqeq := column_behind_first t start offset
  have hcut := head?_drop_first t start offset
  rw [hq] at hqtext hqline hqle hqeq hcut
  have hfront : textOf (q :: before) = q.text ++ textOf before := List.flatMap_cons
  have hstrays : straysOf (q :: before) = q.strays + straysOf before := List.sum_cons
  have hbehind : columnBehind start.column (textOf (q :: before)) =
      columnBehind (columnBehind start.column q.text) (textOf before) := by
    rw [hfront]
    apply columnBehind_append
    intro hlast hfeed
    apply hcut hlast
    rw [htext, List.head?_append, hfeed]
    rfl
  exact {
    exists_first := by
      refine ⟨rest, offset', ?_, hfirst⟩
      rw [hfront, List.append_assoc, ← htext]
      conv => rhs; arg 1; rw [hqtext]
      exact (List.take_append_drop _ t).symm
    line_eq := by
      rw [hfront, List.count_append, hstrays]
      omega
    column_le := by
      rw [hbehind]
      exact Nat.le_trans hle (columnBehind_mono hqle _)
    column_eq := by
      intro hzero
      rw [hstrays] at hzero
      rw [hbehind, heq (by omega), hqeq (by omega)] }

/-- Every piece of a text stands behind the pieces in front of it. -/
theorem standsBehind_of_ofText {t : Text} {start : Position} {offset : Nat}
    {before after : List Piece} {p : Piece}
    (h : ofText t 0 start offset = before ++ p :: after) : StandsBehind t start before p := by
  induction before generalizing t start offset with
  | nil =>
    cases t with
    | nil => cases h
    | cons c rest =>
      rw [ofText_cons] at h
      rw [← (List.cons.inj h).1]
      exact standsBehind_nil (c :: rest) start offset
  | cons q before ih =>
    cases t with
    | nil => cases h
    | cons c rest =>
      rw [ofText_cons, List.cons_append] at h
      obtain ⟨hq, hrest⟩ := List.cons.inj h
      rw [hq] at hrest
      exact .cons hq (ih hrest)

end Piece

/-! ## Places in a text -/

namespace Place

/-- The place some lines further down. -/
def down (p : Place) (n : Nat) : Place := ⟨p.line + n, p.character⟩

/-- The place some characters further on. -/
def right (p : Place) (n : Nat) : Place := ⟨p.line, p.character + n⟩

/-- Whether a place is in a text: on one of its lines, at most behind the last unit. -/
def IsIn (p : Place) (t : Text) : Prop :=
  ∃ line ∈ t.lines[p.line]?, p.character ≤ line.length

instance (p : Place) (t : Text) : Decidable (p.IsIn t) :=
  inferInstanceAs (Decidable (∃ line ∈ t.lines[p.line]?, p.character ≤ line.length))

/-- A place on the line on which one text ends and another one begins. -/
private theorem isIn_append_iff {s t : Text} (h : t.head? ≠ some CodeUnit.lineFeed) (k : Nat) :
    (Place.mk (s.count CodeUnit.lineFeed) k).IsIn (s ++ t) ↔
      k ≤ (lastLine s).length + (firstLine t).length := by
  have hline := getElem?_lines_append (s := s) fun _ => h
  rw [← List.length_append]
  constructor
  · intro hin
    obtain ⟨line, hget, hle⟩ := hin
    rw [hline] at hget
    cases hget
    exact hle
  · intro hle
    exact ⟨_, hline, hle⟩

private theorem isIn_endOf (t : Text) : (Diagnostic.endOf t).IsIn t := by
  have hlast := (isIn_append_iff (s := t) (t := []) (by simp) (lastLine t).length).2 (by omega)
  have hline : t.lines.length - 1 = t.count CodeUnit.lineFeed := by
    rw [length_lines]
    omega
  rw [List.append_nil, ← hline] at hlast
  exact hlast

end Place

/-! ## The range of a diagnostic -/

namespace Piece

/-- Whether a diagnostic may be at a piece: no lexeme, or a token. -/
def IsReported (p : Piece) : Prop := p.lexeme? = none ∨ ∃ k, p.lexeme? = some (.token k)

section

variable {rest : Text} {start : Position} {offset : Nat}

/-- A reported piece does not begin with a line feed. -/
private theorem head?_ne_of_isReported (h : (first rest start offset).IsReported) :
    rest.head? ≠ some CodeUnit.lineFeed := by
  intro hhead
  obtain ⟨t, rfl⟩ := List.head?_eq_some_iff.1 hhead
  have hnewline : (first (CodeUnit.lineFeed :: t) start offset).lexeme? = some .newline := rfl
  rw [IsReported, hnewline] at h
  rcases h with h | ⟨k, h⟩
  · cases h
  · cases h

/-- A reported piece that a line feed stands in is a literal. -/
private theorem eq_string_of_lineFeed_mem (h : (first rest start offset).IsReported)
    (hfeed : CodeUnit.lineFeed ∈ (first rest start offset).text) :
    (first rest start offset).lexeme? = some (.token .string) := by
  rw [first] at h hfeed ⊢
  cases hfirst : Lexeme.first? rest with
  | none =>
    rw [hfirst] at hfeed
    exact absurd hfeed (lineFeed_not_mem_unrecognized rest)
  | some r =>
    obtain ⟨l, n⟩ := r
    rw [hfirst] at h hfeed
    rcases h with h | ⟨k, h⟩
    · cases h
    · cases h
      by_cases hk : k = .string
      · rw [hk]
      · exact absurd (Lexeme.isLineEnd_of_mem_token hfirst hk _ hfeed) (by decide)

end

end Piece

namespace Diagnostic

open Piece

/-- A diagnostic at a piece of a text, with some pieces in front of it. It begins where the piece
does, and ends as many characters further on as the piece has units. -/
structure Covers (d : Diagnostic) (t : Text) (before : List Piece) (p : Piece) : Prop where
  isReported : p.IsReported
  isPiece : ∃ after, pieces t = before ++ p :: after
  start_eq : d.start = placeOf p.start
  stop_eq : d.stop = d.start.right p.text.length

/-- A diagnostic at a piece is in the text, but for two things. It is as many lines too far down as
there are stray carriage returns in earlier literals. And if the piece is a literal that goes over
several lines, the end is behind the end of the line. -/
theorem Covers.range {t : Text} {d : Diagnostic} {before : List Piece} {p : Piece}
    (h : d.Covers t before p) :
    ∃ place : Place, place.IsIn t ∧ d.start = place.down (straysOf before) ∧
      (CodeUnit.lineFeed ∉ p.text → (place.right p.text.length).IsIn t) ∧
      (CodeUnit.lineFeed ∈ p.text → p.lexeme? = some (.token .string) ∧
        (straysOf before = 0 → ¬d.stop.IsIn t)) := by
  obtain ⟨hreported, ⟨after, hpieces⟩, hstart, hstop⟩ := h
  obtain ⟨⟨rest, offset, htext, hfirst⟩, hline, hle, heq⟩ := standsBehind_of_ofText hpieces
  rw [hfirst] at hreported
  have hhead := head?_ne_of_isReported hreported
  have hstring := eq_string_of_lineFeed_mem hreported
  have htake := first_text_eq_take rest p.start offset
  have hcut := head?_drop_first rest p.start offset
  rw [← hfirst] at hstring htake hcut
  -- the piece is on the line that it begins on exactly if no line feed is in it
  have hfits := length_le_firstLine_iff hcut
  have hrest : p.text ++ rest.drop p.text.length = rest := by
    conv => lhs; arg 1; rw [htake]
    exact List.take_append_drop _ rest
  rw [hrest] at hfits
  have hbehind : columnBehind Position.first.column (textOf before) =
      1 + (lastLine (textOf before)).length := by
    rw [columnBehind, show Position.first.column = 1 from rfl, ite_self]
  rw [hbehind] at hle heq
  have hone : Position.first.line = 1 := rfl
  have hdown : d.start = (Place.mk ((textOf before).count CodeUnit.lineFeed)
      (p.start.column - 1)).down (straysOf before) := by
    rw [hstart, placeOf, Place.down, hline, hone, Nat.add_assoc, Nat.add_sub_cancel_left]
  refine ⟨⟨_, p.start.column - 1⟩, ?_, hdown, ?_, ?_⟩
  · rw [htext, Place.isIn_append_iff hhead]
    omega
  · intro hfeed
    rw [htext]
    apply (Place.isIn_append_iff hhead (p.start.column - 1 + p.text.length)).2
    have hlength := hfits.2 hfeed
    omega
  · intro hfeed
    refine ⟨hstring hfeed, ?_⟩
    intro hzero
    have hshort : ¬p.text.length ≤ (firstLine rest).length := fun hlength => hfits.1 hlength hfeed
    have hcolumn := heq hzero
    rw [hstop, hdown, hzero, htext]
    intro hin
    have hlength := (Place.isIn_append_iff hhead (p.start.column - 1 + p.text.length)).1 hin
    omega

/-- An unrecognized piece is covered by its diagnostic. -/
private theorem covers_ofPiece {t : Text} {p : Piece} (h : p ∈ unrecognized t) :
    ∃ before, (ofPiece p).Covers t before p := by
  obtain ⟨hmem, hnone⟩ := List.mem_filter.1 h
  obtain ⟨before, after, hsplit⟩ := List.append_of_mem hmem
  exact ⟨before, {
    isReported := .inl (Option.isNone_iff_eq_none.1 hnone)
    isPiece := ⟨after, hsplit⟩
    start_eq := rfl
    stop_eq := rfl }⟩

/-- The token at a mismatch is covered by its diagnostic. -/
private theorem covers_ofMismatch {t : Text} {m : Mismatch} {token : Token} (h : token ∈ tokens t)
    (hfound : m.found? = some token) :
    ∃ before p, (ofMismatch t m).Covers t before p := by
  obtain ⟨p, hmem, htoken⟩ := List.mem_filterMap.1 h
  obtain ⟨before, after, hsplit⟩ := List.append_of_mem hmem
  have hbounds := Lexeme.first?_bounds (first?_of_mem_tokens h).1
  have hplace := (Piece.place_of_token? htoken).1
  have htext : token.text = p.text ∧ p.lexeme? = some (.token token.kind) := by
    unfold Piece.token? at htoken
    split at htoken
    · next k hk =>
      cases htoken
      exact ⟨rfl, hk⟩
    · cases htoken
  have hwidth : max m.foundText.length 1 = p.text.length := by
    rw [Mismatch.foundText, hfound, ← htext.1]
    show max token.text.length 1 = _
    omega
  exact ⟨before, p, {
    isReported := .inr ⟨_, htext.2⟩
    isPiece := ⟨after, hsplit⟩
    start_eq := by
      rw [ofMismatch, hfound, ← hplace]
      rfl
    stop_eq := by
      rw [ofMismatch, hwidth]
      rfl }⟩

end Diagnostic

open Piece

/-- Every diagnostic is behind the end of the text and one character wide, or at a piece of the
text. In the latter case it begins at a place of the text, moved down by the stray carriage returns
in earlier literals. It goes on for the length of the piece, which is in the text too unless a line
feed stands in the piece, which is a literal then. -/
theorem range_of_diagnostic {t : Text} {d : Diagnostic} (h : d ∈ (diagnose t).diagnostics) :
    d.start = Diagnostic.endOf t ∧ d.start.IsIn t ∧ d.stop = d.start.right 1 ∨
      ∃ before p, d.Covers t before p ∧
        ∃ place : Place, place.IsIn t ∧ d.start = place.down (straysOf before) ∧
          (CodeUnit.lineFeed ∉ p.text → (place.right p.text.length).IsIn t) ∧
          (CodeUnit.lineFeed ∈ p.text → p.lexeme? = some (.token .string) ∧
            (straysOf before = 0 → ¬d.stop.IsIn t)) := by
  change d ∈ (unrecognized t).map Diagnostic.ofPiece ++
    (parseTokens .lenient (tokens t)).2.map (Diagnostic.ofMismatch t) at h
  rcases List.mem_append.1 h with h | h
  · obtain ⟨p, hp, rfl⟩ := List.mem_map.1 h
    obtain ⟨before, hcovers⟩ := Diagnostic.covers_ofPiece hp
    exact .inr ⟨before, p, hcovers, hcovers.range⟩
  · obtain ⟨m, hm, rfl⟩ := List.mem_map.1 h
    cases hfound : m.found? with
    | none =>
      left
      have hstart : (Diagnostic.ofMismatch t m).start = Diagnostic.endOf t := by
        rw [Diagnostic.ofMismatch, hfound]
        rfl
      refine ⟨hstart, ?_, ?_⟩
      · rw [hstart]
        exact Place.isIn_endOf t
      · rw [Diagnostic.ofMismatch, Mismatch.foundText, hfound]
        rfl
    | some token =>
      have htoken := found_mem_of_mismatch hm token hfound
      obtain ⟨before, p, hcovers⟩ := Diagnostic.covers_ofMismatch htoken hfound
      exact .inr ⟨before, p, hcovers, hcovers.range⟩

/-- A literal over two lines, in the place of a closing brace, is reported up to a place behind the
end of its first line. -/
theorem range_of_diagnostic_twoLines :
    ∃ d ∈ (diagnose "NAME\x7b1'''a\nb'''").diagnostics, d.start = ⟨0, 6⟩ ∧ d.stop = ⟨0, 15⟩ ∧
      ¬d.stop.IsIn "NAME\x7b1'''a\nb'''" ∧
      ∃ before p, d.Covers "NAME\x7b1'''a\nb'''" before p ∧
        ∃ place : Place, place.IsIn "NAME\x7b1'''a\nb'''" ∧
          d.start = place.down (straysOf before) := by
  have hplaces :
      (diagnose "NAME\x7b1'''a\nb'''").diagnostics.map (fun d => (d.start, d.stop)) =
        [(⟨0, 6⟩, ⟨0, 15⟩)] := by decide +kernel
  obtain ⟨d, hd, hplace⟩ := List.map_eq_singleton_iff.1 hplaces
  obtain ⟨hstart, hstop⟩ := Prod.mk.inj hplace
  have hmem : d ∈ (diagnose "NAME\x7b1'''a\nb'''").diagnostics := by
    rw [hd]
    exact List.mem_singleton_self d
  refine ⟨d, hmem, hstart, hstop, ?_, ?_⟩
  · rw [hstop]
    decide
  · rcases range_of_diagnostic hmem with ⟨hend, -⟩ | ⟨before, p, hcovers, place, hin, hdown, -⟩
    · rw [hstart] at hend
      exact absurd hend (by decide)
    · exact ⟨before, p, hcovers, place, hin, hdown⟩

end TreeMatcher
