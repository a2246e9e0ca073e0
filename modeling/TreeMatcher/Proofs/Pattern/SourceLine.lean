import Mathlib.Algebra.GroupWithZero.Nat
import TreeMatcher.Pattern.Tokenize
import TreeMatcher.Proofs.Pattern.Partition
import TreeMatcher.Proofs.Text.Lines

/-!
# The source line of a token

A token is handed out with the line that has the number of its position. The number counts stray
carriage returns as line ends and the lines do not, so the line handed out is as many lines further
down as there are stray carriage returns in front of the token. Layout has none. They stand in
earlier literals, which may go over several lines between three marks, so the distance can be read
off from the tokens.

Without such literals the line is the right one, and the column tells how many of its units stand in
front of the token.

* `partitioned_of_lex` — a text that is lexed is its tokens with layout around them.
* `strayReturnsIn ps` — the stray carriage returns in the texts of some tokens.

## Main results

* `positionAt_eq_after` — the position of an offset is where the units in front of it lead.
* `Partitioned.strayReturns_excerpt` — the stray carriage returns in front of a token are those of
  the earlier tokens.
* `tokenize_line` — which line of the text is handed out with a token.
-/

namespace TreeMatcher

open Text

/-! ## Positions -/

/-- The position of an offset is where the units in front of it lead, unless the offset separates a
carriage return from its line feed. -/
theorem positionAt_eq_after {t : Text} {k : Nat} (hk : k ≤ t.length)
    (h : t[k]? ≠ some CodeUnit.lineFeed) : t.positionAt k = Position.first.after (t.take k) := by
  induction k with
  | zero => rfl
  | succ k ih =>
    have hlt : k < t.length := hk
    have htake : t.take (k + 1) = t.take k ++ [t[k]] := List.take_succ_eq_append_getElem hlt
    have hunit : t[k]? = some t[k] := List.getElem?_eq_getElem hlt
    by_cases hr : t[k] = CodeUnit.carriageReturn
    -- a stray carriage return, in front of which nothing is cut
    · have hends : t.endsLineAt k = true := by
        rw [endsLineAt_eq hunit fun _ => h, hr]
        rfl
      have hbefore : t[k]? ≠ some CodeUnit.lineFeed := by
        rw [hunit, hr]
        decide
      have happend : Position.first.after (t.take k ++ [t[k]]) =
          (Position.first.after (t.take k)).after [t[k]] := by
        apply Position.after_append
        intro _
        rw [hr]
        decide
      rw [positionAt_succ, hends, if_pos rfl, ih (Nat.le_of_succ_le hk) hbefore, htake, happend, hr]
      rfl
    · have hlast : (t.take (k + 1)).getLast? ≠ some CodeUnit.carriageReturn := by
        rw [htake, List.getLast?_concat]
        exact fun hc => hr (Option.some.inj hc)
      have hall : t.drop 0 = t.take (k + 1) ++ t.drop (k + 1) := (List.take_append_drop _ t).symm
      have hafter := after_positionAt hall hlast
      rw [List.length_take_of_le hk, Nat.zero_add] at hafter
      exact hafter.symm

/-! ## Stray carriage returns -/

theorem strayReturns_of_no_lineEnd {t : Text} (h : ∀ c ∈ t, c.isLineEnd = false) :
    strayReturns t = 0 := by
  induction t with
  | nil => rfl
  | cons c t ih =>
    have hc : c ≠ CodeUnit.carriageReturn := by
      intro hc
      have hend := h c List.mem_cons_self
      rw [hc] at hend
      cases hend
    rw [strayReturns, if_neg fun h => hc h.1, ih fun d hd => h d (List.mem_cons_of_mem c hd)]

theorem Text.IsFiller.strayReturns_eq {t : Text} (h : t.IsFiller) : strayReturns t = 0 := by
  cases h with
  | blanks _ h =>
    apply strayReturns_of_no_lineEnd
    intro c hc
    have hblank := h c hc
    grind [CodeUnit.isBlank, CodeUnit.isLineEnd]
  | comment h => exact strayReturns_of_no_lineEnd (List.forall_mem_cons.2 ⟨rfl, h⟩)
  | lineFeed => rfl
  | carriageReturnLineFeed => rfl

/-- Layout has no stray carriage return and does not end with a carriage return. -/
private theorem Text.IsLayout.strayReturns_eq {t : Text} (h : t.IsLayout) :
    strayReturns t = 0 ∧ t.getLast? ≠ some CodeUnit.carriageReturn := by
  obtain ⟨fillers, rfl, hfillers⟩ := h
  induction fillers with
  | nil => exact ⟨rfl, by simp⟩
  | cons f fs ih =>
    obtain ⟨hf, hfs⟩ := List.forall_mem_cons.1 hfillers
    obtain ⟨hstray, hlast⟩ := ih hfs
    rw [List.flatten_cons]
    constructor
    · rw [strayReturns_append hf.getLast?_ne, hf.strayReturns_eq, hstray]
    · rw [List.getLast?_append]
      cases hend : fs.flatten.getLast? with
      | none => exact hf.getLast?_ne
      | some c =>
        rw [hend] at hlast
        exact hlast

/-- The last unit of a token is no carriage return. -/
private theorem getLast?_token_ne {t : Text} {token : Token} (h : token ∈ tokens t) :
    token.text.getLast? ≠ some CodeUnit.carriageReturn := by
  obtain ⟨hfirst, htext⟩ := first?_of_mem_tokens h
  have hne := Lexeme.getLast?_ne_carriageReturn hfirst
  rwa [← htext] at hne

/-- Behind a place where the tokens begin, the stray carriage returns in front of a token are those
of the earlier tokens. -/
theorem Partitioned.strayReturns_excerpt {t : Text} {i : Nat} {earlier later : List Token}
    {token : Token} (h : Partitioned t i (earlier ++ token :: later))
    (hlast : ∀ u ∈ earlier, u.text.getLast? ≠ some CodeUnit.carriageReturn) :
    strayReturns (t.excerpt i token.offset) =
      (earlier.map fun u => strayReturns u.text).sum := by
  induction earlier generalizing i with
  | nil =>
    cases h with
    | token _ hgap => exact hgap.strayReturns_eq.1
  | cons u us ih =>
    cases h with
    | token hle hgap hu hs =>
      obtain ⟨hulast, huslast⟩ := List.forall_mem_cons.1 hlast
      have hend : u.endOffset ≤ token.offset := hs.le_offset token (by simp)
      have hbegin : u.offset ≤ u.endOffset := Nat.le_add_right _ _
      have hsplit : t.excerpt i token.offset =
          t.excerpt i u.offset ++ (u.text ++ t.excerpt u.endOffset token.offset) := by
        rw [← hu.text_eq, t.excerpt_append hbegin hend,
          t.excerpt_append hle (Nat.le_trans hbegin hend)]
      obtain ⟨hstray, hgaplast⟩ := hgap.strayReturns_eq
      rw [hsplit, strayReturns_append hgaplast, hstray, Nat.zero_add, strayReturns_append hulast,
        ih hs huslast, List.map_cons, List.sum_cons]

/-! ## The line of a token -/

/-- A text that is lexed is its tokens with layout around them. -/
theorem partitioned_of_lex {t : Text} (h : unrecognized t = []) : Partitioned t 0 (tokens t) := by
  obtain ⟨k, hreach, hstuck⟩ := exists_reaches t 0
  have hlex : lex t = .ok (tokens t) := lex_eq_ok_iff.2 ⟨h, rfl⟩
  by_cases hend : t.drop k = []
  · obtain ⟨ts, hts, hpartitioned⟩ := lex_of_reaches_end hreach hend
    rw [hlex] at hts
    rwa [Except.ok.inj hts]
  · have hk : k < t.length := by rwa [List.drop_eq_nil_iff, Nat.not_le] at hend
    rw [lex_of_reaches_stuck hreach (List.getElem?_eq_getElem hk) hstuck] at hlex
    cases hlex

/-- No token begins with a line feed. -/
private theorem head?_drop_offset_ne {t : Text} {token : Token} (h : token ∈ tokens t) :
    (t.drop token.offset).head? ≠ some CodeUnit.lineFeed := by
  intro hhead
  obtain ⟨rest, hrest⟩ := List.head?_eq_some_iff.1 hhead
  have hfirst := (first?_of_mem_tokens h).1
  rw [hrest] at hfirst
  cases hfirst

section

variable {t : Text} {token : Token}

/-- A token begins where the units in front of it lead. -/
private theorem start_eq_after (hlex : unrecognized t = []) (h : token ∈ tokens t) :
    token.start = Position.first.after (t.take token.offset) := by
  have hbounds := Lexeme.first?_bounds (first?_of_mem_tokens h).1
  rw [List.length_drop] at hbounds
  rw [((partitioned_of_lex hlex).placedIn token h).start_eq]
  apply positionAt_eq_after (by omega)
  rw [← List.head?_drop]
  exact head?_drop_offset_ne h

/-- The line that a token begins on, counted by line feeds: what stands in front of the token, and
the first line from the token on. -/
private theorem getD_lines_offset (h : token ∈ tokens t) :
    t.lines.getD ((t.take token.offset).count CodeUnit.lineFeed) [] =
      lastLine (t.take token.offset) ++ firstLine (t.drop token.offset) := by
  have happend := getElem?_lines_append (s := t.take token.offset)
    fun _ => head?_drop_offset_ne h
  rw [List.take_append_drop] at happend
  rw [List.getD_eq_getElem?_getD, happend]
  rfl

/-- Up to its first line end a token stands on the first line from the token on. -/
private theorem takeWhile_text_prefix (h : token ∈ tokens t) :
    token.text.takeWhile (!·.isLineEnd) <+: firstLine (t.drop token.offset) := by
  have htext := (first?_of_mem_tokens h).2
  rw [← List.take_append_drop token.text.length (t.drop token.offset), ← htext]
  exact takeWhile_prefix_firstLine token.text _

end

/-- The number of stray carriage returns in the texts of some tokens. -/
def strayReturnsIn (ps : List SourceToken) : Nat := (ps.map fun p => strayReturns p.text).sum

/-- A token is handed out with a line that is as many lines below its own one as there are stray
carriage returns in earlier tokens, or with an empty text if there is no such line. If there are
none, the units in front of the token are as many as its column says, and behind them the token goes
on up to its first line end. -/
theorem tokenize_line {t : Text} {ps earlier later : List SourceToken} {p : SourceToken}
    (h : tokenize t = .ok ps) (hps : ps = earlier ++ p :: later) :
    ∃ n, p.start.line = n + strayReturnsIn earlier + 1 ∧
      p.text.takeWhile (!·.isLineEnd) <:+: t.lines.getD n [] ∧
      p.line = t.lines.getD (n + strayReturnsIn earlier) [] ∧
      (strayReturnsIn earlier = 0 →
        p.text.takeWhile (!·.isLineEnd) <+: p.line.drop (p.start.column - 1)) := by
  obtain ⟨hlex, hmap⟩ := tokenize_eq_ok_iff.1 h
  rw [hps] at hmap
  obtain ⟨us, vs, htokens, rfl, hlater⟩ := List.map_eq_append_iff.1 hmap
  obtain ⟨token, ws, rfl, rfl, -⟩ := List.map_eq_cons_iff.1 hlater
  have hmem : token ∈ tokens t := by
    rw [htokens]
    exact List.mem_append_right _ List.mem_cons_self
  have hearlier : strayReturnsIn (us.map (Token.withLine t.lines)) =
      strayReturns (t.take token.offset) := by
    have hpartitioned := partitioned_of_lex hlex
    rw [htokens] at hpartitioned
    have hexcerpt := hpartitioned.strayReturns_excerpt fun u hu =>
      getLast?_token_ne (t := t) (by rw [htokens]; exact List.mem_append_left _ hu)
    rw [excerpt, List.drop_zero, Nat.sub_zero] at hexcerpt
    rw [hexcerpt, strayReturnsIn, List.map_map]
    rfl
  rw [hearlier]
  have hstart := start_eq_after hlex hmem
  have hfirst : token.start.line = (t.take token.offset).count CodeUnit.lineFeed +
      strayReturns (t.take token.offset) + 1 := by
    have hline := Position.line_after Position.first (t.take token.offset)
    rw [← hstart] at hline
    have hone : Position.first.line = 1 := rfl
    omega
  have hhanded : (token.withLine t.lines).line =
      t.lines.getD ((t.take token.offset).count CodeUnit.lineFeed +
        strayReturns (t.take token.offset)) [] := by
    rw [Token.withLine, hfirst]
    rfl
  have hown := getD_lines_offset hmem
  have htext := takeWhile_text_prefix hmem
  refine ⟨_, hfirst, ?_, hhanded, ?_⟩
  · rw [hown]
    exact htext.isInfix.trans (List.suffix_append _ _).isInfix
  · intro hzero
    have hcolumn := Position.column_after Position.first hzero
    rw [← hstart, show Position.first.column = 1 from rfl, ite_self] at hcolumn
    rw [hhanded, hzero, Nat.add_zero, hown]
    show _ <+: List.drop (token.start.column - 1) _
    rw [hcolumn, Nat.add_sub_cancel_left, List.drop_left]
    exact htext

/-- Behind a literal with a stray carriage return the next line is handed out, or an empty text. -/
theorem tokenize_line_below :
    ∃ a b c, tokenize "'''\r'''\nNAME\nTOKEN" = .ok [a, b, c] ∧ b.text = "NAME" ∧
      b.start = ⟨3, 1⟩ ∧ strayReturnsIn [a] = 1 ∧ b.line = "TOKEN" ∧ c.line = [] ∧
      ∃ n, b.start.line = n + 1 + 1 ∧
        b.line = (Text.lines "'''\r'''\nNAME\nTOKEN").getD (n + 1) [] := by
  let a : SourceToken := ⟨.string, "'''\r'''", ⟨1, 1⟩, ⟨2, 3⟩, "'''\r'''"⟩
  let b : SourceToken := ⟨.name, "NAME", ⟨3, 1⟩, ⟨3, 4⟩, "TOKEN"⟩
  let c : SourceToken := ⟨.name, "TOKEN", ⟨4, 1⟩, ⟨4, 5⟩, []⟩
  have h : tokenize "'''\r'''\nNAME\nTOKEN" = .ok [a, b, c] := by decide +kernel
  have hstray : strayReturnsIn [a] = 1 := by decide
  have hsplit : [a, b, c] = [a] ++ b :: [c] := rfl
  obtain ⟨n, hstart, -, hline, -⟩ := tokenize_line h hsplit
  rw [hstray] at hstart hline
  exact ⟨a, b, c, h, rfl, rfl, hstray, rfl, rfl, n, hstart, hline⟩

end TreeMatcher
