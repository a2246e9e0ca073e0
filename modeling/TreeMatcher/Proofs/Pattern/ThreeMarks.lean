import Mathlib.Order.Nat
import TreeMatcher.Proofs.Pattern.LiteralPattern
import TreeMatcher.Proofs.Pattern.Partition

/-!
# Three marks in a row

Where three equal marks stand, a literal in three marks may begin, or the empty literal in front of
a third mark. What follows decides. A scan goes on behind the three marks, unit by unit, and takes a
backslash together with the unit behind it. If it comes to three marks again the literal ends behind
the first such marks, although the regular expression could try to leave one or two of a longer run
to its body, or to close with the marks behind a backslash. If the scan comes to none, no way to
match a literal in three marks is left, and the lexer takes the first two marks and goes on at the
third.

* `SkipsTo t i k` — the scan comes from the offset `i` to the offset `k`.
* `closings q t i` — the offsets at which it comes to three marks.
* `LiteralAt t o form e` — a literal of a form is matched, and lexed, from the offset `o` to `e`.

## Main results

* `tripleBodyLength?_drop_iff` — the body of a literal goes up to the first closing marks.
* `Piece.eq_first_of_split` — what a piece is, and how lexing goes on, depends on its offset alone.
* `literal_at_three_marks` — the literal that begins where three marks stand.
-/

namespace TreeMatcher

/-! ## The scan -/

/-- `SkipsTo t i k`: a scan of `t` that goes unit by unit, but takes a backslash together with the
unit behind it, comes from the offset `i` to the offset `k`. -/
inductive SkipsTo (t : Text) : Nat → Nat → Prop where
  | here {i : Nat} : SkipsTo t i i
  | unit {i k : Nat} {c : CodeUnit} (hi : t[i]? = some c) (hc : c ≠ CodeUnit.backslash)
      (h : SkipsTo t (i + 1) k) : SkipsTo t i k
  | escaped {i k : Nat} {d : CodeUnit} (hi : t[i]? = some CodeUnit.backslash)
      (hd : t[i + 1]? = some d) (h : SkipsTo t (i + 2) k) : SkipsTo t i k

/-- The offsets at which a scan from the offset `i` on comes to three marks. -/
def closings (q : CodeUnit) (t : Text) (i : Nat) : Set Nat :=
  {k | SkipsTo t i k ∧ t.excerpt k (k + 3) = [q, q, q]}

section

variable {q : CodeUnit} {t : Text} {i k n : Nat}

private theorem SkipsTo.le (h : SkipsTo t i k) : i ≤ k := by
  induction h with
  | here => exact Nat.le_refl _
  | unit _ _ _ ih => omega
  | escaped _ _ _ ih => omega

private theorem drop_eq_cons_iff {c : CodeUnit} {u : Text} :
    t.drop i = c :: u ↔ t[i]? = some c ∧ t.drop (i + 1) = u := by
  rw [← List.head?_drop, ← List.tail_drop]
  cases t.drop i <;> simp

/-- Three marks at an offset, and what stands behind them. -/
private theorem drop_eq_marks (h : t.excerpt i (i + 3) = [q, q, q]) :
    t.drop i = q :: q :: q :: t.drop (i + 3) := by
  rw [Text.excerpt_add] at h
  rw [← List.take_append_drop 3 (t.drop i), h, List.drop_drop]
  rfl

/-- Up to the first closing marks the scan does what the lexer does: both pass over the same units.
The induction is on the scan; at each of its steps there are no three marks, since these would be
closing marks in front of the first. -/
private theorem SkipsTo.tripleBodyLength?_eq (h : SkipsTo t i k)
    (hleast : k ∈ lowerBounds (closings q t i)) :
    tripleBodyLength? q (t.drop i) = (tripleBodyLength? q (t.drop k)).map (· + (k - i)) := by
  induction h with
  | @here i => rw [Nat.sub_self]; simp
  | @unit i k c hi hc h ih =>
    have hle := h.le
    have hdrop := drop_eq_cons_iff.2 ⟨hi, rfl⟩
    have hmarks : (c :: t.drop (i + 1)).take 3 ≠ [q, q, q] := by
      intro hmarks
      have hclosing : i ∈ closings q t i := ⟨.here, by rw [Text.excerpt_add, hdrop, hmarks]⟩
      have := hleast hclosing
      omega
    have hrest := ih fun j hj => hleast ⟨.unit hi hc hj.1, hj.2⟩
    rw [hdrop, tripleBodyLength?_unit hc hmarks, hrest, Option.map_map]
    congr 1
    funext m
    show m + (k - (i + 1)) + 1 = m + (k - i)
    omega
  | @escaped i k d hi hd h ih =>
    have hle := h.le
    have hrest := ih fun j hj => hleast ⟨.escaped hi hd hj.1, hj.2⟩
    have hdrop := drop_eq_cons_iff.2 ⟨hi, drop_eq_cons_iff.2 ⟨hd, rfl⟩⟩
    rw [hdrop, tripleBodyLength?_escaped, hrest, Option.map_map]
    congr 1
    funext m
    show m + (k - (i + 2)) + 2 = m + (k - i)
    omega

/-- Where the lexer finds the end of a body, the scan comes to closing marks. -/
private theorem closings_nonempty (h : tripleBodyLength? q (t.drop i) = some n) :
    (closings q t i).Nonempty := by
  generalize hu : t.drop i = u at h
  fun_induction tripleBodyLength? q u generalizing i n with
  | case1 => cases h
  | case2 => cases h
  | case3 d rest ih =>
    obtain ⟨hi, hu⟩ := drop_eq_cons_iff.1 hu
    obtain ⟨hd, hu⟩ := drop_eq_cons_iff.1 hu
    obtain ⟨m, hm, -⟩ := Option.map_eq_some_iff.1 h
    obtain ⟨k, hk, hmarks⟩ := ih hu hm
    exact ⟨k, .escaped hi hd hk, hmarks⟩
  | case4 c d rest _ hmarks =>
    obtain ⟨rfl, rfl, hd⟩ := hmarks
    obtain ⟨u, rfl⟩ := List.head?_eq_some_iff.1 hd
    exact ⟨i, .here, by rw [Text.excerpt_add, hu]; rfl⟩
  | case5 c d rest hc _ ih =>
    obtain ⟨hi, hu⟩ := drop_eq_cons_iff.1 hu
    obtain ⟨m, hm, -⟩ := Option.map_eq_some_iff.1 h
    obtain ⟨k, hk, hmarks⟩ := ih hu hm
    exact ⟨k, .unit hi hc hk, hmarks⟩

private theorem exists_isLeast_closings (h : (closings q t i).Nonempty) :
    ∃ k, IsLeast (closings q t i) k := by
  classical
  exact ⟨_, h.isLeast_natFind⟩

/-- The scan for closing marks stops behind the first of them. -/
private theorem tripleBodyLength?_of_isLeast (hq : CodeUnit.backslash ≠ q)
    (h : IsLeast (closings q t i) k) :
    tripleBodyLength? q (t.drop i) = some (3 + (k - i)) := by
  obtain ⟨⟨hscan, hmarks⟩, hleast⟩ := h
  rw [hscan.tripleBodyLength?_eq hleast, drop_eq_marks hmarks, tripleBodyLength?_marks hq]
  rfl

/-- The body of a literal goes up to the first closing marks. -/
theorem tripleBodyLength?_drop_iff (hq : CodeUnit.backslash ≠ q) :
    tripleBodyLength? q (t.drop i) = some n ↔
      ∃ k, IsLeast (closings q t i) k ∧ n = 3 + (k - i) := by
  constructor
  · intro h
    obtain ⟨k, hk⟩ := exists_isLeast_closings (closings_nonempty h)
    exact ⟨k, hk, Option.some.inj (h.symm.trans (tripleBodyLength?_of_isLeast hq hk))⟩
  · intro h
    obtain ⟨k, hk, rfl⟩ := h
    exact tripleBodyLength?_of_isLeast hq hk

/-- There is no body if the scan comes to no closing marks. -/
private theorem closings_eq_empty_iff (hq : CodeUnit.backslash ≠ q) :
    closings q t i = ∅ ↔ tripleBodyLength? q (t.drop i) = none := by
  constructor
  · intro h
    rw [Option.eq_none_iff_forall_ne_some]
    intro n hn
    exact (closings_nonempty hn).ne_empty h
  · intro h
    rw [← Set.not_nonempty_iff_eq_empty]
    intro hne
    obtain ⟨k, hk⟩ := exists_isLeast_closings hne
    cases h.symm.trans (tripleBodyLength?_of_isLeast hq hk)

end

/-! ## The form of a literal at three marks -/

section

variable {q : CodeUnit} {rest : Text} {n : Nat}

/-- The empty literal, if no literal in three marks begins. -/
private theorem stringLength?_threeMarks (hq : q.isQuote) (rest : Text) :
    stringLength? (q :: q :: q :: rest) =
      ((tripleBodyLength? q rest).map (· + 3)).or (some 2) := by
  have hmarks : tripleLength? q (q :: q :: rest) = (tripleBodyLength? q rest).map (· + 3) :=
    if_pos rfl
  rw [stringLength?, if_pos hq, hmarks, singleBodyLength?_mark]
  cases tripleBodyLength? q rest <;> rfl

/-- Of the literals that begin at three marks, only the empty one is in single marks. -/
private theorem LiteralForm.of_length?_threeMarks {f : LiteralForm}
    (h : f.length? (q :: q :: q :: rest) = some n) :
    f.mark = q ∧ f.tripled = (n != 2) := by
  rw [length?_cons] at h
  split at h
  · next hmark =>
    refine ⟨hmark.symm, ?_⟩
    split at h
    · next htripled =>
      have hlong := (tripleLength?_bounds h).1
      rw [htripled, bne_iff_ne.2 (by omega)]
    · next hsingle =>
      rw [singleBodyLength?_mark] at h
      obtain rfl : 2 = n := Option.some.inj h
      simpa using hsingle
  · cases h

private theorem Lexeme.first?_of_isQuote (hq : q.isQuote) (rest : Text) :
    first? (q :: rest) = (stringLength? (q :: rest)).map fun n => (.token .string, n) := by
  rw [CodeUnit.isQuote, Bool.or_eq_true, beq_iff_eq, beq_iff_eq] at hq
  rcases hq with rfl | rfl <;> rfl

end

namespace Piece

/-- What a piece is depends on the text from its offset on, and so do the pieces behind it. -/
theorem eq_first_of_split {t : Text} {start : Position} {offset : Nat} {earlier later : List Piece}
    {p : Piece} (h : ofText t 0 start offset = earlier ++ p :: later) :
    offset ≤ p.offset ∧ p = first (t.drop (p.offset - offset)) p.start p.offset ∧
      later = ofText (t.drop (p.offset - offset + p.text.length)) 0 p.behind
        (p.offset + p.text.length) := by
  induction earlier generalizing t start offset with
  | nil =>
    cases t with
    | nil => cases h
    | cons c rest =>
      rw [ofText_cons] at h
      obtain ⟨rfl, rfl⟩ := List.cons.inj h
      rw [offset_first, first_start, Nat.sub_self, List.drop_zero, Nat.zero_add]
      exact ⟨Nat.le_refl _, rfl, rfl⟩
  | cons q earlier ih =>
    cases t with
    | nil => cases h
    | cons c rest =>
      rw [ofText_cons, List.cons_append] at h
      obtain ⟨-, hrest⟩ := List.cons.inj h
      obtain ⟨hle, hp, hlater⟩ := ih hrest
      generalize (first (c :: rest) start offset).text.length = n at hle hp hlater
      have hshift : n + (p.offset - (offset + n)) = p.offset - offset := by omega
      rw [List.drop_drop, hshift] at hp
      rw [List.drop_drop, ← Nat.add_assoc, hshift] at hlater
      exact ⟨by omega, hp, hlater⟩

end Piece

/-! ## Literals at three marks -/

/-- `LiteralAt t o form e`: at the offset `o` the regular expression of a literal matches up to the
offset `e`, by this form and none in front of it, and no way to match the form ends elsewhere. Where
lexing comes to `o`, the units up to `e` are one literal, and lexing goes on at `e`. -/
structure LiteralAt (t : Text) (o : Nat) (form : LiteralForm) (e : Nat) : Prop where
  behind : literalPattern.behind? (t.drop o) = some (t.drop e)
  matched : matchedForm? (t.drop o) = some (form, t.drop e)
  ends : ∀ rest ∈ form.pattern.rests (t.drop o), rest = t.drop e
  lexed : ∀ earlier p later, pieces t = earlier ++ p :: later → p.offset = o →
    p.token? = some ⟨.string, t.excerpt o e, p.start, o⟩ ∧
      later = Piece.ofText (t.drop e) 0 p.behind e

section

variable {q : CodeUnit} {t : Text} {o n : Nat}

/-- Where the lexer finds a literal, the pieces go on behind it. -/
private theorem lexed_of_first? {earlier later : List Piece} {p : Piece} {k : TokenKind}
    (hfirst : Lexeme.first? (t.drop o) = some (.token k, n))
    (h : pieces t = earlier ++ p :: later) (ho : p.offset = o) :
    p.token? = some ⟨k, t.excerpt o (o + n), p.start, o⟩ ∧
      later = Piece.ofText (t.drop (o + n)) 0 p.behind (o + n) := by
  obtain ⟨-, hp, hlater⟩ := Piece.eq_first_of_split h
  rw [ho, Nat.sub_zero] at hp hlater
  have hpiece : p = ⟨some (.token k), t.excerpt o (o + n), p.start, o⟩ := by
    rw [Piece.first, hfirst] at hp
    rwa [Text.excerpt_add]
  have hlength : p.text.length = n := by
    rw [hpiece, Text.excerpt_add]
    exact List.length_take_of_le (Lexeme.first?_le_length hfirst)
  rw [hlength] at hlater
  refine ⟨?_, hlater⟩
  rw [hpiece]
  rfl

/-- The literal that begins where three marks stand, from its length: in three marks, unless it is
the empty literal. -/
private theorem literalAt_of_stringLength? (hq : q.isQuote)
    (hmarks : t.excerpt o (o + 3) = [q, q, q])
    (h : stringLength? (t.drop o) = some n) {tripled : Bool} (hn : tripled = (n != 2)) :
    LiteralAt t o ⟨q, tripled, hq⟩ (o + n) := by
  have hdrop := drop_eq_marks hmarks
  obtain ⟨f, hmatched, hlength⟩ := exists_matchedForm? h
  have hform : f = ⟨q, tripled, hq⟩ := by
    rw [hdrop] at hlength
    obtain ⟨hmark, htripled⟩ := LiteralForm.of_length?_threeMarks hlength
    rw [← hn] at htripled
    cases f
    cases hmark
    cases htripled
    rfl
  rw [List.drop_drop] at hmatched
  rw [hform] at hmatched hlength
  exact {
    behind := by rw [behind?_literalPattern, h, Option.map_some, List.drop_drop]
    matched := hmatched
    ends := by
      intro rest hrest
      rw [LiteralForm.mem_rests_pattern, hlength, Option.map_some, List.drop_drop] at hrest
      exact (Option.some.inj hrest).symm
    lexed := by
      intro earlier p later hpieces ho
      apply lexed_of_first? _ hpieces ho
      rw [hdrop, Lexeme.first?_of_isQuote hq, ← hdrop, h]
      rfl }

/-- Where three marks stand, a literal in three marks is matched if and only if a scan from behind
them, which takes a backslash together with the unit behind it, comes to three such marks again. The
literal then ends behind the first of these. If there are none, the literal is the empty one in
single marks, and lexing goes on at the third mark. -/
theorem literal_at_three_marks (hq : q.isQuote) (hmarks : t.excerpt o (o + 3) = [q, q, q]) :
    ((∃ form rest, matchedForm? (t.drop o) = some (form, rest) ∧ form.tripled) ↔
        (closings q t (o + 3)).Nonempty) ∧
      (∀ k, IsLeast (closings q t (o + 3)) k → LiteralAt t o ⟨q, true, hq⟩ (k + 3)) ∧
      (closings q t (o + 3) = ∅ → LiteralAt t o ⟨q, false, hq⟩ (o + 2)) := by
  have hstring : stringLength? (t.drop o) =
      ((tripleBodyLength? q (t.drop (o + 3))).map (· + 3)).or (some 2) := by
    rw [drop_eq_marks hmarks, stringLength?_threeMarks hq]
  have hmark := LiteralForm.backslash_ne_mark ⟨q, true, hq⟩
  have hclosed : ∀ k, IsLeast (closings q t (o + 3)) k → LiteralAt t o ⟨q, true, hq⟩ (k + 3) := by
    intro k hk
    have hle := hk.1.1.le
    rw [tripleBodyLength?_of_isLeast hmark hk] at hstring
    have hlong : 3 + (k - (o + 3)) + 3 ≠ 2 := by omega
    have hliteral := literalAt_of_stringLength? hq hmarks hstring (bne_iff_ne.2 hlong).symm
    rwa [show o + (3 + (k - (o + 3)) + 3) = k + 3 by omega] at hliteral
  have hunclosed : closings q t (o + 3) = ∅ → LiteralAt t o ⟨q, false, hq⟩ (o + 2) := by
    intro hnone
    rw [(closings_eq_empty_iff hmark).1 hnone] at hstring
    exact literalAt_of_stringLength? hq hmarks hstring rfl
  refine ⟨⟨?_, ?_⟩, hclosed, hunclosed⟩
  · intro h
    obtain ⟨form, rest, hmatched, htripled⟩ := h
    rw [Set.nonempty_iff_ne_empty]
    intro hnone
    have hsingle := (hunclosed hnone).matched
    rw [hmatched] at hsingle
    cases hsingle
    cases htripled
  · intro h
    obtain ⟨k, hk⟩ := exists_isLeast_closings h
    exact ⟨_, _, (hclosed k hk).matched, rfl⟩

end

/-- A literal in three marks with an escaped mark and five marks at its end, of which the last two
are a literal of their own, and three marks that nothing closes. -/
theorem literal_at_three_marks_twice :
    let t : Text := "'''a\\'''''' '''b"
    ∃ hq : CodeUnit.singleQuote.isQuote, (pieces t).map Piece.offset = [0, 9, 11, 12, 14, 15] ∧
      IsLeast (closings CodeUnit.singleQuote t 3) 6 ∧
      LiteralAt t 0 ⟨CodeUnit.singleQuote, true, hq⟩ 9 ∧
      closings CodeUnit.singleQuote t 15 = ∅ ∧
      LiteralAt t 12 ⟨CodeUnit.singleQuote, false, hq⟩ 14 := by
  intro t
  have hq : CodeUnit.singleQuote.isQuote := by decide
  have hmark : CodeUnit.backslash ≠ CodeUnit.singleQuote := by decide
  have hleast : IsLeast (closings CodeUnit.singleQuote t 3) 6 := by
    have hbody : tripleBodyLength? CodeUnit.singleQuote (t.drop 3) = some 6 := by decide
    obtain ⟨k, hk, hlength⟩ := (tripleBodyLength?_drop_iff hmark).1 hbody
    have hle := hk.1.1.le
    rwa [show k = 6 by omega] at hk
  have hnone : closings CodeUnit.singleQuote t 15 = ∅ :=
    (closings_eq_empty_iff hmark).2 (by decide)
  have hclosed := literal_at_three_marks (t := t) (o := 0) hq (by decide)
  have hunclosed := literal_at_three_marks (t := t) (o := 12) hq (by decide)
  exact ⟨hq, by decide, hleast, hclosed.2.1 6 hleast, hnone, hunclosed.2.2 hnone⟩

end TreeMatcher
