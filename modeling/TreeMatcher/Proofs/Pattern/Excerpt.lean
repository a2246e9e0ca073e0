import TreeMatcher.Proofs.Pattern.Elements
import TreeMatcher.Proofs.Pattern.Scan

/-!
# Reading an excerpt of a text

An excerpt runs from the beginning of a token to the end of the same token or a later one. Read on
its own it gives just these tokens: what stands in front of a token does not change how it is read,
and a lexeme that ends within the excerpt is not changed by what is cut off behind it. That is not
plain for a quoted literal, where the closing marks are searched ahead as far as needed. A literal
that is closed stays closed by the same marks; three marks that nothing closes within the text are
not closed within the excerpt either.

* `Text.excerpt t i j` — the units of a text from one offset up to another.

## Main results

* `first?_of_append` — cutting a text behind a lexeme does not change the lexeme.
* `scans_excerpt` — an excerpt is read as the tokens that stand in it.
-/

namespace TreeMatcher

/-- The units of a text from the offset `i` up to and not including the offset `j`. -/
def Text.excerpt (t : Text) (i j : Nat) : Text := (t.drop i).take (j - i)

/-! ## Cutting behind a lexeme -/

/-- A run that ends within a text ends there when the text is cut. -/
private theorem Text.run_append_of_le {p : CodeUnit → Bool} {t u : Text}
    (h : run p (t ++ u) ≤ t.length) :
    run p t = run p (t ++ u) := by
  induction t with
  | nil => exact (Nat.le_zero.1 h).symm
  | cons c t ih =>
    rw [List.cons_append, run_cons] at h ⊢
    rw [run_cons]
    by_cases hc : p c
    · rw [if_pos hc] at h
      rw [if_pos hc, if_pos hc, ih (Nat.le_of_succ_le_succ h)]
    · rw [if_neg hc, if_neg hc]

/-- Closing marks within a text are found whether or not the text goes on. -/
theorem tripleBodyLength?_append {q : CodeUnit} {t : Text} (u : Text) {n : Nat}
    (hn : n ≤ t.length) :
    tripleBodyLength? q (t ++ u) = some n ↔ tripleBodyLength? q t = some n := by
  have short {v : Text} (hv : n ≤ 2) : tripleBodyLength? q v ≠ some n := fun h => by
    have := (tripleBodyLength?_bounds h).1
    omega
  fun_induction tripleBodyLength? q t generalizing n with
  | case1 => exact iff_of_false (short (Nat.le_trans hn (by simp))) (by simp)
  | case2 c => exact iff_of_false (short (Nat.le_trans hn (by simp))) (by simp)
  | case3 d rest ih =>
    rw [List.cons_append, List.cons_append, tripleBodyLength?, if_pos rfl,
      Option.map_eq_some_iff, Option.map_eq_some_iff]
    refine exists_congr fun m => and_congr_left ?_
    rintro rfl
    have hm : m ≤ rest.length := by simpa using hn
    exact ih hm fun hv h => absurd (tripleBodyLength?_bounds h).1 (by omega)
  | case4 c d rest hb hq =>
    obtain ⟨rest, rfl⟩ := List.head?_eq_some_iff.1 hq.2.2
    rw [List.cons_append, List.cons_append, tripleBodyLength?, if_neg hb,
      if_pos ⟨hq.1, hq.2.1, rfl⟩]
  | case5 c d rest hb hq ih =>
    cases rest with
    | nil => exact iff_of_false (short (Nat.le_trans hn (by simp))) (by simp [tripleBodyLength?])
    | cons e rest =>
      rw [List.cons_append, List.cons_append, List.cons_append, tripleBodyLength?, if_neg hb,
        if_neg (by simpa using hq), Option.map_eq_some_iff, Option.map_eq_some_iff]
      refine exists_congr fun m => and_congr_left ?_
      rintro rfl
      have hm : m ≤ (d :: e :: rest).length := Nat.le_of_succ_le_succ hn
      exact ih hm fun hv h => absurd (tripleBodyLength?_bounds h).1 (by omega)

/-- The same for a literal in single marks. -/
private theorem singleBodyLength?_append {q : CodeUnit} {t : Text} (u : Text) {n : Nat}
    (hn : n ≤ t.length) (h : singleBodyLength? q (t ++ u) = some n) :
    singleBodyLength? q t = some n := by
  fun_induction singleBodyLength? q t generalizing n with
  | case1 =>
    have := (singleBodyLength?_bounds h).1
    simp at hn
    omega
  | case2 =>
    cases u <;> simpa [singleBodyLength?] using h
  | case3 c hc =>
    exfalso
    have hn : n ≤ 1 := hn
    cases u with
    | nil => simp [singleBodyLength?, hc] at h
    | cons d u =>
      rw [List.cons_append, List.nil_append, singleBodyLength?, if_neg hc] at h
      split at h
      · split at h
        · cases h
        · obtain ⟨m, -, rfl⟩ := Option.map_eq_some_iff.1 h
          omega
      · split at h
        · cases h
        · obtain ⟨m, hm, rfl⟩ := Option.map_eq_some_iff.1 h
          have := (singleBodyLength?_bounds hm).1
          omega
  | case4 => simpa [singleBodyLength?] using h
  | case5 d rest hq hd => simp [singleBodyLength?, hq, hd] at h
  | case6 d rest hq hd ih =>
    rw [List.cons_append, List.cons_append, singleBodyLength?, if_neg hq, if_pos rfl,
      if_neg hd, Option.map_eq_some_iff] at h
    obtain ⟨m, hm, rfl⟩ := h
    rw [ih (by simpa using hn) hm, Option.map_some]
  | case7 c d rest hq hb hc => simp [singleBodyLength?, hq, hb, hc] at h
  | case8 c d rest hq hb hc ih =>
    rw [List.cons_append, List.cons_append, singleBodyLength?, if_neg hq, if_neg hb,
      if_neg hc, Option.map_eq_some_iff] at h
    obtain ⟨m, hm, rfl⟩ := h
    rw [ih (Nat.le_of_succ_le_succ hn) hm, Option.map_some]

private theorem tripleLength?_append {q : CodeUnit} {t : Text} (u : Text) {n : Nat}
    (hn : n ≤ t.length + 1) :
    tripleLength? q (t ++ u) = some n ↔ tripleLength? q t = some n := by
  rcases Nat.lt_or_ge n 6 with hshort | hlong
  · have no {v : Text} : tripleLength? q v ≠ some n := fun h => by
      have := (tripleLength?_bounds h).1
      omega
    exact iff_of_false no no
  · unfold tripleLength?
    rw [List.take_append_of_le_length (by omega), List.drop_append_of_le_length (by omega)]
    by_cases hq : t.take 2 = [q, q]
    · rw [if_pos hq, if_pos hq, Option.map_eq_some_iff, Option.map_eq_some_iff]
      refine exists_congr fun m => and_congr_left ?_
      rintro rfl
      exact tripleBodyLength?_append u (by simp; omega)
    · rw [if_neg hq, if_neg hq]

private theorem stringLength?_append {t : Text} (u : Text) {n : Nat} (hn : n ≤ t.length)
    (h : stringLength? (t ++ u) = some n) : stringLength? t = some n := by
  cases t with
  | nil =>
    have := (stringLength?_bounds h).1
    simp at hn
    omega
  | cons q t =>
    rw [List.cons_append, stringLength?] at h
    rw [stringLength?]
    split at h
    · next hq =>
      rw [if_pos hq]
      split at h
      · next m hm =>
        cases h
        rw [(tripleLength?_append u hn).1 hm]
      -- without closing marks in the whole text there are none in a part of it
      · next hnone =>
        obtain ⟨m, hm, rfl⟩ := Option.map_eq_some_iff.1 h
        have htriple : tripleLength? q t = none := by
          refine Option.eq_none_iff_forall_ne_some.2 fun k hk => ?_
          rw [(tripleLength?_append u (tripleLength?_bounds hk).2).2 hk] at hnone
          cases hnone
        rw [htriple, singleBodyLength?_append u (Nat.le_of_succ_le_succ hn) hm]
        rfl
    · cases h

namespace Lexeme

/-- A lexeme that ends within a text is read alike when the text is cut. -/
theorem first?_of_append {t u : Text} {l : Lexeme} {n : Nat} (hn : n ≤ t.length)
    (h : first? (t ++ u) = some (l, n)) : first? t = some (l, n) := by
  cases t with
  | nil =>
    have := first?_pos h
    simp at hn
    omega
  | cons c t =>
    have hrun {p : CodeUnit → Bool} (hp : Text.run p (t ++ u) + 1 = n) :
        Text.run p t = Text.run p (t ++ u) := by
      rw [← hp] at hn
      exact Text.run_append_of_le (Nat.le_of_succ_le_succ hn)
    rw [List.cons_append, first?] at h
    rw [first?]
    split at h
    · next hc =>
      cases h
      rw [if_pos hc, hrun rfl]
    next hblank =>
    rw [if_neg hblank]
    split at h
    · next hc =>
      cases h
      rw [if_pos hc, hrun rfl]
    next hhash =>
    rw [if_neg hhash]
    split at h
    · next hc =>
      cases h
      rw [if_pos hc]
    next hfeed =>
    rw [if_neg hfeed]
    split at h
    · next hc =>
      rw [if_pos hc]
      split at h
      · next hd =>
        cases h
        cases t with
        | nil => simp at hn
        | cons d t => rw [if_pos (by simpa using hd)]
      · cases h
    next hreturn =>
    rw [if_neg hreturn]
    split at h
    · next hc =>
      obtain ⟨m, hm, he⟩ := Option.map_eq_some_iff.1 h
      cases he
      rw [if_pos hc, stringLength?_append (t := c :: t) u hn hm]
      rfl
    next hquote =>
    rw [if_neg hquote]
    split at h
    · next hc =>
      cases h
      rw [if_pos hc, hrun rfl]
    next hdigit =>
    rw [if_neg hdigit]
    split at h
    · next hc =>
      cases h
      rw [if_pos hc, hrun rfl]
    next hname =>
    rw [if_neg hname]
    exact h

private theorem first?_take {t : Text} {l : Lexeme} {n k : Nat} (h : first? t = some (l, n))
    (hk : n ≤ k) : first? (t.take k) = some (l, n) := by
  refine first?_of_append (u := t.drop k) ?_ (by rwa [List.take_append_drop])
  have := first?_le_length h
  rw [List.length_take]
  omega

end Lexeme

/-! ## The pieces from a token on -/

namespace Piece

private theorem offset_le_of_mem {t : Text} {start : Position} {offset : Nat} {token : Token}
    (h : token ∈ (ofText t 0 start offset).filterMap token?) : offset ≤ token.offset := by
  obtain ⟨p, hp, htoken⟩ := List.mem_filterMap.1 h
  rw [(place_of_token? htoken).2]
  exact (order_ofText t start offset).1 p hp

/-- What stands in front of a token does not matter for the pieces from the token on. -/
private theorem exists_ofText_drop {t : Text} {start : Position} {offset : Nat}
    {before after : List Token} {token : Token}
    (h : (ofText t 0 start offset).filterMap token? = before ++ token :: after) :
    ∃ ps start', ofText t 0 start offset =
        ps ++ ofText (t.drop (token.offset - offset)) 0 start' token.offset ∧
      (ofText (t.drop (token.offset - offset)) 0 start' token.offset).filterMap token? =
        token :: after := by
  generalize hn : t.length = n
  induction n using Nat.strongRecOn generalizing t start offset before with
  | ind n ih =>
    cases t with
    | nil => simp [ofText] at h
    | cons c rest =>
      have hpos := first_text_length c rest start offset
      have hoffset := offset_first (c :: rest) start offset
      have hcons := ofText_cons c rest start offset
      generalize first (c :: rest) start offset = p at hpos hoffset hcons
      -- the token stands behind the first piece
      have behind {before' : List Token} (h' : (ofText ((c :: rest).drop p.text.length) 0 p.behind
            (offset + p.text.length)).filterMap token? = before' ++ token :: after) :
          ∃ ps start', ofText (c :: rest) 0 start offset =
              ps ++ ofText ((c :: rest).drop (token.offset - offset)) 0 start' token.offset ∧
            (ofText ((c :: rest).drop (token.offset - offset)) 0 start' token.offset).filterMap
              token? = token :: after := by
        have hle : offset + p.text.length ≤ token.offset :=
          offset_le_of_mem (by rw [h']; exact List.mem_append_right _ (List.mem_cons_self ..))
        obtain ⟨ps, start', hps, htokens⟩ := ih _ (by simp at hn ⊢; omega) h' rfl
        rw [List.drop_drop, show p.text.length + (token.offset - (offset + p.text.length)) =
          token.offset - offset by omega] at hps htokens
        exact ⟨p :: ps, start', by rw [hcons, hps, List.cons_append], htokens⟩
      have hfilter := h
      rw [hcons] at hfilter
      cases hp : p.token? with
      | none =>
        rw [List.filterMap_cons_none hp] at hfilter
        exact behind hfilter
      | some y =>
        rw [List.filterMap_cons_some hp] at hfilter
        cases before with
        | nil =>
          cases hfilter
          have hhere : token.offset - offset = 0 := by
            rw [(place_of_token? hp).2, hoffset, Nat.sub_self]
          rw [hhere, (place_of_token? hp).2, hoffset, List.drop_zero]
          exact ⟨[], start, rfl, h⟩
        | cons z before =>
          exact behind (List.cons.inj hfilter).2

/-- The first token of the pieces from its own place on is the first piece. -/
private theorem first?_of_token {t : Text} {start : Position} {token : Token} {after : List Token}
    (h : (ofText t 0 start token.offset).filterMap token? = token :: after) :
    Lexeme.first? t = some (.token token.kind, token.text.length) ∧
      token.text = t.take token.text.length := by
  cases t with
  | nil => cases h
  | cons c rest =>
    have hpos := first_text_length c rest start token.offset
    rw [ofText_cons] at h
    cases hp : (first (c :: rest) start token.offset).token? with
    | none =>
      rw [List.filterMap_cons_none hp] at h
      have hle := offset_le_of_mem (by rw [h]; exact List.mem_cons_self)
      omega
    | some y =>
      rw [List.filterMap_cons_some hp] at h
      rw [← (List.cons.inj h).1]
      unfold first at hp
      cases hl : Lexeme.first? (c :: rest) with
      | none =>
        rw [hl] at hp
        cases hp
      | some r =>
        obtain ⟨l, n⟩ := r
        rw [hl] at hp
        cases l with
        | token k =>
          cases hp
          have hlen : ((c :: rest).take n).length = n :=
            List.length_take_of_le (Lexeme.first?_le_length hl)
          rw [hlen]
          exact ⟨rfl, rfl⟩
        | _ => cases hp

end Piece

/-- Where a token of a text stands, a lexeme begins, and it is the token. -/
theorem first?_of_mem_tokens {t : Text} {token : Token} (h : token ∈ tokens t) :
    Lexeme.first? (t.drop token.offset) = some (.token token.kind, token.text.length) ∧
      token.text = (t.drop token.offset).take token.text.length := by
  obtain ⟨before, after, hsplit⟩ := List.append_of_mem h
  obtain ⟨ps, start, -, htokens⟩ := Piece.exists_ofText_drop hsplit
  exact Piece.first?_of_token htokens

/-! ## Reading an excerpt -/

/-- A text of lexemes begins with one, unless it is empty. -/
theorem Piece.eq_nil_of_first? {t : Text} {start : Position} {offset : Nat}
    (hlex : ∀ p ∈ ofText t 0 start offset, p.isUnrecognized = false)
    (h : Lexeme.first? t = none) : t = [] := by
  cases t with
  | nil => rfl
  | cons c rest =>
    have hunread := hlex (first (c :: rest) start offset) (by simp [ofText_cons])
    rw [first, h] at hunread
    cases hunread

section

variable {t : Text} {l : Lexeme} {n k : Nat} {ts : List (TokenKind × Text)}

/-- Layout in front of the cut is skipped. -/
private theorem Scans.skip_take (h : Lexeme.first? t = some (l, n)) (hl : ∀ k, l ≠ .token k)
    (hk : n ≤ k) (hs : Scans ((t.drop n).take (k - n)) ts []) : Scans (t.take k) ts [] :=
  .skip (Lexeme.first?_take h hk) hl (by rwa [List.drop_take])

/-- A word in front of the cut is read. -/
private theorem Scans.word_take {kind : TokenKind} (h : Lexeme.first? t = some (.token kind, n))
    (hk : n ≤ k) (hs : Scans ((t.drop n).take (k - n)) ts []) :
    Scans (t.take k) ((kind, t.take n) :: ts) [] := by
  have hword := Scans.word (Lexeme.first?_take h hk) (by rwa [List.drop_take])
  rwa [List.take_take, Nat.min_eq_left hk] at hword

end

/-- Cut behind one of its tokens, a text of lexemes is read as the tokens up to there. -/
private theorem scans_take {t : Text} {start : Position} {offset : Nat} {upTo after : List Token}
    {last : Token} (hlex : ∀ p ∈ Piece.ofText t 0 start offset, p.isUnrecognized = false)
    (h : (Piece.ofText t 0 start offset).filterMap Piece.token? = upTo ++ after)
    (hlast : last ∈ upTo.getLast?) :
    Scans (t.take (last.offset + last.text.length - offset)) (upTo.map Token.bare) [] := by
  generalize hn : t.length = n
  induction n using Nat.strongRecOn generalizing t start offset upTo with
  | ind n ih =>
    cases hfirst : Lexeme.first? t with
    | none =>
      obtain rfl := Piece.eq_nil_of_first? hlex hfirst
      obtain ⟨rfl, -⟩ := List.append_eq_nil_iff.1 h.symm
      cases hlast
    | some r =>
      obtain ⟨l, n'⟩ := r
      obtain ⟨behind, hcons⟩ := Piece.exists_ofText_cons hfirst start offset
      rw [hcons, List.forall_mem_cons] at hlex
      have hpos := Lexeme.first?_bounds hfirst
      have hlt : (t.drop n').length < n := by
        rw [List.length_drop]
        omega
      -- what is left behind the first piece, when the last token stands there
      have later {us : List Token} (hlast' : last ∈ us.getLast?)
          (h' : (Piece.ofText (t.drop n') 0 behind (offset + n')).filterMap Piece.token? =
            us ++ after) :
          n' ≤ last.offset + last.text.length - offset ∧
            Scans ((t.drop n').take (last.offset + last.text.length - offset - n'))
              (us.map Token.bare) [] := by
        have hmem : last ∈ us ++ after := List.mem_append_left _ (List.mem_of_mem_getLast? hlast')
        have hle := Piece.offset_le_of_mem (h' ▸ hmem)
        rw [Nat.sub_sub]
        exact ⟨by omega, ih _ hlt hlex.2 h' hlast' rfl⟩
      rw [hcons] at h
      cases hl : Piece.token? ⟨some l, t.take n', start, offset⟩ with
      | none =>
        rw [List.filterMap_cons_none hl] at h
        obtain ⟨hle, hs⟩ := later hlast h
        refine .skip_take hfirst ?_ hle hs
        rintro k rfl
        cases hl
      | some token =>
        rw [List.filterMap_cons_some hl] at h
        obtain ⟨k, rfl⟩ : ∃ k, l = .token k := by
          cases l with
          | token k => exact ⟨k, rfl⟩
          | _ => cases hl
        cases hl
        cases upTo with
        | nil => cases hlast
        | cons u us =>
          obtain ⟨rfl, hrest⟩ := List.cons.inj h
          cases us with
          | cons v us =>
            obtain ⟨hle, hs⟩ := later (by simpa using hlast) hrest
            exact .word_take hfirst hle hs
          | nil =>
            rw [List.getLast?_singleton, Option.mem_some_iff] at hlast
            subst hlast
            have hcut : offset + (t.take n').length - offset = n' := by
              rw [Nat.add_sub_cancel_left, List.length_take_of_le hpos.2]
            refine .word_take hfirst (Nat.le_of_eq hcut.symm) ?_
            rw [hcut, Nat.sub_self, List.take_zero]
            exact .done

/-- An excerpt from one token of a text to the same or a later one is read as the tokens that stand
in it. -/
theorem scans_excerpt {source : Text} (hu : unrecognized source = [])
    {before within after : List Token} (h : tokens source = before ++ (within ++ after))
    {first last : Token}
    (hfirst : first ∈ within.head?) (hlast : last ∈ within.getLast?) :
    Scans (source.excerpt first.offset (last.offset + last.text.length))
      (within.map Token.bare) [] := by
  obtain ⟨us, rfl⟩ := List.head?_eq_some_iff.1 hfirst
  obtain ⟨ps, start, hps, htokens⟩ := Piece.exists_ofText_drop h
  rw [Nat.sub_zero] at hps htokens
  refine scans_take (fun p hp => ?_) htokens hlast
  have hmem : p ∈ pieces source := by
    rw [pieces, hps]
    exact List.mem_append_right _ hp
  rw [unrecognized, List.filter_eq_nil_iff] at hu
  simpa using hu p hmem

end TreeMatcher
