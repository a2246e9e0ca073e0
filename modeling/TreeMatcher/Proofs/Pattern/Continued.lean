import TreeMatcher.Proofs.Pattern.Escapes
import TreeMatcher.Proofs.Pattern.Excerpt
import TreeMatcher.Proofs.Pattern.Layout

/-!
# Reading a text that goes on

Where a line break follows, every lexeme of a text ends where it ended: a run of blanks, of digits
or of a name, and a comment as well. A quoted literal that is closed stays closed by the same marks.
But three marks that are never closed are read as an empty literal and a mark, and marks further on
could close them; so no quote mark may follow.

* `Quoteless u` — there is no quote mark in a text.

## Main results

* `first?_append` — a lexeme is the same in front of a line break and a text without quote marks.
* `scans_append` — a text is read as its tokens up to there.
* `scans_enclosed` — so it is between two marks, the closing one on a line of its own.
-/

namespace TreeMatcher

/-- There is no quote mark in a text. -/
def Quoteless (u : Text) : Prop := ∀ c ∈ u, c.isQuote = false

instance (u : Text) : Decidable (Quoteless u) :=
  decidable_of_iff (u.all fun c => !c.isQuote) (by simp [Quoteless])

theorem Quoteless.append {t u : Text} (ht : Quoteless t) (hu : Quoteless u) :
    Quoteless (t ++ u) :=
  fun c hc => (List.mem_append.1 hc).elim (ht c) (hu c)

private theorem quoteless_mark {k : TokenKind} {m : CodeUnit} (h : k.mark? = some m) :
    Quoteless [m] := by
  cases k <;> cases h <;> decide

private theorem Quoteless.ne {u : Text} (hu : Quoteless u) {q c : CodeUnit} (hq : q.isQuote)
    (hc : c ∈ u) :
    c ≠ q := by
  rintro rfl
  rw [hu c hc] at hq
  cases hq

/-! ## Runs and literals -/

/-- A run does not go on where a unit outside the class follows. -/
private theorem Text.run_append {p : CodeUnit → Bool} {u : Text} (hu : ∀ c ∈ u.head?, p c = false)
    (t : Text) : run p (t ++ u) = run p t := by
  induction t with
  | nil => exact run_append_of_stop p [] u (by simp) hu
  | cons c t ih => rw [List.cons_append, run_cons, run_cons, ih]

section

variable {q : CodeUnit} {t u : Text} {n : Nat}

/-- The beginning of two texts in a row ends within the first one if it ends with a unit that the
second one does not have. -/
private theorem le_length_of_take (hu : ∀ c ∈ u, c ≠ q) {body : Text} (hn : n ≤ (t ++ u).length)
    (h : (t ++ u).take n = body ++ [q]) : n ≤ t.length := by
  apply Nat.le_of_not_lt
  intro hlong
  rw [List.length_append] at hn
  rw [List.take_append, List.take_of_length_le (by omega)] at h
  have hlast := congrArg List.getLast? h
  rw [List.getLast?_append, List.getLast?_concat] at hlast
  cases hend : (u.take (n - t.length)).getLast? with
  | none =>
    have hlen := congrArg List.length (List.getLast?_eq_none_iff.1 hend)
    rw [List.length_take, List.length_nil] at hlen
    omega
  | some c =>
    rw [hend] at hlast
    exact hu c (List.mem_of_mem_take (List.mem_of_getLast? hend)) (Option.some.inj hlast)

/-- Without the mark, a text behind a literal in three marks does not close it. -/
private theorem tripleBodyLength?_continued (hu : ∀ c ∈ u, c ≠ q) :
    tripleBodyLength? q (t ++ u) = tripleBodyLength? q t := by
  apply Option.ext
  intro n
  -- A literal that ended behind `t` would end with a mark of `u`, which has none.
  rcases Nat.lt_or_ge t.length n with hlong | hshort
  · apply iff_of_false
    · intro h
      obtain ⟨body, hbody⟩ := exists_take_tripleBody h
      have hle := le_length_of_take hu (tripleBodyLength?_bounds h).2
        (show (t ++ u).take n = (body ++ [q, q]) ++ [q] by rw [hbody]; simp)
      omega
    · intro h
      have := (tripleBodyLength?_bounds h).2
      omega
  · exact tripleBodyLength?_append u hshort

/-- A literal in single marks that is closed stays so. -/
private theorem singleBodyLength?_continued (u : Text) (h : singleBodyLength? q t = some n) :
    singleBodyLength? q (t ++ u) = some n := by
  fun_induction singleBodyLength? q t generalizing n with
  | case1 => cases h
  | case2 =>
    cases u <;> simpa [singleBodyLength?] using h
  | case3 => cases h
  | case4 => simpa [singleBodyLength?] using h
  | case5 => cases h
  | case6 d rest hq hd ih =>
    obtain ⟨m, hm, rfl⟩ := Option.map_eq_some_iff.1 h
    rw [List.cons_append, List.cons_append, singleBodyLength?, if_neg hq, if_pos rfl, if_neg hd,
      ih hm]
    rfl
  | case7 => cases h
  | case8 c d rest hq hb hc ih =>
    obtain ⟨m, hm, rfl⟩ := Option.map_eq_some_iff.1 h
    rw [List.cons_append, List.cons_append, singleBodyLength?, if_neg hq, if_neg hb, if_neg hc,
      ← List.cons_append, ih hm]
    rfl

private theorem tripleLength?_continued (hu : ∀ c ∈ u, c ≠ q) :
    tripleLength? q (t ++ u) = tripleLength? q t := by
  unfold tripleLength?
  by_cases htwo : 2 ≤ t.length
  · rw [List.take_append_of_le_length htwo, List.drop_append_of_le_length htwo,
      tripleBodyLength?_continued hu]
  · have hlonger : (t ++ u).take 2 ≠ [q, q] := by
      intro h
      have hlen := congrArg List.length h
      rw [List.length_take, List.length_cons, List.length_singleton] at hlen
      exact htwo (le_length_of_take hu (by omega) (show (t ++ u).take 2 = [q] ++ [q] from h))
    have hshorter : t.take 2 ≠ [q, q] := by
      intro h
      have hlen := congrArg List.length h
      rw [List.length_take, List.length_cons, List.length_singleton] at hlen
      omega
    rw [if_neg hlonger, if_neg hshorter]

private theorem stringLength?_continued (hu : Quoteless u) (h : stringLength? t = some n) :
    stringLength? (t ++ u) = some n := by
  cases t with
  | nil => cases h
  | cons q t =>
    rw [stringLength?] at h
    rw [List.cons_append, stringLength?]
    split at h
    · next hq =>
      rw [if_pos hq, tripleLength?_continued fun c hc => hu.ne hq hc]
      split at h
      · next hm => exact h
      · next hnone =>
        obtain ⟨m, hm, rfl⟩ := Option.map_eq_some_iff.1 h
        rw [singleBodyLength?_continued u hm]
        rfl
    · cases h

end

/-! ## Lexemes -/

namespace Lexeme

/-- A lexeme of a text is the same where a line break and a text without quote marks follow. -/
theorem first?_append {t u : Text} {l : Lexeme} {n : Nat} (hu : Quoteless u)
    (h : first? t = some (l, n)) : first? (t ++ CodeUnit.lineFeed :: u) = some (l, n) := by
  have hfeed : Quoteless [CodeUnit.lineFeed] := by decide
  have hquoteless : Quoteless (CodeUnit.lineFeed :: u) := hfeed.append hu
  cases t with
  | nil => cases h
  | cons c t =>
    -- No run goes on over a line break, so only quoted literals look at what follows.
    have hrun {p : CodeUnit → Bool} (hp : p CodeUnit.lineFeed = false) :
        Text.run p (t ++ CodeUnit.lineFeed :: u) = Text.run p t :=
      Text.run_append (by simpa using hp) t
    rw [first?] at h
    rw [List.cons_append, first?, hrun rfl, hrun rfl, hrun rfl, hrun rfl]
    split at h
    · next hblank => rw [if_pos hblank, h]
    next hblank =>
    rw [if_neg hblank]
    split at h
    · next hhash => rw [if_pos hhash, h]
    next hhash =>
    rw [if_neg hhash]
    split at h
    · next hfeed => rw [if_pos hfeed, h]
    next hfeed =>
    rw [if_neg hfeed]
    split at h
    · next hreturn =>
      rw [if_pos hreturn]
      split at h
      · next hnext =>
        obtain ⟨rest, rfl⟩ := List.head?_eq_some_iff.1 hnext
        rw [List.cons_append, if_pos List.head?_cons, h]
      · cases h
    next hreturn =>
    rw [if_neg hreturn]
    split at h
    · next hquote =>
      obtain ⟨m, hm, heq⟩ := Option.map_eq_some_iff.1 h
      rw [if_pos hquote, ← List.cons_append, stringLength?_continued hquoteless hm, ← heq]
      rfl
    next hquote =>
    rw [if_neg hquote]
    exact h

end Lexeme

/-! ## Reading to the end and on -/

/-- What is left of a text of lexemes is read as the tokens left, also where a line break and a text
without quote marks follow. -/
private theorem scans_append_of_pieces {t u : Text} {start : Position} {offset : Nat}
    (hu : Quoteless u) (hlex : ∀ p ∈ Piece.ofText t 0 start offset, p.isUnrecognized = false) :
    Scans (t ++ CodeUnit.lineFeed :: u)
      (((Piece.ofText t 0 start offset).filterMap Piece.token?).map Token.bare)
      (CodeUnit.lineFeed :: u) := by
  generalize hn : t.length = n
  induction n using Nat.strongRecOn generalizing t start offset with
  | ind n ih =>
    cases hfirst : Lexeme.first? t with
    | none =>
      obtain rfl := Piece.eq_nil_of_first? hlex hfirst
      rw [Piece.ofText]
      exact .done
    | some r =>
      obtain ⟨l, k⟩ := r
      obtain ⟨behind, hcons⟩ := Piece.exists_ofText_cons hfirst start offset
      have hk := Lexeme.first?_bounds hfirst
      have hfirst' := Lexeme.first?_append hu hfirst
      rw [hcons, List.forall_mem_cons] at hlex
      have hrest := ih _ (by rw [List.length_drop]; omega) hlex.2 rfl
      rw [← List.drop_append_of_le_length hk.2] at hrest
      rw [hcons]
      cases l with
      | token kind =>
        have hword := Scans.word hfirst' hrest
        rwa [List.take_append_of_le_length hk.2] at hword
      | _ => exact .skip hfirst' (fun _ => Lexeme.noConfusion) hrest

/-- A text of lexemes is read as its tokens, also where a line break and a text without quote marks
follow. -/
theorem scans_append {t u : Text} (hu : Quoteless u) (hlex : unrecognized t = []) :
    Scans (t ++ CodeUnit.lineFeed :: u) ((tokens t).map Token.bare) (CodeUnit.lineFeed :: u) := by
  rw [unrecognized, List.filter_eq_nil_iff] at hlex
  exact scans_append_of_pieces hu fun p hp => by simpa using hlex p hp

theorem Scans.mark {k : TokenKind} {m : CodeUnit} (h : k.mark? = some m) (u : Text) :
    Scans (m :: u) [(k, [m])] u :=
  .single (t := [m]) (Lexeme.first?_mark h u)

/-- Between two marks, the closing one at the beginning of a line, a text of lexemes is read as its
tokens. -/
theorem scans_enclosed {o k : TokenKind} {m m' : CodeUnit} (ho : o.mark? = some m)
    (hk : k.mark? = some m') {t u : Text} (hu : Quoteless u) (hlex : unrecognized t = []) :
    Scans (m :: (t ++ CodeUnit.lineFeed :: m' :: u))
      ((o, [m]) :: ((tokens t).map Token.bare ++ [(k, [m'])])) u := by
  have hopen : Scans (m :: (t ++ CodeUnit.lineFeed :: m' :: u)) [(o, [m])]
      (t ++ CodeUnit.lineFeed :: m' :: u) := .mark ho _
  have hclose : Scans (CodeUnit.lineFeed :: m' :: u) [(k, [m'])] u := by
    have hfeed : Lexeme.first? (CodeUnit.lineFeed :: m' :: u) = some (.newline, 1) := rfl
    exact .skip hfeed (fun _ => Lexeme.noConfusion) (.mark hk u)
  exact hopen.append ((scans_append ((quoteless_mark hk).append hu) hlex).append hclose)

end TreeMatcher
