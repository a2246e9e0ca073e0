import Mathlib.Data.List.Induction
import Mathlib.Order.Bounds.Basic
import TreeMatcher.Proofs.Pattern.Escapes
import TreeMatcher.Proofs.Pattern.Excerpt

/-!
# Tokens partition a text

The lexer carries a line and a column along while it cuts a text into pieces. Here the position of
an offset is defined from the text alone: its line is found by counting the line ends in front of
it, its column by the distance from the last of them. Both agree as long as no piece ends between a
carriage return and its line feed. None does, because no lexeme ends with a carriage return.

* `Text.positionAt t k` — the position of an offset.
* `Text.IsLayout` — texts that are a concatenation of blanks, comments and line breaks.
* `Reaches t i k` — lexeme by lexeme, reading comes from the offset `i` to the offset `k`.
* `Partitioned t i ts` — from the offset `i` on, a text is the tokens with layout around them.

## Main results

* `Lexeme.getLast?_ne_carriageReturn` — no lexeme ends with a carriage return.
* `after_positionAt` — the position that is carried along is the position of the offset.
* `Reaches.exists_pieces` — what is read lexeme by lexeme is cut into pieces, and a text that is
  read to its end is its tokens with layout around them.
* `lex_partitions` — the tokens of a text and their positions, or the place where reading stops.
-/

namespace TreeMatcher

/-! ## The position of an offset -/

namespace Text

/-- Whether the unit at an offset ends a line. A line feed does, and so does a carriage return that
no line feed follows. -/
def endsLineAt (t : Text) (i : Nat) : Bool :=
  t[i]? == some CodeUnit.lineFeed ||
    t[i]? == some CodeUnit.carriageReturn && t[i + 1]? != some CodeUnit.lineFeed

/-- The offset behind the last line end in front of an offset. -/
def lineBegin (t : Text) (k : Nat) : Nat :=
  ((List.range k).filter t.endsLineAt).getLast?.elim 0 (· + 1)

/-- The position of an offset: one line more than there are line ends in front of it, and one column
more than there are units between the last of these and the offset. -/
def positionAt (t : Text) (k : Nat) : Position :=
  ⟨(List.range k).countP t.endsLineAt + 1, k - t.lineBegin k + 1⟩

private theorem lineBegin_succ (t : Text) (k : Nat) :
    t.lineBegin (k + 1) = if t.endsLineAt k then k + 1 else t.lineBegin k := by
  rw [lineBegin, List.range_succ, List.filter_append]
  by_cases h : t.endsLineAt k <;> simp [h, lineBegin]

private theorem lineBegin_le (t : Text) (k : Nat) : t.lineBegin k ≤ k := by
  induction k with
  | zero => exact Nat.le_refl 0
  | succ k ih =>
    rw [lineBegin_succ]
    split <;> omega

theorem positionAt_succ (t : Text) (k : Nat) :
    t.positionAt (k + 1) =
      if t.endsLineAt k then (t.positionAt k).nextLine else (t.positionAt k).right 1 := by
  have hle := t.lineBegin_le k
  rw [positionAt, lineBegin_succ, List.range_succ, List.countP_append, List.countP_singleton]
  by_cases h : t.endsLineAt k
  · simp [h, positionAt, Position.nextLine]
  · simp only [h, positionAt, Position.right, Bool.false_eq_true, if_false, Nat.add_zero,
      Position.mk.injEq, true_and]
    omega

end Text

/-- Apart from a carriage return with its line feed, the unit at an offset ends a line when it is a
line end. -/
theorem Text.endsLineAt_eq {t : Text} {i : Nat} {c : CodeUnit} (hi : t[i]? = some c)
    (h : c = CodeUnit.carriageReturn → t[i + 1]? ≠ some CodeUnit.lineFeed) :
    t.endsLineAt i = c.isLineEnd := by
  rw [endsLineAt, hi, CodeUnit.isLineEnd]
  by_cases hc : c = CodeUnit.carriageReturn
  · simp [hc, h hc]
  · simp [beq_false_of_ne hc]

private theorem Position.step_positionAt {t : Text} {i : Nat} {c : CodeUnit} (hi : t[i]? = some c)
    (h : c = CodeUnit.carriageReturn → t[i + 1]? ≠ some CodeUnit.lineFeed) :
    (t.positionAt i).step c = t.positionAt (i + 1) := by
  rw [Text.positionAt_succ, Text.endsLineAt_eq hi h, step]

/-- A carriage return and its line feed end one line. -/
private theorem Text.positionAt_of_pair {t : Text} {i : Nat}
    (hi : t[i]? = some CodeUnit.carriageReturn) (hi' : t[i + 1]? = some CodeUnit.lineFeed) :
    t.positionAt (i + 2) = (t.positionAt i).nextLine := by
  have hreturn : t.endsLineAt i = false := by rw [endsLineAt, hi, hi']; rfl
  have hfeed : t.endsLineAt (i + 1) = true := by rw [endsLineAt, hi']; rfl
  rw [positionAt_succ, hfeed, positionAt_succ, hreturn]
  rfl

/-- Moving over some units of a text that do not end with a carriage return leads from the position
of the first one to the position behind the last one. -/
theorem after_positionAt {t s rest : Text} {i : Nat} (ht : t.drop i = s ++ rest)
    (hlast : s.getLast? ≠ some CodeUnit.carriageReturn) :
    (t.positionAt i).after s = t.positionAt (i + s.length) := by
  induction s using List.twoStepInduction generalizing i with
  | nil => rfl
  | singleton c =>
    have hi : t[i]? = some c := by rw [← List.head?_drop, ht]; rfl
    rw [Position.after, if_neg (by rintro ⟨-, h⟩; cases h), Position.after_nil,
      Position.step_positionAt hi fun hc => absurd (congrArg some hc) hlast]
    rfl
  | cons_cons c d s ih ih' =>
    have hi : t[i]? = some c := by rw [← List.head?_drop, ht]; rfl
    have ht' : t.drop (i + 1) = d :: s ++ rest := by rw [← List.tail_drop, ht]; rfl
    have hi' : t[i + 1]? = some d := by rw [← List.head?_drop, ht']; rfl
    rw [List.getLast?_cons_cons] at hlast
    rw [Position.after]
    split
    -- a carriage return and its line feed are passed at once
    · next hc =>
      obtain ⟨rfl, hc⟩ := hc
      cases hc
      have ht'' : t.drop (i + 2) = s ++ rest := by rw [← List.tail_drop, ht']; rfl
      have hs : s.getLast? ≠ some CodeUnit.carriageReturn := fun h => hlast (by
        rw [List.getLast?_cons, h]; rfl)
      have hrest := ih ht'' hs
      rw [Text.positionAt_of_pair hi hi'] at hrest
      rw [Position.after, if_neg (by rintro ⟨h, -⟩; cases h)]
      exact hrest.trans (by rw [List.length_cons, List.length_cons]; congr 1; omega)
    · next hc =>
      rw [Position.step_positionAt hi fun h hd => hc ⟨h, by rwa [hi'] at hd⟩, ih' d ht' hlast]
      congr 1
      simp only [List.length_cons]
      omega

/-! ## How lexemes end -/

/-- A quoted literal ends with the mark that it begins with. -/
private theorem getLast?_take_string {q : CodeUnit} {rest : Text} {n : Nat}
    (h : stringLength? (q :: rest) = some n) :
    q.isQuote ∧ ((q :: rest).take n).getLast? = some q := by
  rw [stringLength?] at h
  split at h
  · next hq =>
    refine ⟨hq, ?_⟩
    split at h
    · next m hm =>
      cases h
      unfold tripleLength? at hm
      split at hm
      · obtain ⟨k, hk, rfl⟩ := Option.map_eq_some_iff.1 hm
        obtain ⟨body, hbody⟩ := exists_take_tripleBody hk
        rw [List.take_succ_cons, Nat.add_comm k 2, List.take_add, hbody, List.getLast?_cons,
          List.getLast?_append, List.getLast?_append]
        rfl
      · cases hm
    · obtain ⟨k, hk, rfl⟩ := Option.map_eq_some_iff.1 h
      obtain ⟨body, hbody⟩ := exists_take_singleBody hk
      rw [List.take_succ_cons, hbody, ← List.cons_append, List.getLast?_concat]
  · cases h

private theorem CodeUnit.isLineEnd_of_isQuote {c : CodeUnit} (h : c.isQuote) :
    c.isLineEnd = false := by
  grind [CodeUnit.isQuote, CodeUnit.isLineEnd]

/-- The units of a run that begins with some unit. -/
private theorem forall_mem_take_run {p q : CodeUnit → Bool} {c : CodeUnit} {rest : Text} (hc : q c)
    (hpq : ∀ d, p d → q d) : ∀ d ∈ (c :: rest).take (Text.run p rest + 1), q d := by
  rw [List.take_succ_cons, List.forall_mem_cons]
  exact ⟨hc, fun d hd => hpq d (List.all_eq_true.1 (Lexeme.all_take_run p rest) d hd)⟩

namespace Lexeme

/-- Among the tokens only literals go over several lines. -/
theorem isLineEnd_of_mem_token {t : Text} {k : TokenKind} {n : Nat}
    (h : first? t = some (.token k, n)) (hk : k ≠ .string) :
    ∀ c ∈ t.take n, c.isLineEnd = false := by
  intro c hc
  obtain ⟨d, rest, rfl, ⟨hstring, -⟩ | ⟨-, hd, rfl⟩ | ⟨-, hd, rfl⟩ | ⟨hd, rfl⟩⟩ := first?_token h
  · exact absurd hstring hk
  · have := forall_mem_take_run (q := CodeUnit.isDigit) hd (fun _ h => h) c hc
    grind [CodeUnit.isDigit, CodeUnit.isLineEnd]
  · have := forall_mem_take_run (q := CodeUnit.isNamePart) (by rw [CodeUnit.isNamePart, hd]; rfl)
      (fun _ h => h) c hc
    grind [CodeUnit.isNamePart, CodeUnit.isNameStart, CodeUnit.isDigit, CodeUnit.isLineEnd]
  · obtain rfl := List.mem_singleton.1 hc
    have hmark := TokenKind.mark?_of_ofPunctuation? hd
    cases k <;> cases hmark <;> rfl

/-- A token does not end with a line end. -/
private theorem isLineEnd_getLast?_token {t : Text} {k : TokenKind} {n : Nat}
    (h : first? t = some (.token k, n)) : ∀ c ∈ (t.take n).getLast?, c.isLineEnd = false := by
  intro c hc
  by_cases hk : k = .string
  · obtain ⟨d, rest, rfl, ⟨-, hs⟩ | ⟨hname, -⟩ | ⟨hnumber, -⟩ | ⟨hd, -⟩⟩ := first?_token h
    · obtain ⟨hq, hlast⟩ := getLast?_take_string hs
      rw [hlast] at hc
      cases hc
      exact CodeUnit.isLineEnd_of_isQuote hq
    · rw [hk] at hname
      cases hname
    · rw [hk] at hnumber
      cases hnumber
    · rw [hk] at hd
      cases TokenKind.mark?_of_ofPunctuation? hd
  · exact isLineEnd_of_mem_token h hk c (List.mem_of_getLast? hc)

end Lexeme

/-! ## Layout -/

namespace Text

/-- What stands between tokens: a run of blanks, a comment, or a line break. -/
inductive IsFiller : Text → Prop where
  | blanks {t : Text} (hne : t ≠ []) (h : ∀ c ∈ t, c.isBlank) : IsFiller t
  | comment {t : Text} (h : ∀ c ∈ t, c.isLineEnd = false) : IsFiller (CodeUnit.hash :: t)
  | lineFeed : IsFiller [CodeUnit.lineFeed]
  | carriageReturnLineFeed : IsFiller [CodeUnit.carriageReturn, CodeUnit.lineFeed]

/-- A concatenation of blanks, comments and line breaks. -/
def IsLayout (t : Text) : Prop :=
  ∃ fillers : List Text, t = fillers.flatten ∧ ∀ f ∈ fillers, f.IsFiller

private theorem isLayout_nil : IsLayout [] := ⟨[], rfl, by simp⟩

private theorem IsLayout.cons {f t : Text} (hf : f.IsFiller) (ht : t.IsLayout) :
    (f ++ t).IsLayout := by
  obtain ⟨fillers, rfl, h⟩ := ht
  exact ⟨f :: fillers, rfl, List.forall_mem_cons.2 ⟨hf, h⟩⟩

/-- No filler ends with a carriage return. -/
theorem IsFiller.getLast?_ne {t : Text} (h : t.IsFiller) :
    t.getLast? ≠ some CodeUnit.carriageReturn := by
  intro hlast
  have hmem := List.mem_of_getLast? hlast
  cases h with
  | blanks _ h => exact absurd (h _ hmem) (by decide)
  | comment h =>
    rcases List.mem_cons.1 hmem with hmem | hmem
    · exact absurd hmem (by decide)
    · exact absurd (h _ hmem) (by decide)
  | lineFeed => exact absurd hlast (by decide)
  | carriageReturnLineFeed => exact absurd hlast (by decide)

end Text

namespace Lexeme

/-- What is no token is layout. -/
theorem isFiller_of_first? {t : Text} {l : Lexeme} {n : Nat} (h : first? t = some (l, n))
    (hl : ∀ k, l ≠ .token k) : Text.IsFiller (t.take n) := by
  cases t with
  | nil => cases h
  | cons c rest =>
    rw [first?] at h
    split at h
    · next hc =>
      cases h
      exact .blanks (by simp) (forall_mem_take_run hc fun _ h => h)
    split at h
    · next hc =>
      cases h
      rw [hc, List.take_succ_cons]
      refine .comment fun d hd => ?_
      simpa using List.all_eq_true.1 (all_take_run _ rest) d hd
    split at h
    · next hc =>
      cases h
      rw [hc]
      exact .lineFeed
    split at h
    · next hc =>
      split at h
      · next hfeed =>
        cases h
        obtain ⟨rest, rfl⟩ := List.head?_eq_some_iff.1 hfeed
        rw [hc]
        exact .carriageReturnLineFeed
      · cases h
    split at h
    · obtain ⟨m, -, he⟩ := Option.map_eq_some_iff.1 h
      cases he
      exact absurd rfl (hl _)
    split at h
    · cases h
      exact absurd rfl (hl _)
    split at h
    · cases h
      exact absurd rfl (hl _)
    · obtain ⟨m, -, he⟩ := Option.map_eq_some_iff.1 h
      cases he
      exact absurd rfl (hl _)

/-- No lexeme ends with a carriage return. -/
theorem getLast?_ne_carriageReturn {t : Text} {l : Lexeme} {n : Nat}
    (h : first? t = some (l, n)) : (t.take n).getLast? ≠ some CodeUnit.carriageReturn := by
  by_cases hl : ∃ k, l = .token k
  · obtain ⟨k, rfl⟩ := hl
    exact fun hlast => absurd (isLineEnd_getLast?_token h _ hlast) (by decide)
  · exact (isFiller_of_first? h fun k hk => hl ⟨k, hk⟩).getLast?_ne

end Lexeme

/-! ## Reading a text up to an offset -/

/-- `Reaches t i k`: lexeme by lexeme, reading comes from the offset `i` to the offset `k`. -/
inductive Reaches (t : Text) : Nat → Nat → Prop where
  | here {i : Nat} : Reaches t i i
  | step {i k n : Nat} {l : Lexeme} (h : Lexeme.first? (t.drop i) = some (l, n))
      (hs : Reaches t (i + n) k) : Reaches t i k

/-- Reading comes to a place where it stops, at the end of the text or in front of it. -/
theorem exists_reaches (t : Text) (i : Nat) :
    ∃ k, Reaches t i k ∧ Lexeme.first? (t.drop k) = none := by
  generalize hn : (t.drop i).length = n
  induction n using Nat.strongRecOn generalizing i with
  | ind n ih =>
    cases h : Lexeme.first? (t.drop i) with
    | none => exact ⟨i, .here, h⟩
    | some r =>
      obtain ⟨l, m⟩ := r
      have hm := Lexeme.first?_bounds h
      have hlt : (t.drop (i + m)).length < n := by
        rw [List.length_drop] at hm hn ⊢
        omega
      obtain ⟨k, hk, hnone⟩ := ih _ hlt (i + m) rfl
      exact ⟨k, .step h hk, hnone⟩

/-- There is only one place where reading stops. -/
private theorem Reaches.eq_of_stuck {t : Text} {i k k' : Nat} (h : Reaches t i k)
    (h' : Reaches t i k')
    (hk : Lexeme.first? (t.drop k) = none) (hk' : Lexeme.first? (t.drop k') = none) : k = k' := by
  induction h with
  | here =>
    cases h' with
    | here => rfl
    | step hf => rw [hk] at hf; cases hf
  | step hf _ ih =>
    cases h' with
    | here => rw [hk'] at hf; cases hf
    | step hf' hs' =>
      rw [hf] at hf'
      cases hf'
      exact ih hs' hk

/-! ## Tokens with layout around them -/

/-- The offset behind a token. -/
def Token.endOffset (token : Token) : Nat := token.offset + token.text.length

/-- A token stands where its offset says: its text is found there, and its first and its last unit
have the positions of their offsets. -/
structure Token.PlacedIn (t : Text) (token : Token) : Prop where
  text_ne_nil : token.text ≠ []
  text_eq : t.excerpt token.offset token.endOffset = token.text
  start_eq : token.start = t.positionAt token.offset
  stop_eq : token.stop = t.positionAt (token.endOffset - 1)

/-- `Partitioned t i ts`: from the offset `i` on, a text is the tokens with layout around them. -/
inductive Partitioned (t : Text) : Nat → List Token → Prop where
  | done {i : Nat} (hgap : Text.IsLayout (t.excerpt i t.length)) : Partitioned t i []
  | token {i : Nat} {token : Token} {ts : List Token} (hle : i ≤ token.offset)
      (hgap : Text.IsLayout (t.excerpt i token.offset)) (h : token.PlacedIn t)
      (hs : Partitioned t token.endOffset ts) : Partitioned t i (token :: ts)

theorem Text.excerpt_add (t : Text) (i n : Nat) : t.excerpt i (i + n) = (t.drop i).take n := by
  rw [excerpt, Nat.add_sub_cancel_left]

private theorem Text.excerpt_self (t : Text) (i : Nat) : t.excerpt i i = [] := by
  rw [excerpt, Nat.sub_self, List.take_zero]

/-- Two excerpts, one behind the other. -/
theorem Text.excerpt_append (t : Text) {i j k : Nat} (hij : i ≤ j) (hjk : j ≤ k) :
    t.excerpt i j ++ t.excerpt j k = t.excerpt i k := by
  have hdrop : t.drop j = (t.drop i).drop (j - i) := by rw [List.drop_drop, Nat.add_sub_cancel' hij]
  rw [excerpt, excerpt, excerpt, hdrop, ← List.take_add]
  congr 1
  omega

/-- Layout in front belongs to the gap in front of the first token. -/
private theorem Partitioned.filler {t : Text} {i n : Nat} {ts : List Token}
    (hf : Text.IsFiller ((t.drop i).take n)) (hn : i + n ≤ t.length)
    (h : Partitioned t (i + n) ts) : Partitioned t i ts := by
  rw [← Text.excerpt_add] at hf
  have extend {j : Nat} (hj : i + n ≤ j) (hgap : Text.IsLayout (t.excerpt (i + n) j)) :
      Text.IsLayout (t.excerpt i j) := by
    rw [← t.excerpt_append (Nat.le_add_right i n) hj]
    exact .cons hf hgap
  cases h with
  | done hgap => exact .done (extend hn hgap)
  | token hle hgap h hs =>
    exact .token (Nat.le_trans (Nat.le_add_right i n) hle) (extend hle hgap) h hs

namespace Piece

/-- Where a lexeme begins, it is the first piece, and the next one stands at the position of its
offset. -/
private theorem ofText_of_first? {t : Text} {i n : Nat} {l : Lexeme}
    (h : Lexeme.first? (t.drop i) = some (l, n)) :
    ofText (t.drop i) 0 (t.positionAt i) i =
      ⟨some l, (t.drop i).take n, t.positionAt i, i⟩ ::
        ofText (t.drop (i + n)) 0 (t.positionAt (i + n)) (i + n) := by
  have hlen : ((t.drop i).take n).length = n := List.length_take_of_le (Lexeme.first?_le_length h)
  have hfirst : first (t.drop i) (t.positionAt i) i =
      ⟨some l, (t.drop i).take n, t.positionAt i, i⟩ := by rw [first, h]
  have hbehind : (t.positionAt i).after ((t.drop i).take n) = t.positionAt (i + n) := by
    rw [after_positionAt (List.take_append_drop n (t.drop i)).symm
      (Lexeme.getLast?_ne_carriageReturn h), hlen]
  cases ht : t.drop i with
  | nil => rw [ht] at h; cases h
  | cons c rest =>
    rw [ofText_cons, ← ht, hfirst]
    dsimp only [behind]
    rw [hlen, hbehind, List.drop_drop]

end Piece

/-- A token that begins at an offset is placed there. -/
private theorem placedIn_of_first? {t : Text} {i n : Nat} {k : TokenKind}
    (h : Lexeme.first? (t.drop i) = some (.token k, n)) :
    Token.PlacedIn t ⟨k, (t.drop i).take n, t.positionAt i, i⟩ := by
  have hbounds := Lexeme.first?_bounds h
  have hlen : ((t.drop i).take n).length = n := List.length_take_of_le hbounds.2
  have hbehind : (t.positionAt i).after ((t.drop i).take n) = t.positionAt (i + n) := by
    rw [after_positionAt (List.take_append_drop n (t.drop i)).symm
      (Lexeme.getLast?_ne_carriageReturn h), hlen]
  refine ⟨fun hnil => ?_, ?_, rfl, ?_⟩
  · rw [show (t.drop i).take n = [] from hnil, List.length_nil] at hlen
    omega
  · rw [Token.endOffset, hlen, Text.excerpt_add]
  · obtain ⟨m, rfl⟩ : ∃ m, n = m + 1 := ⟨n - 1, (Nat.sub_add_cancel hbounds.1).symm⟩
    -- the last unit ends no line, so the position behind it is one column further
    obtain ⟨c, hc⟩ : ∃ c, t[i + m]? = some c := by
      rw [List.length_drop] at hbounds
      have hlt : i + m < t.length := by omega
      exact ⟨t[i + m], List.getElem?_eq_getElem hlt⟩
    have hends : t.endsLineAt (i + m) = false := by
      have hlast : ((t.drop i).take (m + 1)).getLast? = some c := by
        rw [List.getLast?_eq_getElem?, hlen, Nat.add_sub_cancel,
          List.getElem?_take_of_lt (by omega), List.getElem?_drop, hc]
      have hline := Lexeme.isLineEnd_getLast?_token h c hlast
      rw [Text.endsLineAt_eq hc (by rintro rfl; cases hline), hline]
    rw [Token.stop, Token.endOffset, hlen, hbehind, ← Nat.add_assoc, Text.positionAt_succ, hends]
    rfl

namespace Reaches

variable {t : Text} {i k : Nat}

/-- The pieces that are read up to an offset: all of them are lexemes, and if the whole text is
read, their tokens have nothing but layout around them. -/
theorem exists_pieces (h : Reaches t i k) :
    ∃ ps, Piece.ofText (t.drop i) 0 (t.positionAt i) i =
        ps ++ Piece.ofText (t.drop k) 0 (t.positionAt k) k ∧
      (∀ p ∈ ps, p.isUnrecognized = false) ∧
      (t.drop k = [] → Partitioned t i (ps.filterMap Piece.token?)) := by
  induction h with
  | here =>
    refine ⟨[], rfl, by simp, fun h => .done ?_⟩
    rw [Text.excerpt, h, List.take_nil]
    exact Text.isLayout_nil
  | @step i k n l h _ ih =>
    obtain ⟨ps, hps, hlexemes, hpartitioned⟩ := ih
    have hn := Lexeme.first?_bounds h
    refine ⟨⟨some l, (t.drop i).take n, t.positionAt i, i⟩ :: ps, ?_, ?_, fun hend => ?_⟩
    · rw [Piece.ofText_of_first? h, hps, List.cons_append]
    · exact List.forall_mem_cons.2 ⟨rfl, hlexemes⟩
    · have hrest := hpartitioned hend
      by_cases hl : ∃ kind, l = .token kind
      · obtain ⟨kind, rfl⟩ := hl
        have hplaced := placedIn_of_first? h
        refine .token (Nat.le_refl i) ?_ hplaced ?_
        · rw [Text.excerpt_self]
          exact Text.isLayout_nil
        · rw [Token.endOffset, List.length_take_of_le hn.2]
          exact hrest
      · have hnone : Piece.token? ⟨some l, (t.drop i).take n, t.positionAt i, i⟩ = none := by
          cases l with
          | token kind => exact absurd ⟨kind, rfl⟩ hl
          | _ => rfl
        rw [List.filterMap_cons_none hnone]
        rw [List.length_drop] at hn
        exact hrest.filler (Lexeme.isFiller_of_first? h fun kind hk => hl ⟨kind, hk⟩) (by omega)

end Reaches

namespace Partitioned

variable {t : Text} {i : Nat} {ts : List Token}

theorem placedIn (h : Partitioned t i ts) : ∀ token ∈ ts, token.PlacedIn t := by
  induction h with
  | done => simp
  | token _ _ h _ ih => exact List.forall_mem_cons.2 ⟨h, ih⟩

theorem le_offset (h : Partitioned t i ts) : ∀ token ∈ ts, i ≤ token.offset := by
  induction h with
  | done => simp
  | @token i token ts hle _ _ _ ih =>
    refine List.forall_mem_cons.2 ⟨hle, fun u hu => ?_⟩
    have := ih u hu
    rw [Token.endOffset] at this
    omega

/-- No token begins in front of the end of an earlier one. -/
private theorem pairwise (h : Partitioned t i ts) :
    ts.Pairwise fun a b => a.endOffset ≤ b.offset := by
  induction h with
  | done => exact .nil
  | token _ _ _ hs ih => exact .cons hs.le_offset ih

/-- Between two parts of the tokens stands layout. -/
private theorem gap {before after : List Token} (h : Partitioned t i (before ++ after)) :
    Text.IsLayout (t.excerpt (before.getLast?.elim i Token.endOffset)
      (after.head?.elim t.length Token.offset)) := by
  induction before generalizing i with
  | nil =>
    cases h with
    | done hgap => exact hgap
    | token _ hgap => exact hgap
  | cons token before ih =>
    cases h with
    | token _ _ _ hs =>
      have := ih hs
      rw [List.getLast?_cons]
      cases hlast : before.getLast? <;> simpa [hlast] using this

end Partitioned

/-! ## The tokens of a text, or where reading stops -/

theorem lex_of_reaches_end {t : Text} {k : Nat} (h : Reaches t 0 k) (hk : t.drop k = []) :
    ∃ ts, lex t = .ok ts ∧ Partitioned t 0 ts := by
  obtain ⟨ps, hps, hlexemes, hpartitioned⟩ := h.exists_pieces
  rw [hk, Piece.ofText, List.append_nil] at hps
  have hpieces : pieces t = ps := hps
  refine ⟨ps.filterMap Piece.token?, lex_eq_ok_iff.2 ⟨?_, ?_⟩, hpartitioned hk⟩
  · rw [unrecognized, hpieces, List.filter_eq_nil_iff]
    exact fun p hp => by simp [hlexemes p hp]
  · rw [tokens, hpieces]

theorem lex_of_reaches_stuck {t : Text} {k : Nat} {c : CodeUnit} (h : Reaches t 0 k)
    (hc : t[k]? = some c) (hk : Lexeme.first? (t.drop k) = none) :
    lex t = .error (.located (.unexpectedCharacter c) (t.positionAt k)) := by
  obtain ⟨ps, hps, hlexemes, -⟩ := h.exists_pieces
  obtain ⟨rest, hrest⟩ : ∃ rest, t.drop k = c :: rest := by
    rw [← List.head?_drop] at hc
    exact List.head?_eq_some_iff.1 hc
  have hpieces : pieces t = ps ++ Piece.ofText (t.drop k) 0 (t.positionAt k) k := hps
  have hnone : ps.filter Piece.isUnrecognized = [] :=
    List.filter_eq_nil_iff.2 fun p hp => by simp [hlexemes p hp]
  have hfirst : Piece.first (t.drop k) (t.positionAt k) k =
      ⟨none, c :: rest.take (Piece.unrecognizedLength rest), t.positionAt k, k⟩ := by
    rw [Piece.first, hk, hrest, Piece.unrecognizedLength, ← hrest, hk, Option.isSome_none,
      if_neg Bool.false_ne_true, hrest, List.take_succ_cons]
  have hunrecognized : ∃ more, unrecognized t =
      ⟨none, c :: rest.take (Piece.unrecognizedLength rest), t.positionAt k, k⟩ :: more := by
    rw [unrecognized, hpieces, List.filter_append, hnone, List.nil_append, hrest,
      Piece.ofText_cons, ← hrest, hfirst]
    exact ⟨_, List.filter_cons_of_pos rfl⟩
  obtain ⟨more, hmore⟩ := hunrecognized
  rw [lex, hmore]
  rfl

/-- A text that is lexed is a partition into its tokens and the layout around them, and every
position, also one in the tree, is the position of its offset. Any other text is refused at the
first offset that reading reaches and where no lexeme begins. -/
theorem lex_partitions (t : Text) :
    match lex t with
    | .ok ts =>
      (∀ token ∈ ts, token.text ≠ [] ∧ t.excerpt token.offset token.endOffset = token.text ∧
        token.start = t.positionAt token.offset ∧
        token.stop = t.positionAt (token.endOffset - 1)) ∧
      (ts.Pairwise fun a b => a.offset < b.offset ∧ a.endOffset ≤ b.offset) ∧
      (∀ before after, ts = before ++ after →
        Text.IsLayout (t.excerpt (before.getLast?.elim 0 Token.endOffset)
          (after.head?.elim t.length Token.offset))) ∧
      ∀ tree, parse t = .ok tree → ∀ leaf ∈ tree.leaves, ∃ k : Nat, leaf.offset = .int k ∧
        leaf.line = .int (t.positionAt k).line ∧ leaf.column = .int (t.positionAt k).column
    | .error e =>
      parse t = .error e ∧ ∃ k c,
        IsLeast {k | Reaches t 0 k ∧ k < t.length ∧ Lexeme.first? (t.drop k) = none} k ∧
        t[k]? = some c ∧ e = .located (.unexpectedCharacter c) (t.positionAt k) := by
  obtain ⟨k, hreach, hstuck⟩ := exists_reaches t 0
  by_cases hend : t.drop k = []
  · obtain ⟨ts, hts, hpartitioned⟩ := lex_of_reaches_end hreach hend
    rw [hts]
    have hplaced := hpartitioned.placedIn
    refine ⟨fun token h => ?_, ?_, ?_, ?_⟩
    · exact ⟨(hplaced token h).text_ne_nil, (hplaced token h).text_eq, (hplaced token h).start_eq,
        (hplaced token h).stop_eq⟩
    · refine hpartitioned.pairwise.imp_of_mem fun {a b} ha _ hab => ⟨?_, hab⟩
      have := List.length_pos_iff.2 (hplaced a ha).text_ne_nil
      rw [Token.endOffset] at hab
      omega
    · rintro before after rfl
      exact hpartitioned.gap
    · intro tree htree leaf hleaf
      obtain ⟨-, c, htokens, rfl⟩ := parse_eq_ok_iff_choice.1 htree
      rw [c.leaves_pattern, ← htokens, (lex_eq_ok_iff.1 hts).2] at hleaf
      obtain ⟨token, htoken, rfl⟩ := List.mem_map.1 hleaf
      refine ⟨token.offset, rfl, ?_, ?_⟩ <;> rw [← (hplaced token htoken).start_eq] <;> rfl
  · have hk : k < t.length := by rwa [List.drop_eq_nil_iff, Nat.not_le] at hend
    have hlex := lex_of_reaches_stuck hreach (List.getElem?_eq_getElem hk) hstuck
    rw [hlex]
    refine ⟨by rw [parse, hlex], k, t[k], ⟨⟨hreach, hk, hstuck⟩, fun k' h => ?_⟩,
      List.getElem?_eq_getElem hk, rfl⟩
    exact Nat.le_of_eq (hreach.eq_of_stuck h.1 hstuck h.2.2)

end TreeMatcher
