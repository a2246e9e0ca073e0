import TreeMatcher.Pattern.Piece
import TreeMatcher.Text.Decimal

/-!
# Reading a text piece by piece

A text is read from the left, one lexeme after the other. What a lexeme is may depend on the units
behind it, so a judgement about the beginning of a text keeps the whole rest of the text in view.
Kinds and texts of tokens do not depend on where the text stands.

* `Scans t ws rest` — `t` is read as the words `ws` up to `rest`, blanks, comments and line breaks
  passed over.
* `Spoiled t` — reading `t` comes to a unit that begins no lexeme, or to a number that is followed
  by something else than a comma or a closing brace.

## Main results

* `Scans.lexed` — a text that is read to its end is lexed as the words.
* `Spoiled.unlexed` — a spoiled text is not lexed, or a number is followed by a wrong token.
* `fits_of_mem_tokens` — the text of a name is a name, the text of a number is a run of digits.
-/

namespace TreeMatcher

/-! ## Words -/

/-- Whether a text is a name of the pattern language. -/
def Text.isName : Text → Bool
  | [] => false
  | c :: rest => c.isNameStart && rest.all CodeUnit.isNamePart

/-- A token without its place. -/
abbrev Token.bare (t : Token) : TokenKind × Text := (t.kind, t.text)

/-- The text of a token fits its kind. -/
def Token.Fits (t : Token) : Prop :=
  match t.kind with
  | .name => t.text.isName
  | .number => t.text.isDecimal
  | _ => True

/-- The mark that tokens of a kind consist of, if all of them do. -/
def TokenKind.mark? : TokenKind → Option CodeUnit
  | name => none
  | string => none
  | number => none
  | equal => some 0x3D
  | vbar => some 0x7C
  | bang => some 0x21
  | star => some 0x2A
  | plus => some 0x2B
  | lbrace => some 0x7B
  | rbrace => some 0x7D
  | comma => some 0x2C
  | lpar => some 0x28
  | rpar => some 0x29
  | lsqb => some 0x5B
  | rsqb => some 0x5D
  | less => some 0x3C
  | greater => some 0x3E

private theorem some_of_ite {α : Type} {p : Prop} [Decidable p] {a b : α} {o : Option α}
    (h : (if p then some a else o) = some b) : p ∧ a = b ∨ o = some b := by
  split at h
  · next hp => exact .inl ⟨hp, Option.some.inj h⟩
  · exact .inr h

theorem TokenKind.mark?_of_ofPunctuation? {c : CodeUnit} {k : TokenKind}
    (h : ofPunctuation? c = some k) : k.mark? = some c := by
  unfold ofPunctuation? at h
  iterate 14
    rcases some_of_ite h with ⟨hc, rfl⟩ | h
    · rw [eq_of_beq hc, mark?]
  cases h

namespace Lexeme

/-! ## The text of a lexeme -/

theorem take_run (p : CodeUnit → Bool) (t : Text) : t.take (Text.run p t) = t.takeWhile p :=
  (List.prefix_iff_eq_take.1 (List.takeWhile_prefix p)).symm

theorem all_take_run (p : CodeUnit → Bool) (t : Text) : (t.take (Text.run p t)).all p := by
  rw [take_run, List.all_takeWhile]

/-- What a token can be, with the way its length is found. -/
theorem first?_token {t : Text} {k : TokenKind} {n : Nat} (h : first? t = some (.token k, n)) :
    ∃ c rest, t = c :: rest ∧
      ((k = .string ∧ stringLength? t = some n) ∨
        (k = .number ∧ c.isDigit ∧ n = Text.run CodeUnit.isDigit rest + 1) ∨
        (k = .name ∧ c.isNameStart ∧ n = Text.run CodeUnit.isNamePart rest + 1) ∨
        (TokenKind.ofPunctuation? c = some k ∧ n = 1)) := by
  cases t with
  | nil => cases h
  | cons c rest =>
    refine ⟨c, rest, rfl, ?_⟩
    rw [first?] at h
    split at h
    · cases h
    split at h
    · cases h
    split at h
    · cases h
    split at h
    · split at h <;> cases h
    split at h
    · obtain ⟨m, hm, heq⟩ := Option.map_eq_some_iff.1 h
      cases heq
      exact .inl ⟨rfl, hm⟩
    split at h
    · next hd =>
      cases h
      exact .inr (.inl ⟨rfl, hd, rfl⟩)
    split at h
    · next hs =>
      cases h
      exact .inr (.inr (.inl ⟨rfl, hs, rfl⟩))
    · obtain ⟨m, hm, heq⟩ := Option.map_eq_some_iff.1 h
      cases heq
      exact .inr (.inr (.inr ⟨hm, rfl⟩))

private theorem isName_of_first? {t : Text} {n : Nat} (h : first? t = some (.token .name, n)) :
    Text.isName (t.take n) := by
  obtain ⟨c, rest, rfl, ⟨hk, -⟩ | ⟨hk, -⟩ | ⟨-, hs, rfl⟩ | ⟨hp, -⟩⟩ := first?_token h
  · cases hk
  · cases hk
  · rw [List.take_succ_cons, Text.isName, hs, Bool.true_and]
    exact all_take_run _ _
  · cases TokenKind.mark?_of_ofPunctuation? hp

private theorem isDecimal_of_first? {t : Text} {n : Nat} (h : first? t = some (.token .number, n)) :
    Text.isDecimal (t.take n) := by
  obtain ⟨c, rest, rfl, ⟨hk, -⟩ | ⟨-, hd, rfl⟩ | ⟨hk, -⟩ | ⟨hp, -⟩⟩ := first?_token h
  · cases hk
  · rw [List.take_succ_cons, Text.isDecimal, List.isEmpty_cons, List.all_cons, hd, Bool.not_false,
      Bool.true_and, Bool.true_and]
    exact all_take_run _ _
  · cases hk
  · cases TokenKind.mark?_of_ofPunctuation? hp

end Lexeme

/-! ## The tokens of a text -/

namespace Piece

/-- Every piece is the first piece of what is left at its place. -/
private theorem exists_first_of_mem {t : Text} {start : Position} {offset : Nat} {p : Piece}
    (h : p ∈ ofText t 0 start offset) : ∃ t' start' offset', p = first t' start' offset' := by
  generalize hn : t.length = n
  induction n using Nat.strongRecOn generalizing t start offset with
  | ind n ih =>
    cases t with
    | nil => simp [ofText] at h
    | cons c rest =>
      rw [ofText_cons, List.mem_cons] at h
      rcases h with rfl | h
      · exact ⟨_, _, _, rfl⟩
      · have hpos := first_text_length c rest start offset
        refine ih _ ?_ h rfl
        simp only [List.length_drop, List.length_cons] at hn ⊢
        omega

/-- Where a lexeme begins, it is the first piece. -/
theorem exists_ofText_cons {t : Text} {l : Lexeme} {n : Nat} (h : Lexeme.first? t = some (l, n))
    (start : Position) (offset : Nat) :
    ∃ behind, ofText t 0 start offset =
      ⟨some l, t.take n, start, offset⟩ :: ofText (t.drop n) 0 behind (offset + n) := by
  cases t with
  | nil => cases h
  | cons c rest =>
    have hfirst : first (c :: rest) start offset = ⟨some l, (c :: rest).take n, start, offset⟩ := by
      rw [first, h]
    have hlen : ((c :: rest).take n).length = n :=
      List.length_take_of_le (Lexeme.first?_le_length h)
    refine ⟨(first (c :: rest) start offset).behind, ?_⟩
    rw [ofText_cons, hfirst]
    dsimp only
    rw [hlen]

end Piece

/-- A token of a text is a lexeme at the beginning of what is left at its place. -/
theorem exists_first?_of_mem_tokens {s : Text} {t : Token} (h : t ∈ tokens s) :
    ∃ rest n, Lexeme.first? rest = some (.token t.kind, n) ∧ t.text = rest.take n := by
  obtain ⟨p, hp, ht⟩ := List.mem_filterMap.1 h
  obtain ⟨rest, start, offset, rfl⟩ := Piece.exists_first_of_mem hp
  unfold Piece.first at ht
  cases hl : Lexeme.first? rest with
  | none =>
    rw [hl] at ht
    cases ht
  | some r =>
    obtain ⟨l, n⟩ := r
    rw [hl] at ht
    cases l with
    | token k =>
      cases ht
      exact ⟨rest, n, hl, rfl⟩
    | _ => cases ht

theorem fits_of_mem_tokens {s : Text} {t : Token} (h : t ∈ tokens s) : t.Fits := by
  obtain ⟨rest, n, hfirst, htext⟩ := exists_first?_of_mem_tokens h
  unfold Token.Fits
  split
  · next hk => rw [htext]; exact Lexeme.isName_of_first? (hk ▸ hfirst)
  · next hk => rw [htext]; exact Lexeme.isDecimal_of_first? (hk ▸ hfirst)
  · trivial

/-! ## Reading up to a place -/

/-- `Scans t ws rest`: the text `t` is read as the words `ws` up to `rest`. -/
inductive Scans : Text → List (TokenKind × Text) → Text → Prop where
  | done {t : Text} : Scans t [] t
  | skip {t rest : Text} {l : Lexeme} {n : Nat} {ws : List (TokenKind × Text)}
      (h : Lexeme.first? t = some (l, n)) (hl : ∀ k, l ≠ .token k)
      (hs : Scans (t.drop n) ws rest) : Scans t ws rest
  | word {t rest : Text} {k : TokenKind} {n : Nat} {ws : List (TokenKind × Text)}
      (h : Lexeme.first? t = some (.token k, n)) (hs : Scans (t.drop n) ws rest) :
      Scans t ((k, t.take n) :: ws) rest

namespace Scans

theorem append {t u rest : Text} {ws us : List (TokenKind × Text)} (h : Scans t ws u)
    (h' : Scans u us rest) : Scans t (ws ++ us) rest := by
  induction h with
  | done => exact h'
  | skip h hl _ ih => exact .skip h hl (ih h')
  | word h _ ih => exact .word h (ih h')

/-- The pieces of a text that is read up to a place: lexemes, and then the pieces of the rest. -/
private theorem exists_pieces {t rest : Text} {ws : List (TokenKind × Text)} (h : Scans t ws rest)
    (start : Position) (offset : Nat) :
    ∃ ps start' offset', Piece.ofText t 0 start offset = ps ++ Piece.ofText rest 0 start' offset' ∧
      (∀ p ∈ ps, p.isUnrecognized = false) ∧ (ps.filterMap Piece.token?).map Token.bare = ws := by
  induction h generalizing start offset with
  | done => exact ⟨[], start, offset, rfl, by simp, rfl⟩
  | @skip t rest l n ws h hl _ ih =>
    obtain ⟨behind, hcons⟩ := Piece.exists_ofText_cons h start offset
    obtain ⟨ps, start', offset', hps, hlex, hws⟩ := ih behind (offset + n)
    refine ⟨⟨some l, t.take n, start, offset⟩ :: ps, start', offset', ?_, ?_, ?_⟩
    · rw [hcons, hps, List.cons_append]
    · exact List.forall_mem_cons.2 ⟨rfl, hlex⟩
    · have hnone : Piece.token? ⟨some l, t.take n, start, offset⟩ = none := by
        cases l with
        | token k => exact absurd rfl (hl k)
        | _ => rfl
      rw [List.filterMap_cons_none hnone, hws]
  | @word t rest k n ws h _ ih =>
    obtain ⟨behind, hcons⟩ := Piece.exists_ofText_cons h start offset
    obtain ⟨ps, start', offset', hps, hlex, hws⟩ := ih behind (offset + n)
    refine ⟨⟨some (.token k), t.take n, start, offset⟩ :: ps, start', offset', ?_, ?_, ?_⟩
    · rw [hcons, hps, List.cons_append]
    · exact List.forall_mem_cons.2 ⟨rfl, hlex⟩
    · have hsome : Piece.token? ⟨some (.token k), t.take n, start, offset⟩ =
          some ⟨k, t.take n, start, offset⟩ := rfl
      rw [List.filterMap_cons_some hsome, List.map_cons, hws]

/-- A text that is read to its end is lexed as the words read. -/
theorem lexed {t : Text} {ws : List (TokenKind × Text)} (h : Scans t ws []) :
    unrecognized t = [] ∧ (tokens t).map Token.bare = ws := by
  obtain ⟨ps, start, offset, hps, hlex, hws⟩ := h.exists_pieces Position.first 0
  rw [Piece.ofText, List.append_nil] at hps
  constructor
  · rw [unrecognized, pieces, hps, List.filter_eq_nil_iff]
    exact fun p hp => by simp [hlex p hp]
  · rw [tokens, pieces, hps, hws]

end Scans

/-! ## Spoiled texts -/

/-- Reading the text comes to a unit that begins no lexeme, or to a number and behind it a token
that no number is followed by in a pattern. -/
inductive Spoiled (t : Text) : Prop where
  | stuck {ws : List (TokenKind × Text)} {rest : Text} (hs : Scans t ws rest) (hne : rest ≠ [])
      (hnone : Lexeme.first? rest = none)
  | follows {ws : List (TokenKind × Text)} {n v : Text} {k : TokenKind} {rest : Text}
      (hs : Scans t (ws ++ [(.number, n), (k, v)]) rest) (hcomma : k ≠ .comma)
      (hrbrace : k ≠ .rbrace)

namespace Spoiled

theorem prepend {t u : Text} {ws : List (TokenKind × Text)} (h : Scans t ws u) (hu : Spoiled u) :
    Spoiled t := by
  cases hu with
  | stuck hs hne hnone => exact .stuck (h.append hs) hne hnone
  | follows hs hcomma hrbrace =>
    have hall := h.append hs
    rw [← List.append_assoc] at hall
    exact .follows hall hcomma hrbrace

/-- A spoiled text is not lexed, or a number is followed by a wrong token. -/
theorem unlexed {t : Text} (h : Spoiled t) (hlex : unrecognized t = []) :
    ∃ ts a b us, tokens t = ts ++ a :: b :: us ∧ a.kind = .number ∧ b.kind ≠ .comma ∧
      b.kind ≠ .rbrace := by
  cases h with
  | @stuck ws rest hs hne hnone =>
    obtain ⟨ps, start, offset, hps, -⟩ := hs.exists_pieces Position.first 0
    exfalso
    cases rest with
    | nil => exact hne rfl
    | cons c rest =>
      have hmem : Piece.first (c :: rest) start offset ∈ unrecognized t := by
        rw [unrecognized, pieces, hps, Piece.ofText_cons, List.mem_filter]
        refine ⟨by simp, ?_⟩
        rw [Piece.first, hnone]
        rfl
      rw [hlex] at hmem
      exact absurd hmem (by simp)
  | @follows ws n v k rest hs hcomma hrbrace =>
    obtain ⟨ps, start, offset, hps, -, hws⟩ := hs.exists_pieces Position.first 0
    obtain ⟨ts, us, hts, -, hus⟩ := List.map_eq_append_iff.1 hws
    obtain ⟨a, us, rfl, ha, hus⟩ := List.map_eq_cons_iff.1 hus
    obtain ⟨b, us, rfl, hb, -⟩ := List.map_eq_cons_iff.1 hus
    refine ⟨ts, a, b, us ++ (Piece.ofText rest 0 start offset).filterMap Piece.token?, ?_,
      congrArg Prod.fst ha, ?_, ?_⟩
    · rw [tokens, pieces, hps, List.filterMap_append, hts]
      simp
    · rw [show b.kind = k from congrArg Prod.fst hb]
      exact hcomma
    · rw [show b.kind = k from congrArg Prod.fst hb]
      exact hrbrace

end Spoiled

end TreeMatcher
