import Mathlib.Data.List.Chain
import TreeMatcher.Proofs.Number.Digits
import TreeMatcher.Proofs.Pattern.Derivation
import TreeMatcher.Proofs.Pattern.Quoting
import TreeMatcher.Proofs.Pattern.Scan

/-!
# Writing phrases down

A phrase is written with a blank between two units and around a bar, and with nothing between all
other tokens. Read again, the text gives the words of the phrase: a name or a number ends where a
mark or a blank follows, and a literal where no quote mark follows.

A number that is written with a decimal point or an exponent is not read as one word. Then reading
comes to a unit that begins no lexeme, or to a name behind a number.

* `Choice.text` and its companions — a phrase as text.
* `Token.Legible` — texts of tokens as they may be written.

## Main results

* `Choice.reads` — a phrase that is written down is read as its words, or the text is spoiled.
* `Choice.tidy_tokens` — in a phrase only a comma or a closing brace stands behind a number.
* `parse_spoiled` — a spoiled text has no tree.
-/

namespace TreeMatcher

/-! ## Single lexemes -/

namespace Lexeme

private theorem first?_name {t rest : Text} (ht : Text.isName t)
    (hr : ∀ c ∈ rest.head?, c.isNamePart = false) :
    first? (t ++ rest) = some (.token .name, t.length) := by
  cases t with
  | nil => cases ht
  | cons c t =>
    rw [Text.isName, Bool.and_eq_true, List.all_eq_true] at ht
    have hc : c.isBlank = false ∧ c ≠ CodeUnit.hash ∧ c ≠ CodeUnit.lineFeed ∧
        c ≠ CodeUnit.carriageReturn ∧ c.isQuote = false ∧ c.isDigit = false := by
      grind [CodeUnit.isNameStart, CodeUnit.isBlank, CodeUnit.isQuote, CodeUnit.isDigit]
    rw [List.cons_append, first?, if_neg (by simp [hc.1]), if_neg hc.2.1, if_neg hc.2.2.1,
      if_neg hc.2.2.2.1, if_neg (by simp [hc.2.2.2.2.1]), if_neg (by simp [hc.2.2.2.2.2]),
      if_pos ht.1, Text.run_append_of_stop _ _ _ ht.2 hr, List.length_cons]

private theorem first?_number {t rest : Text} (ht : Text.isDecimal t)
    (hr : ∀ c ∈ rest.head?, c.isDigit = false) :
    first? (t ++ rest) = some (.token .number, t.length) := by
  cases t with
  | nil => cases ht
  | cons c t =>
    rw [Text.isDecimal, Bool.and_eq_true, List.all_cons, Bool.and_eq_true, List.all_eq_true] at ht
    have hc : c.isBlank = false ∧ c ≠ CodeUnit.hash ∧ c ≠ CodeUnit.lineFeed ∧
        c ≠ CodeUnit.carriageReturn ∧ c.isQuote = false := by
      grind [CodeUnit.isDigit, CodeUnit.isBlank, CodeUnit.isQuote]
    rw [List.cons_append, first?, if_neg (by simp [hc.1]), if_neg hc.2.1, if_neg hc.2.2.1,
      if_neg hc.2.2.2.1, if_neg (by simp [hc.2.2.2.2]), if_pos ht.2.1,
      Text.run_append_of_stop _ _ _ ht.2.2 hr, List.length_cons]

theorem first?_mark {k : TokenKind} {m : CodeUnit} (h : k.mark? = some m) (rest : Text) :
    first? (m :: rest) = some (.token k, 1) := by
  cases k <;> cases h <;> rfl

theorem first?_string (v : Text) {rest : Text}
    (hr : ∀ c ∈ rest.head?, c ≠ CodeUnit.singleQuote) :
    first? (Literal.quote v ++ rest) = some (.token .string, (Literal.quote v).length) := by
  have hlen := Literal.stringLength?_quote v hr
  rw [Literal.quote_append] at hlen ⊢
  rw [first?, if_neg (by decide), if_neg (by decide), if_neg (by decide), if_neg (by decide),
    if_pos (by decide), hlen]
  rfl

end Lexeme

/-! ## Reading words -/

/-- A text that is read as some words up to a place; it may be spoiled instead where numbers may be
rounded. -/
def Reads (rounded : Prop) (t : Text) (ws : List (TokenKind × Text)) (rest : Text) : Prop :=
  Scans t ws rest ∨ rounded ∧ Spoiled t

variable {rounded : Prop}

namespace Reads

private theorem append {t u rest : Text} {ws us : List (TokenKind × Text)}
    (h : Reads rounded t ws u)
    (h' : Reads rounded u us rest) : Reads rounded t (ws ++ us) rest := by
  rcases h with h | h
  · rcases h' with h' | ⟨hr, h'⟩
    · exact .inl (h.append h')
    · exact .inr ⟨hr, h'.prepend h⟩
  · exact .inr h

private theorem cons {t u rest : Text} {w : TokenKind × Text} {ws : List (TokenKind × Text)}
    (h : Reads rounded t [w] u) (h' : Reads rounded u ws rest) : Reads rounded t (w :: ws) rest :=
  h.append h'

end Reads

/-- What may stand behind any token: a blank or a mark, or the end. -/
def Free (rest : Text) : Prop :=
  ∀ c ∈ rest.head?, c.isNamePart = false ∧ c ≠ CodeUnit.singleQuote

theorem free_nil : Free [] := by simp [Free]

private theorem free_mark {k : TokenKind} {m : CodeUnit} (h : k.mark? = some m) (rest : Text) :
    Free (m :: rest) := by
  intro c hc
  cases hc
  cases k <;> cases h <;> decide

private theorem free_blank (rest : Text) : Free (0x20 :: rest) := by
  intro c hc
  cases hc
  decide

private theorem Free.not_digit {rest : Text} (h : Free rest) :
    ∀ c ∈ rest.head?, c.isDigit = false := by
  intro c hc
  have := (h c hc).1
  rw [CodeUnit.isNamePart, Bool.or_eq_false_iff] at this
  exact this.2

theorem Scans.single {t rest : Text} {k : TokenKind}
    (h : Lexeme.first? (t ++ rest) = some (.token k, t.length)) :
    Scans (t ++ rest) [(k, t)] rest := by
  have hs : Scans ((t ++ rest).drop t.length) [] rest := by
    rw [List.drop_left]
    exact .done
  have := Scans.word h hs
  rwa [List.take_left] at this

/-- A blank in front is passed over, also together with the blanks behind it. -/
private theorem Scans.blank {t rest : Text} {ws : List (TokenKind × Text)} (h : Scans t ws rest)
    (hne : ws ≠ [] ∨ rest ≠ [] ∧ Lexeme.first? rest = none) : Scans (0x20 :: t) ws rest := by
  have hfirst : ∀ u : Text,
      Lexeme.first? (0x20 :: u) = some (.blanks, Text.run CodeUnit.isBlank u + 1) := fun _ => rfl
  have hblanks : ∀ k, Lexeme.blanks ≠ .token k := fun _ => Lexeme.noConfusion
  cases t with
  | nil =>
    cases h with
    | done => rcases hne with hne | hne <;> simp at hne
    | skip h => cases h
    | word h => cases h
  | cons c t =>
    cases hc : c.isBlank with
    | false =>
      refine .skip (hfirst _) hblanks ?_
      rw [Text.run_cons, hc]
      exact h
    | true =>
      have hself : Lexeme.first? (c :: t) =
          some (.blanks, Text.run CodeUnit.isBlank t + 1) := by
        rw [Lexeme.first?, if_pos hc]
      cases h with
      | done =>
        rcases hne with hne | hne
        · exact absurd rfl hne
        · rw [hself] at hne
          cases hne.2
      | word h =>
        rw [hself] at h
        cases h
      | skip h hl hs =>
        rw [hself] at h
        cases h
        refine .skip (hfirst _) hblanks ?_
        rw [Text.run_cons, if_pos hc]
        exact hs

private theorem Spoiled.blank {t : Text} (h : Spoiled t) : Spoiled (0x20 :: t) := by
  cases h with
  | stuck hs hne hnone => exact .stuck (hs.blank (.inr ⟨hne, hnone⟩)) hne hnone
  | follows hs hcomma hrbrace => exact .follows (hs.blank (.inl (by simp))) hcomma hrbrace

private theorem Reads.blank {t rest : Text} {ws : List (TokenKind × Text)}
    (h : Reads rounded t ws rest) (hne : ws ≠ []) : Reads rounded (0x20 :: t) ws rest := by
  rcases h with h | ⟨hr, h⟩
  · exact .inl (h.blank (.inl hne))
  · exact .inr ⟨hr, h.blank⟩

/-! ## Legible tokens -/

/-- The text of a token is one that may be written for its kind. -/
def Token.Legible (rounded : Prop) (t : Token) : Prop :=
  match t.kind with
  | .name => Text.isName t.text
  | .number => Text.IsNumeral rounded t.text
  | .string => ∃ v, t.text = Literal.quote v
  | k => ∃ m, k.mark? = some m ∧ t.text = [m]

private theorem reads_number {t : Text} (h : Text.IsNumeral rounded t) {rest : Text}
    (hr : Free rest) :
    Reads rounded (t ++ rest) [(.number, t)] rest := by
  rcases h with h | ⟨hrounded, digits, c, more, rfl, hd, hc⟩
  · exact .inl (.single (Lexeme.first?_number h hr.not_digit))
  · refine .inr ⟨hrounded, ?_⟩
    have hstop : ∀ d ∈ (c :: (more ++ rest)).head?, d.isDigit = false := by
      intro d hd
      cases hd
      rcases hc with rfl | rfl <;> decide
    have hs : Scans (digits ++ c :: (more ++ rest)) [(.number, digits)] (c :: (more ++ rest)) :=
      .single (Lexeme.first?_number hd hstop)
    rw [List.append_assoc, List.cons_append]
    rcases hc with rfl | rfl
    · exact .stuck hs (by simp) rfl
    · have hname : Lexeme.first? (0x65 :: (more ++ rest)) =
          some (.token .name, Text.run CodeUnit.isNamePart (more ++ rest) + 1) := rfl
      have hfollows := hs.append (.word hname .done)
      exact @Spoiled.follows _ [] _ _ _ _ hfollows (by decide) (by decide)

/-- A legible token is read as one word where it may end. -/
theorem Token.Legible.reads {t : Token} (h : t.Legible rounded) {rest : Text} (hr : Free rest) :
    Reads rounded (t.text ++ rest) [t.bare] rest := by
  obtain ⟨k, text, start, offset⟩ := t
  unfold Token.Legible at h
  dsimp only at h ⊢
  split at h
  · exact .inl (.single (Lexeme.first?_name h fun c hc => (hr c hc).1))
  · exact reads_number h hr
  · obtain ⟨v, rfl⟩ := h
    exact .inl (.single (Lexeme.first?_string v fun c hc => (hr c hc).2))
  · obtain ⟨m, hm, rfl⟩ := h
    exact .inl (.single (Lexeme.first?_mark hm rest))

/-! ## Phrases as texts -/

/-- The text of an optional capture name. -/
def captureSource : Option Capture → Text
  | none => []
  | some c => c.name.text ++ c.equal.text

/-- The text of a repeater. -/
def Repeater.text : Repeater → Text
  | star w => w.text
  | plus w => w.text
  | exactly l n r => l.text ++ (n.text ++ r.text)
  | between l n c m r => l.text ++ (n.text ++ (c.text ++ (m.text ++ r.text)))

mutual

/-- The text of alternatives, with blanks around the bars. -/
def Choice.text : Choice → Text
  | .single s => s.text
  | .either s bar c => s.text ++ 0x20 :: (bar.text ++ 0x20 :: c.text)

/-- The text of an alternative, with blanks between its units. -/
def Sequence.text : Sequence → Text
  | .single i => i.text
  | .followed i s => i.text ++ 0x20 :: s.text

/-- The text of a unit. -/
def Item.text : Item → Text
  | .negated bang o => bang.text ++ o.text
  | .plain capture? o => captureSource capture? ++ o.text
  | .repeated capture? b r => captureSource capture? ++ (b.text ++ r.text)

/-- The text of an operand. -/
def Operand.text : Operand → Text
  | .optional l c r => l.text ++ (c.text ++ r.text)
  | .basic b => b.text

/-- The text of a basic pattern. -/
def Basic.text : Basic → Text
  | .literal w => w.text
  | .name w => w.text
  | .detailed w l c r => w.text ++ (l.text ++ (c.text ++ r.text))
  | .group l c r => l.text ++ (c.text ++ r.text)

end

/-! ## Reading phrases -/

private theorem exists_mark {w : Word} {k : TokenKind} (h : (w.token k).Legible rounded)
    (hk : k.mark?.isSome) : ∃ m, k.mark? = some m ∧ w.text = [m] := by
  cases k with
  | name => cases hk
  | string => cases hk
  | number => cases hk
  | _ => exact h

/-- A mark is read as one word wherever it ends. -/
private theorem reads_mark {w : Word} {k : TokenKind} (h : (w.token k).Legible rounded)
    (hk : k.mark?.isSome) (rest : Text) :
    Reads rounded (w.text ++ rest) [(w.token k).bare] rest := by
  obtain ⟨m, hm, hw⟩ := exists_mark h hk
  refine .inl (.single ?_)
  rw [hw]
  exact Lexeme.first?_mark hm rest

/-- A token may end in front of a mark. -/
private theorem free_of_mark {w : Word} {k : TokenKind} (h : (w.token k).Legible rounded)
    (hk : k.mark?.isSome) (rest : Text) : Free (w.text ++ rest) := by
  obtain ⟨m, hm, hw⟩ := exists_mark h hk
  rw [hw]
  exact free_mark hm rest

private theorem reads_capture {capture? : Option Capture}
    (h : ∀ t ∈ captureTokens capture?, t.Legible rounded) (rest : Text) :
    Reads rounded (captureSource capture? ++ rest)
      ((captureTokens capture?).map Token.bare) rest := by
  cases capture? with
  | none => exact .inl .done
  | some c =>
    rw [captureTokens, List.forall_mem_cons, List.forall_mem_cons] at h
    rw [captureSource, List.append_assoc]
    exact .cons (h.1.reads (free_of_mark h.2.1 rfl rest)) (reads_mark h.2.1 rfl rest)

theorem Repeater.reads {r : Repeater} (h : ∀ t ∈ r.tokens, t.Legible rounded) (rest : Text) :
    Reads rounded (r.text ++ rest) (r.tokens.map Token.bare) rest := by
  cases r with
  | star w => exact reads_mark (h (w.token .star) (by simp [tokens])) rfl rest
  | plus w => exact reads_mark (h (w.token .plus) (by simp [tokens])) rfl rest
  | exactly l n r =>
    simp only [tokens, List.forall_mem_cons] at h
    obtain ⟨hl, hn, hr, -⟩ := h
    rw [text, List.append_assoc, List.append_assoc]
    exact .cons (reads_mark hl rfl _) (.cons (hn.reads (free_of_mark hr rfl rest))
      (reads_mark hr rfl rest))
  | between l n c m r =>
    simp only [tokens, List.forall_mem_cons] at h
    obtain ⟨hl, hn, hc, hm, hr, -⟩ := h
    rw [text, List.append_assoc, List.append_assoc, List.append_assoc, List.append_assoc]
    exact .cons (reads_mark hl rfl _) (.cons (hn.reads (free_of_mark hc rfl _))
      (.cons (reads_mark hc rfl _) (.cons (hm.reads (free_of_mark hr rfl rest))
        (reads_mark hr rfl rest))))

/-- A token may end in front of a repeater. -/
private theorem Repeater.free {r : Repeater} (h : ∀ t ∈ r.tokens, t.Legible rounded) (rest : Text) :
    Free (r.text ++ rest) := by
  cases r with
  | star w => exact free_of_mark (h (w.token .star) (by simp [tokens])) rfl rest
  | plus w => exact free_of_mark (h (w.token .plus) (by simp [tokens])) rfl rest
  | exactly l n r =>
    rw [text, List.append_assoc]
    exact free_of_mark (h (l.token .lbrace) (by simp [tokens])) rfl _
  | between l n c m r =>
    rw [text, List.append_assoc]
    exact free_of_mark (h (l.token .lbrace) (by simp [tokens])) rfl _

private theorem Item.tokens_ne_nil (i : Item) : i.tokens ≠ [] :=
  List.ne_nil_of_length_pos i.length_tokens_pos

private theorem Sequence.tokens_ne_nil (s : Sequence) : s.tokens ≠ [] := by
  cases s with
  | single i =>
    rw [tokens]
    exact i.tokens_ne_nil
  | followed i s =>
    rw [tokens]
    exact fun h => i.tokens_ne_nil (List.append_eq_nil_iff.1 h).1

theorem Choice.tokens_ne_nil (c : Choice) : c.tokens ≠ [] := by
  cases c with
  | single s =>
    rw [tokens]
    exact s.tokens_ne_nil
  | either s bar c =>
    rw [tokens]
    exact fun h => s.tokens_ne_nil (List.append_eq_nil_iff.1 h).1

mutual

theorem Choice.reads : (c : Choice) → (∀ t ∈ c.tokens, t.Legible rounded) → (rest : Text) →
    Free rest → Reads rounded (c.text ++ rest) (c.tokens.map Token.bare) rest
  | .single s, h, rest, hr => by
    rw [Choice.tokens] at h ⊢
    rw [Choice.text]
    exact Sequence.reads s h rest hr
  | .either s bar c, h, rest, hr => by
    rw [Choice.tokens, List.forall_mem_append, List.forall_mem_cons] at h
    rw [Choice.text, Choice.tokens, List.map_append, List.map_cons, List.append_assoc,
      List.cons_append, List.append_assoc, List.cons_append]
    refine (Sequence.reads s h.1 _ (free_blank _)).append (.blank ?_ (by simp))
    refine .cons (reads_mark h.2.1 rfl _) ?_
    exact (Choice.reads c h.2.2 rest hr).blank (by simpa using c.tokens_ne_nil)

theorem Sequence.reads : (s : Sequence) → (∀ t ∈ s.tokens, t.Legible rounded) → (rest : Text) →
    Free rest → Reads rounded (s.text ++ rest) (s.tokens.map Token.bare) rest
  | .single i, h, rest, hr => by
    rw [Sequence.tokens] at h ⊢
    rw [Sequence.text]
    exact Item.reads i h rest hr
  | .followed i s, h, rest, hr => by
    rw [Sequence.tokens, List.forall_mem_append] at h
    rw [Sequence.text, Sequence.tokens, List.map_append, List.append_assoc, List.cons_append]
    refine (Item.reads i h.1 _ (free_blank _)).append ?_
    exact (Sequence.reads s h.2 rest hr).blank (by simpa using s.tokens_ne_nil)

theorem Item.reads : (i : Item) → (∀ t ∈ i.tokens, t.Legible rounded) → (rest : Text) → Free rest →
    Reads rounded (i.text ++ rest) (i.tokens.map Token.bare) rest
  | .negated bang o, h, rest, hr => by
    rw [Item.tokens, List.forall_mem_cons] at h
    rw [Item.text, Item.tokens, List.map_cons, List.append_assoc]
    exact .cons (reads_mark h.1 rfl _) (Operand.reads o h.2 rest hr)
  | .plain capture? o, h, rest, hr => by
    rw [Item.tokens, List.forall_mem_append] at h
    rw [Item.text, Item.tokens, List.map_append, List.append_assoc]
    exact (reads_capture h.1 _).append (Operand.reads o h.2 rest hr)
  | .repeated capture? b r, h, rest, hr => by
    rw [Item.tokens, List.forall_mem_append, List.forall_mem_append] at h
    rw [Item.text, Item.tokens, List.map_append, List.map_append, List.append_assoc,
      List.append_assoc]
    refine (reads_capture h.1 _).append ?_
    exact (Basic.reads b h.2.1 _ (Repeater.free h.2.2 rest)).append (Repeater.reads h.2.2 rest)

theorem Operand.reads : (o : Operand) → (∀ t ∈ o.tokens, t.Legible rounded) → (rest : Text) →
    Free rest → Reads rounded (o.text ++ rest) (o.tokens.map Token.bare) rest
  | .optional l c r, h, rest, _ => by
    rw [Operand.tokens, List.forall_mem_cons, List.forall_mem_append, List.forall_mem_singleton]
      at h
    rw [Operand.text, Operand.tokens, List.map_cons, List.map_append, List.append_assoc,
      List.append_assoc]
    refine .cons (reads_mark h.1 rfl _) ?_
    exact (Choice.reads c h.2.1 _ (free_of_mark h.2.2 rfl rest)).append (reads_mark h.2.2 rfl rest)
  | .basic b, h, rest, hr => by
    rw [Operand.tokens] at h ⊢
    rw [Operand.text]
    exact Basic.reads b h rest hr

theorem Basic.reads : (b : Basic) → (∀ t ∈ b.tokens, t.Legible rounded) → (rest : Text) →
    Free rest → Reads rounded (b.text ++ rest) (b.tokens.map Token.bare) rest
  | .literal w, h, rest, hr => by
    rw [Basic.text, Basic.tokens]
    exact (h (w.token .string) (by simp [Basic.tokens])).reads hr
  | .name w, h, rest, hr => by
    rw [Basic.text, Basic.tokens]
    exact (h (w.token .name) (by simp [Basic.tokens])).reads hr
  | .detailed w l c r, h, rest, hr => by
    rw [Basic.tokens, List.forall_mem_cons, List.forall_mem_cons, List.forall_mem_append,
      List.forall_mem_singleton] at h
    obtain ⟨hw, hl, hc, hr'⟩ := h
    rw [Basic.text, Basic.tokens, List.map_cons, List.map_cons, List.map_append,
      List.append_assoc, List.append_assoc, List.append_assoc]
    refine .cons (hw.reads (free_of_mark hl rfl _)) (.cons (reads_mark hl rfl _) ?_)
    exact (Choice.reads c hc _ (free_of_mark hr' rfl rest)).append (reads_mark hr' rfl rest)
  | .group l c r, h, rest, _ => by
    rw [Basic.tokens, List.forall_mem_cons, List.forall_mem_append, List.forall_mem_singleton]
      at h
    rw [Basic.text, Basic.tokens, List.map_cons, List.map_append, List.append_assoc,
      List.append_assoc]
    refine .cons (reads_mark h.1 rfl _) ?_
    exact (Choice.reads c h.2.1 _ (free_of_mark h.2.2 rfl rest)).append (reads_mark h.2.2 rfl rest)

end

/-! ## What stands behind a number -/

/-- Only a comma or a closing brace stands behind a number, and no number stands at the end. -/
def Tidy (ts : List Token) : Prop :=
  ts.IsChain (fun a b => a.kind = .number → b.kind = .comma ∨ b.kind = .rbrace) ∧
    ∀ t ∈ ts.getLast?, t.kind ≠ .number

private theorem tidy_nil : Tidy [] := ⟨.nil, by simp⟩

private theorem Tidy.append {ts us : List Token} (h : Tidy ts) (h' : Tidy us) :
    Tidy (ts ++ us) := by
  constructor
  · exact h.1.append h'.1 fun a ha b _ hk => absurd hk (h.2 a ha)
  · intro t ht
    rw [List.getLast?_append] at ht
    cases hu : us.getLast? with
    | none =>
      rw [hu] at ht
      exact h.2 t ht
    | some u =>
      rw [hu] at ht
      cases ht
      exact h'.2 t hu

private theorem tidy_single {t : Token} (h : t.kind ≠ .number) : Tidy [t] :=
  ⟨.singleton t, by simpa using h⟩

private theorem Tidy.cons {t : Token} {ts : List Token} (ht : t.kind ≠ .number) (h : Tidy ts) :
    Tidy (t :: ts) :=
  (tidy_single ht).append h

private theorem tidy_capture (capture? : Option Capture) : Tidy (captureTokens capture?) := by
  cases capture? with
  | none => exact tidy_nil
  | some c => exact .cons (by simp) (tidy_single (by simp))

private theorem Repeater.tidy (r : Repeater) : Tidy r.tokens := by
  cases r <;> simp [Tidy, tokens]

mutual

theorem Choice.tidy_tokens : (c : Choice) → Tidy c.tokens
  | .single s => by
    rw [Choice.tokens]
    exact Sequence.tidy_tokens s
  | .either s bar c => by
    rw [Choice.tokens]
    exact (Sequence.tidy_tokens s).append (.cons (by simp) (Choice.tidy_tokens c))

theorem Sequence.tidy_tokens : (s : Sequence) → Tidy s.tokens
  | .single i => by
    rw [Sequence.tokens]
    exact Item.tidy_tokens i
  | .followed i s => by
    rw [Sequence.tokens]
    exact (Item.tidy_tokens i).append (Sequence.tidy_tokens s)

theorem Item.tidy_tokens : (i : Item) → Tidy i.tokens
  | .negated bang o => by
    rw [Item.tokens]
    exact .cons (by simp) (Operand.tidy_tokens o)
  | .plain capture? o => by
    rw [Item.tokens]
    exact (tidy_capture capture?).append (Operand.tidy_tokens o)
  | .repeated capture? b r => by
    rw [Item.tokens]
    exact (tidy_capture capture?).append ((Basic.tidy_tokens b).append r.tidy)

theorem Operand.tidy_tokens : (o : Operand) → Tidy o.tokens
  | .optional l c r => by
    rw [Operand.tokens]
    exact .cons (by simp) ((Choice.tidy_tokens c).append (tidy_single (by simp)))
  | .basic b => by
    rw [Operand.tokens]
    exact Basic.tidy_tokens b

theorem Basic.tidy_tokens : (b : Basic) → Tidy b.tokens
  | .literal w => by
    rw [Basic.tokens]
    exact tidy_single (by simp)
  | .name w => by
    rw [Basic.tokens]
    exact tidy_single (by simp)
  | .detailed w l c r => by
    rw [Basic.tokens]
    exact .cons (by simp) (.cons (by simp)
      ((Choice.tidy_tokens c).append (tidy_single (by simp))))
  | .group l c r => by
    rw [Basic.tokens]
    exact .cons (by simp) ((Choice.tidy_tokens c).append (tidy_single (by simp)))

end

/-- A spoiled text has no tree. -/
theorem parse_spoiled {t : Text} (h : Spoiled t) (tree : Tree) : parse t ≠ .ok tree := by
  intro hp
  obtain ⟨hlex, c, htokens, -⟩ := parse_eq_ok_iff_choice.1 hp
  obtain ⟨ts, a, b, us, heq, ha, hcomma, hrbrace⟩ := h.unlexed hlex
  have htidy := c.tidy_tokens.1
  rw [← htokens, heq, List.isChain_append_cons_cons] at htidy
  rcases htidy.2.1 ha with hb | hb
  · exact hcomma hb
  · exact hrbrace hb

end TreeMatcher
