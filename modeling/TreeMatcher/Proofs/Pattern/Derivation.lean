import TreeMatcher.Proofs.Pattern.Settling

/-!
# The strict parser reads exactly the phrases

Reading follows the rules of the grammar in both directions. Whatever the strict parser takes are
the tokens of a phrase, and the trees it makes are those of the phrase; and the tokens of a phrase
are read as that phrase, as long as the next token could not prolong it. The number of open brackets
bounds the recursion, and a bracket is a token, so the bound is never met.

## Main results

* `parseTokens_strict_iff` — tokens are parsed without a mismatch exactly when they are those of a
  choice, and then the tree is that of the choice.
* `parse_eq_ok_iff_choice` — the same for texts.
-/

namespace TreeMatcher

namespace Parser

/-! ## From the parser to phrases -/

section Soundness

variable {inside : Context → Parser} {depth : Nat}

/-- What a parser of alternatives takes. -/
abbrev IsChoice (taken : List Token) (trees : List Tree) : Prop :=
  ∃ c : Choice, taken = c.tokens ∧ trees = c.trees

/-- What a parser of a basic pattern takes. -/
abbrev IsBasic (taken : List Token) (trees : List Tree) : Prop :=
  ∃ b : Basic, taken = b.tokens ∧ trees = b.trees

/-- What a parser of a unit takes. -/
abbrev IsItem (taken : List Token) (trees : List Tree) : Prop :=
  ∃ i : Item, taken = i.tokens ∧ trees = [i.tree]

/-- What a parser of an alternative takes. -/
abbrev IsSequence (taken : List Token) (trees : List Tree) : Prop :=
  ∃ s : Sequence, taken = s.tokens ∧ trees = [s.tree]

/-- Alternatives are read wherever fewer tokens than the depth are left. -/
def ReadsInside (inside : Context → Parser) (depth : Nat) : Prop :=
  ∀ (ctx : Context) (ts : List Token), ts.length < depth → Settles (inside ctx) ts IsChoice

private theorem settles_bracketed (hin : ReadsInside inside depth) (close : TokenKind)
    (ctx : Context) {t : Token} {ts : List Token} (hlen : (t :: ts).length ≤ depth)
    {D : List Token → List Tree → Prop}
    (hD : ∀ (c : Choice) (r : Word),
      D (t :: (c.tokens ++ [r.token close])) [.ofToken t, c.tree, r.leaf close]) :
    Settles (bracketed .strict inside close ctx) (t :: ts) D := by
  rw [bracketed, recovering_strict]
  refine Settles.andThen (D := fun taken trees => taken = [t] ∧ trees = [.ofToken t])
    (.take ⟨rfl, rfl⟩) ?_
  rintro _ _ rest hts ⟨rfl, rfl⟩
  simp only [List.cons_append, List.nil_append, List.cons.injEq, true_and] at hts
  subst hts
  refine Settles.andThen
    (D := fun taken trees => ∃ c : Choice, taken = c.tokens ∧ trees = [c.tree]) ?_ ?_
  · have hlt : ts.length < depth := hlen
    refine .asPhrase ((hin _ _ hlt).mono ?_)
    rintro _ _ ⟨c, rfl, rfl⟩
    exact ⟨c, rfl, rfl⟩
  · rintro _ _ rest - ⟨c, rfl, rfl⟩
    exact .require close _ fun r => by simpa using hD c r

private theorem settles_basic (hin : ReadsInside inside depth) (ctx : Context) {ts : List Token}
    (hlen : ts.length ≤ depth) {k : TokenKind} (hk : next? ts = some k)
    (hmem : k = .string ∨ k = .name ∨ k = .lpar) :
    Settles (basic .strict inside ctx) ts IsBasic := by
  obtain ⟨w, us, rfl⟩ := exists_token_of_next? hk
  rcases hmem with rfl | rfl | rfl
  · change Settles Parser.take (w.token .string :: us) IsBasic
    exact .take ⟨.literal w, rfl, rfl⟩
  · change Settles (Parser.andThen Parser.take (whenNext [.less] (details .strict inside ctx)))
      (w.token .name :: us) IsBasic
    refine Settles.andThen
      (D := fun taken trees => taken = [w.token .name] ∧ trees = [w.leaf .name])
      (.take ⟨rfl, rfl⟩) ?_
    rintro _ _ rest hts ⟨rfl, rfl⟩
    simp only [List.cons_append, List.nil_append, List.cons.injEq, true_and] at hts
    subst hts
    refine .whenNext (fun hless => ?_) ⟨.name w, rfl, rfl⟩
    obtain ⟨l, k, us, hk', rfl⟩ := exists_token_of_nextIn hless
    obtain rfl := List.mem_singleton.1 hk'
    refine .asPhrase (settles_bracketed hin _ _ (Nat.le_of_succ_le hlen) fun c r => ?_)
    exact ⟨.detailed w l c r, rfl, rfl⟩
  · change Settles (bracketed .strict inside .rpar ctx) (w.token .lpar :: us) IsBasic
    exact settles_bracketed hin _ _ hlen fun c r => ⟨.group w c r, rfl, rfl⟩

/-- An operand is an optional group, or what the plain parser reads. -/
private theorem settles_operand (hin : ReadsInside inside depth) (plain : Parser) (ctx : Context)
    {ts : List Token} (hlen : ts.length ≤ depth) {D : List Token → List Tree → Prop}
    (hoptional : ∀ o : Operand, (∃ l c r, o = .optional l c r) → D o.tokens o.trees)
    (hplain : ∀ k, next? ts = some k → k = .string ∨ k = .name ∨ k = .lpar → Settles plain ts D) :
    Settles (operand .strict inside plain ctx) ts D := by
  have refused (h : operand .strict inside plain ctx ts = Parser.refuse .basic ts) :
      Settles (operand .strict inside plain ctx) ts D := by
    refine .inl ?_
    rw [Refuses, h]
    exact ⟨rfl, by simp [Parser.refuse]⟩
  have plainly (h : operand .strict inside plain ctx ts = plain ts) (hp : Settles plain ts D) :
      Settles (operand .strict inside plain ctx) ts D := by
    simpa [Settles, Refuses, Accepts, h] using hp
  cases hk : next? ts with
  | none => exact refused (by simp [operand, hk])
  | some k =>
    cases k
    case lsqb =>
      obtain ⟨w, us, rfl⟩ := exists_token_of_next? hk
      change Settles (bracketed .strict inside .rsqb ctx) (w.token .lsqb :: us) D
      exact settles_bracketed hin _ _ hlen fun c r => hoptional (.optional w c r) ⟨w, c, r, rfl⟩
    case string => exact plainly (by simp [operand, hk]) (hplain _ hk (by simp))
    case name => exact plainly (by simp [operand, hk]) (hplain _ hk (by simp))
    case lpar => exact plainly (by simp [operand, hk]) (hplain _ hk (by simp))
    all_goals exact refused (by simp [operand, hk])

private theorem settles_bounds (ctx : Context) (l : Word) {ts : List Token} :
    Settles (bounds .strict ctx) (l.token .lbrace :: ts)
      fun taken trees => ∃ r : Repeater, taken = r.tokens ∧ trees = r.trees := by
  refine Settles.andThen
    (D := fun taken trees => taken = [l.token .lbrace] ∧ trees = [l.leaf .lbrace])
    (.take ⟨rfl, rfl⟩) ?_
  rintro _ _ rest - ⟨rfl, rfl⟩
  refine Settles.andThen
    (D := fun taken trees => ∃ n : Word, taken = [n.token .number] ∧ trees = [n.leaf .number])
    (.require _ _ fun n => ⟨n, rfl, rfl⟩) ?_
  rintro _ _ rest - ⟨n, rfl, rfl⟩
  refine Settles.andThen
    (D := fun taken trees => (taken = [] ∧ trees = []) ∨ ∃ c m : Word,
      taken = [c.token .comma, m.token .number] ∧ trees = [c.leaf .comma, m.leaf .number])
    (.whenNext (fun hcomma => ?_) (.inl ⟨rfl, rfl⟩)) ?_
  · obtain ⟨c, k, us, hk, rfl⟩ := exists_token_of_nextIn hcomma
    obtain rfl := List.mem_singleton.1 hk
    refine Settles.andThen
      (D := fun taken trees => taken = [c.token .comma] ∧ trees = [c.leaf .comma])
      (.take ⟨rfl, rfl⟩) ?_
    rintro _ _ rest - ⟨rfl, rfl⟩
    exact .require _ _ fun m => .inr ⟨c, m, rfl, rfl⟩
  · rintro _ _ rest - (⟨rfl, rfl⟩ | ⟨c, m, rfl, rfl⟩)
    · exact .require _ _ fun r => ⟨.exactly l n r, rfl, rfl⟩
    · exact .require _ _ fun r => ⟨.between l n c m r, rfl, rfl⟩

private theorem settles_repeater (ctx : Context) {ts : List Token}
    (hk : nextIn repeaterStarts ts = true) :
    Settles (repeater .strict ctx) ts
      fun taken trees => ∃ r : Repeater, taken = r.tokens ∧ trees = [r.tree] := by
  obtain ⟨w, k, us, hmem, rfl⟩ := exists_token_of_nextIn hk
  refine .asPhrase (Settles.mono (D := fun taken trees =>
    ∃ r : Repeater, taken = r.tokens ∧ trees = r.trees) ?_ ?_)
  · simp only [repeaterStarts, List.mem_cons, List.not_mem_nil, or_false] at hmem
    rcases hmem with rfl | rfl | rfl
    · change Settles Parser.take (w.token .star :: us) _
      exact .take ⟨.star w, rfl, rfl⟩
    · change Settles Parser.take (w.token .plus :: us) _
      exact .take ⟨.plus w, rfl, rfl⟩
    · exact settles_bounds ctx w
  · rintro _ _ ⟨r, rfl, rfl⟩
    exact ⟨r, rfl, rfl⟩

private theorem settles_capture {ts : List Token} :
    Settles capture ts fun taken trees =>
      ∃ capture? : Option Capture,
        taken = captureTokens capture? ∧ trees = captureTrees capture? := by
  have none_taken (h : capture ts = Parser.nothing ts) :
      Settles capture ts fun taken trees => ∃ capture? : Option Capture,
        taken = captureTokens capture? ∧ trees = captureTrees capture? :=
    .inr ⟨[], [], ts, rfl, h, none, rfl, rfl⟩
  match ts, none_taken with
  | [], none_taken => exact none_taken rfl
  | [t], none_taken => exact none_taken rfl
  | t :: u :: us, none_taken =>
    by_cases hk : t.kind = .name ∧ u.kind = .equal
    · refine .inr ⟨[t, u], [.ofToken t, .ofToken u], us, rfl, ?_, some ⟨t.word, u.word⟩, ?_, ?_⟩
      · simp [Accepts, capture, hk, Parser.andThen, Parser.take]
      · simp [captureTokens, Token.token_word hk.1, Token.token_word hk.2]
      · simp [captureTrees, Word.leaf, Token.token_word hk.1, Token.token_word hk.2]
    · exact none_taken (by simp [capture, hk])

private theorem settles_plainUnit (hin : ReadsInside inside depth) (ctx : Context) {ts : List Token}
    (hlen : ts.length ≤ depth) : Settles (plainUnit .strict inside ctx) ts IsItem := by
  refine .asPhrase (settles_capture.andThen ?_)
  rintro _ _ rest hts ⟨capture?, rfl, rfl⟩
  have hlen' : rest.length ≤ depth := by simp [hts] at hlen; omega
  refine settles_operand hin _ _ hlen' (fun o _ => ⟨.plain capture? o, rfl, rfl⟩) ?_
  intro k hk hmem
  rw [repeated, recovering_strict]
  refine (settles_basic hin _ hlen' hk hmem).andThen ?_
  rintro _ _ rest - ⟨b, rfl, rfl⟩
  refine .whenNext (fun hr => ?_) ⟨.plain capture? (.basic b),
    by simp [Item.tokens, Operand.tokens], by simp [Item.tree, Operand.trees]⟩
  refine (settles_repeater _ hr).mono ?_
  rintro _ _ ⟨r, rfl, rfl⟩
  exact ⟨.repeated capture? b r, rfl, rfl⟩

private theorem settles_negatedUnit (hin : ReadsInside inside depth) (ctx : Context) (w : Word)
    {ts : List Token} (hlen : (w.token .bang :: ts).length ≤ depth) :
    Settles (negatedUnit .strict inside ctx) (w.token .bang :: ts) IsItem := by
  refine .asPhrase (Settles.andThen
    (D := fun taken trees => taken = [w.token .bang] ∧ trees = [w.leaf .bang])
    (.take ⟨rfl, rfl⟩) ?_)
  rintro _ _ rest hts ⟨rfl, rfl⟩
  simp only [List.cons_append, List.nil_append, List.cons.injEq, true_and] at hts
  subst hts
  have hlen' : ts.length ≤ depth := Nat.le_of_succ_le hlen
  refine settles_operand hin _ _ hlen' (fun o _ => ⟨.negated w o, rfl, rfl⟩) ?_
  intro k hk hmem
  refine (settles_basic hin _ hlen' hk hmem).mono ?_
  rintro _ _ ⟨b, rfl, rfl⟩
  exact ⟨.negated w (.basic b), rfl, rfl⟩

theorem settles_unit (hin : ReadsInside inside depth) (ctx : Context) {ts : List Token}
    (hlen : ts.length ≤ depth) : Settles (unit .strict inside ctx) ts IsItem := by
  rw [unit, recovering_strict]
  by_cases hk : next? ts = some .bang
  · obtain ⟨w, us, rfl⟩ := exists_token_of_next? hk
    exact settles_negatedUnit hin (ctx.within unitStarts) w hlen
  · simpa [Settles, Refuses, Accepts, hk] using settles_plainUnit hin (ctx.within unitStarts) hlen

theorem settles_alternative (hin : ReadsInside inside depth) (ctx : Context) {ts : List Token}
    (hlen : ts.length ≤ depth) : Settles (alternative .strict inside ctx) ts IsSequence := by
  rw [alternative, recovering_strict]
  refine .asPhrase ?_
  cases hk : nextIn unitStarts ts with
  | false =>
    refine .inl ?_
    simp [Refuses, hk, Parser.refuse]
  | true =>
    have hunit : ∀ us : List Token, us.length ≤ ts.length → nextIn unitStarts us = true →
        Settles (unit .strict inside (ctx.within [.vbar])) us IsItem :=
      fun us hus _ => settles_unit hin _ (Nat.le_trans hus hlen)
    -- the first unit is there for sure, and the others make up a sequence or nothing
    have hmany : Settles (manyUpTo unitStarts (unit .strict inside (ctx.within [.vbar])) ts.length)
        ts fun taken trees => ∃ s : Sequence, taken = s.tokens ∧ trees = s.trees := by
      obtain ⟨w, k, us, -, rfl⟩ := exists_token_of_nextIn hk
      have hfirst := hunit _ (Nat.le_refl _) hk
      have hseq : Settles (Parser.andThen (unit .strict inside (ctx.within [.vbar]))
          (manyUpTo unitStarts (unit .strict inside (ctx.within [.vbar])) us.length))
          (w.token k :: us) fun taken trees =>
            ∃ s : Sequence, taken = s.tokens ∧ trees = s.trees := by
        refine hfirst.andThen ?_
        rintro _ _ rest hts ⟨i, rfl, rfl⟩
        have hrest : rest.length ≤ (w.token k :: us).length := by simp [hts]
        refine (Settles.manyUpTo (D := IsItem) (E := fun taken trees => taken = [] ∧ trees = [] ∨
          ∃ s : Sequence, taken = s.tokens ∧ trees = s.trees) _
          (fun vs hvs => hunit vs (Nat.le_trans hvs hrest)) (.inl ⟨rfl, rfl⟩) ?_).mono ?_
        · rintro _ _ _ _ ⟨i, rfl, rfl⟩ (⟨rfl, rfl⟩ | ⟨s, rfl, rfl⟩)
          · exact .inr ⟨.single i, by simp [Sequence.tokens], rfl⟩
          · exact .inr ⟨.followed i s, rfl, rfl⟩
        · rintro _ _ (⟨rfl, rfl⟩ | ⟨s, rfl, rfl⟩)
          · exact ⟨.single i, by simp [Sequence.tokens], rfl⟩
          · exact ⟨.followed i s, rfl, rfl⟩
      simpa [Settles, Refuses, Accepts, Parser.manyUpTo, Parser.whenNext, hk] using hseq
    have htree := hmany.mono (E := fun taken trees => IsSequence taken [.phrase .alternative trees])
      (by rintro _ _ ⟨s, rfl, rfl⟩; exact ⟨s, rfl, rfl⟩)
    simpa [Settles, Refuses, Accepts, hk, Parser.many] using htree

private theorem settles_separated (hin : ReadsInside inside depth) (ctx : Context) {ts : List Token}
    (hlen : ts.length ≤ depth) : Settles (separated .strict inside ctx) ts IsChoice := by
  have halternative : ∀ us : List Token, us.length ≤ ts.length →
      Settles (alternative .strict inside ctx) us IsSequence :=
    fun us hus => settles_alternative hin _ (Nat.le_trans hus hlen)
  refine (halternative ts (Nat.le_refl _)).andThen ?_
  rintro _ _ rest hts ⟨s, rfl, rfl⟩
  have hrest : rest.length ≤ ts.length := by simp [hts]
  refine Settles.mono (D := fun taken trees => taken = [] ∧ trees = [] ∨
    ∃ (bar : Word) (c : Choice), taken = bar.token .vbar :: c.tokens ∧
      trees = bar.leaf .vbar :: c.trees) ?_ ?_
  · change Settles (manyUpTo _ _ rest.length) rest _
    refine Settles.manyUpTo (D := fun taken trees => ∃ (bar : Word) (s : Sequence),
      taken = bar.token .vbar :: s.tokens ∧ trees = [bar.leaf .vbar, s.tree]) _ ?_
      (.inl ⟨rfl, rfl⟩) ?_
    · intro us hus hbar
      obtain ⟨bar, k, us, hk, rfl⟩ := exists_token_of_nextIn hbar
      obtain rfl := List.mem_singleton.1 hk
      refine Settles.andThen
        (D := fun taken trees => taken = [bar.token .vbar] ∧ trees = [bar.leaf .vbar])
        (.take ⟨rfl, rfl⟩) ?_
      rintro _ _ rest' hts' ⟨rfl, rfl⟩
      have hle : rest'.length ≤ (bar.token .vbar :: us).length := by simp [hts']
      refine (halternative rest' (by omega)).mono ?_
      rintro _ _ ⟨s, rfl, rfl⟩
      exact ⟨bar, s, rfl, rfl⟩
    · rintro _ _ _ _ ⟨bar, s, rfl, rfl⟩ (⟨rfl, rfl⟩ | ⟨bar', c, rfl, rfl⟩)
      · exact .inr ⟨bar, .single s, by simp [Choice.tokens], rfl⟩
      · exact .inr ⟨bar, .either s bar' c, rfl, rfl⟩
  · rintro _ _ (⟨rfl, rfl⟩ | ⟨bar, c, rfl, rfl⟩)
    · exact ⟨.single s, by simp [Choice.tokens], rfl⟩
    · exact ⟨.either s bar c, rfl, rfl⟩

end Soundness

/-- Alternatives are read, as long as the depth exceeds the number of tokens. -/
theorem settles_alternatives (depth : Nat) : ReadsInside (alternatives .strict depth) depth := by
  induction depth with
  | zero => intro ctx ts h; omega
  | succ depth ih => exact fun ctx ts h => settles_separated ih ctx (Nat.le_of_lt_succ h)

end Parser

/-! ## From phrases to the parser -/

open TreeMatcher.Parser

/-- The kinds that would prolong a unit. -/
def itemStops : List TokenKind := [.less, .equal, .star, .plus, .lbrace]

/-- The kinds that would prolong an alternative. -/
def sequenceStops : List TokenKind := unitStarts ++ itemStops

/-- The kinds that would prolong alternatives. -/
def choiceStops : List TokenKind := .vbar :: sequenceStops

section Completeness

variable {inside : Context → Parser} {ctx : Context} {ts rest : List Token}

private theorem accepts_bracketed {close : TokenKind} {c : Choice} (k : TokenKind) (l r : Word)
    (hc : Accepts (inside (ctx.bracket close)) (c.tokens ++ r.token close :: rest) c.trees
      (r.token close :: rest)) :
    Accepts (bracketed .strict inside close ctx)
      (l.token k :: (c.tokens ++ [r.token close]) ++ rest)
      [l.leaf k, c.tree, r.leaf close] rest := by
  rw [bracketed, recovering_strict, List.cons_append, List.append_assoc]
  exact (accepts_take k l).andThen (hc.asPhrase.andThen (accepts_require close r _))

private theorem accepts_operand_plain {plain : Parser} {trees : List Tree} {k : TokenKind}
    (hk : next? ts = some k) (hmem : k = .string ∨ k = .name ∨ k = .lpar)
    (h : Accepts plain ts trees rest) :
    Accepts (operand .strict inside plain ctx) ts trees rest := by
  rcases hmem with rfl | rfl | rfl <;> simpa [Accepts, operand, hk] using h

private theorem accepts_operand_optional {plain : Parser} {c : Choice} (l r : Word)
    (hc : Accepts (inside (ctx.bracket .rsqb)) (c.tokens ++ r.token .rsqb :: rest) c.trees
      (r.token .rsqb :: rest)) :
    Accepts (operand .strict inside plain ctx) ((Operand.optional l c r).tokens ++ rest)
      (Operand.optional l c r).trees rest := by
  change Accepts (bracketed .strict inside .rsqb ctx) _ _ _
  exact accepts_bracketed .lsqb l r hc

private theorem accepts_repeater (r : Repeater) :
    Accepts (repeater .strict ctx) (r.tokens ++ rest) [r.tree] rest := by
  refine @Accepts.asPhrase _ _ _ .repeater _ ?_
  cases r with
  | star w => exact accepts_take .star w
  | plus w => exact accepts_take .plus w
  | exactly l n r =>
    exact (accepts_take .lbrace l).andThen <| (accepts_require .number n _).andThen <|
      (accepts_whenNext_nothing (by simp)).andThen (accepts_require .rbrace r _)
  | between l n c m r =>
    exact (accepts_take .lbrace l).andThen <| (accepts_require .number n _).andThen <|
      (Accepts.whenNext (by simp)
        ((accepts_take .comma c).andThen (accepts_require .number m _))).andThen
        (accepts_require .rbrace r _)

theorem Repeater.starts (r : Repeater) (rest : List Token) :
    nextIn repeaterStarts (r.tokens ++ rest) = true := by
  cases r <;> rfl

/-- What begins a repeater makes no capture and opens no details. -/
theorem nextIn_of_repeaterStarts (h : nextIn repeaterStarts ts = true) :
    nextIn [.equal] ts = false ∧ nextIn [.less] ts = false := by
  obtain ⟨w, k, us, hk, rfl⟩ := exists_token_of_nextIn h
  simp only [repeaterStarts, List.mem_cons, List.not_mem_nil, or_false] at hk
  rcases hk with rfl | rfl | rfl <;> exact ⟨rfl, rfl⟩

private theorem next?_ne_bang {k : TokenKind} (hk : next? ts = some k)
    (hmem : k = .string ∨ k = .name ∨ k = .lpar) : next? ts ≠ some .bang := by
  rcases hmem with rfl | rfl | rfl <;> simp [hk]

private theorem Basic.next?_tokens (b : Basic) (rest : List Token) :
    ∃ k, next? (b.tokens ++ rest) = some k ∧ (k = .string ∨ k = .name ∨ k = .lpar) := by
  cases b <;> exact ⟨_, rfl, by simp⟩

private theorem Item.starts (i : Item) (rest : List Token) :
    nextIn unitStarts (i.tokens ++ rest) = true := by
  rcases i with ⟨w, o⟩ | ⟨_ | c, ⟨l, c, r⟩ | ⟨⟨w⟩ | ⟨w⟩ | ⟨w, l, c, r⟩ | ⟨l, c, r⟩⟩⟩ |
    ⟨_ | c, ⟨w⟩ | ⟨w⟩ | ⟨w, l, c, r⟩ | ⟨l, c, r⟩, r⟩ <;> rfl

theorem Sequence.starts (s : Sequence) (rest : List Token) :
    nextIn unitStarts (s.tokens ++ rest) = true := by
  cases s with
  | single i => exact Item.starts i rest
  | followed i s => simpa [Sequence.tokens] using Item.starts i (s.tokens ++ rest)

theorem Item.length_tokens_pos (i : Item) : 1 ≤ i.tokens.length := by
  have h := i.starts []
  rw [List.append_nil] at h
  obtain ⟨w, k, us, -, hts⟩ := exists_token_of_nextIn h
  simp [hts]

/-- What begins a unit prolongs no other unit. -/
theorem nextIn_itemStops_of_starts (h : nextIn unitStarts ts = true) :
    nextIn itemStops ts = false := by
  obtain ⟨w, k, us, hk, rfl⟩ := exists_token_of_nextIn h
  simp only [unitStarts, List.mem_cons, List.not_mem_nil, or_false] at hk
  rcases hk with rfl | rfl | rfl | rfl | rfl <;> rfl

/-- A capture name is read, or nothing where a unit begins with something else. -/
private theorem accepts_capture (capture? : Option Capture)
    (h : capture? = none → capture ts = Parser.nothing ts) :
    Accepts capture (captureTokens capture? ++ ts) (captureTrees capture?) ts := by
  cases capture? with
  | none => exact h rfl
  | some c => rfl

/-- Only a name begins a capture. -/
private theorem capture_token {k : TokenKind} (hk : k ≠ .name) (w : Word) :
    capture (w.token k :: ts) = Parser.nothing (w.token k :: ts) := by
  cases ts <;> simp [capture, hk]

private theorem capture_basic (b : Basic) (h : nextIn [.equal] rest = false) :
    capture (b.tokens ++ rest) = Parser.nothing (b.tokens ++ rest) := by
  cases b with
  | literal w => exact capture_token (by decide) w
  | name w =>
    cases rest with
    | nil => rfl
    | cons t us => simp_all [Basic.tokens, capture, nextIn]
  | detailed w l c r => simp [Basic.tokens, capture]
  | group l c r => exact capture_token (by decide) l

/-- An alternative is read when its units are, one after the other. -/
private theorem accepts_alternative {s : Sequence}
    (h : Accepts (manyUpTo unitStarts (unit .strict inside (ctx.within [.vbar]))
      (s.tokens ++ rest).length) (s.tokens ++ rest) s.trees rest) :
    Accepts (alternative .strict inside ctx) (s.tokens ++ rest) [s.tree] rest := by
  rw [alternative, recovering_strict]
  refine @Accepts.asPhrase _ _ _ .alternative _ ?_
  simpa [Accepts, Sequence.starts s, many] using h

/-- A unit that is not negated is read when its operand is. -/
private theorem accepts_plainUnit {capture? : Option Capture} {trees : List Tree}
    (hstart : next? (captureTokens capture? ++ ts) ≠ some .bang)
    (hcapture : capture? = none → capture ts = Parser.nothing ts)
    (h : ∀ ctx : Context,
      Accepts (operand .strict inside (Parser.repeated .strict inside ctx) ctx) ts trees rest) :
    Accepts (unit .strict inside ctx) (captureTokens capture? ++ ts)
      [.phrase .unit (captureTrees capture? ++ trees)] rest := by
  have hunit : Accepts (plainUnit .strict inside (ctx.within unitStarts))
      (captureTokens capture? ++ ts) [.phrase .unit (captureTrees capture? ++ trees)] rest :=
    ((accepts_capture capture? hcapture).andThen (h _)).asPhrase
  rw [unit, recovering_strict]
  simpa [Accepts, hstart] using hunit

/-- A negated unit is read when its operand is. -/
private theorem accepts_negatedUnit (bang : Word) {o : Operand}
    (h : ∀ ctx : Context,
      Accepts (operand .strict inside (basic .strict inside ctx) ctx)
        (o.tokens ++ rest) o.trees rest) :
    Accepts (unit .strict inside ctx) ((Item.negated bang o).tokens ++ rest)
      [(Item.negated bang o).tree] rest := by
  have hunit : Accepts (negatedUnit .strict inside (ctx.within unitStarts))
      ((Item.negated bang o).tokens ++ rest) [(Item.negated bang o).tree] rest :=
    ((accepts_take .bang bang).andThen (h _)).asPhrase
  rw [unit, recovering_strict]
  simpa [Accepts, Item.tokens] using hunit

/-- A basic pattern without a repeater behind it. -/
private theorem accepts_repeated_nothing {b : Basic}
    (h : ∀ ctx : Context, Accepts (basic .strict inside ctx) (b.tokens ++ rest) b.trees rest)
    (hrest : nextIn repeaterStarts rest = false) :
    Accepts (Parser.repeated .strict inside ctx) (b.tokens ++ rest) b.trees rest := by
  rw [Parser.repeated, recovering_strict]
  simpa using (h _).andThen (accepts_whenNext_nothing hrest)

/-- A basic pattern with a repeater. -/
private theorem accepts_repeated {b : Basic} (r : Repeater)
    (h : ∀ ctx : Context,
      Accepts (basic .strict inside ctx)
        (b.tokens ++ (r.tokens ++ rest)) b.trees (r.tokens ++ rest)) :
    Accepts (Parser.repeated .strict inside ctx)
      (b.tokens ++ (r.tokens ++ rest)) (b.trees ++ [r.tree]) rest := by
  rw [Parser.repeated, recovering_strict]
  exact (h _).andThen (Accepts.whenNext (r.starts rest) (accepts_repeater r))

end Completeness

mutual

/-- Alternatives are read as what they are where nothing follows that would prolong them. -/
theorem Choice.accepts : (c : Choice) → (depth : Nat) → (ctx : Context) → (rest : List Token) →
    c.tokens.length < depth → nextIn choiceStops rest = false →
    Accepts (alternatives .strict depth ctx) (c.tokens ++ rest) c.trees rest
  | c, 0, _, _, hlen, _ => absurd hlen (Nat.not_lt_zero _)
  | .single s, depth + 1, ctx, rest, hlen, hrest => by
    have hs := accepts_alternative <| Sequence.accepts s depth (ctx.within [.vbar]) rest
      (Nat.le_of_lt_succ hlen) (nextIn_of_subset hrest (by decide)) _ (by simp)
    exact hs.andThen (accepts_manyUpTo_nothing _ (nextIn_of_subset hrest (by decide)))
  | .either s bar c, depth + 1, ctx, rest, hlen, hrest => by
    have hlen' : s.tokens.length + (c.tokens.length + 1) ≤ depth := by
      simpa [Choice.tokens] using Nat.le_of_lt_succ hlen
    have hs := accepts_alternative <| Sequence.accepts s depth (ctx.within [.vbar])
      (bar.token .vbar :: (c.tokens ++ rest)) (by omega)
      (by simp [sequenceStops, unitStarts, itemStops]) _ (by simp)
    have hc := Choice.accepts_more c depth ctx rest bar (by omega) hrest
      (c.tokens ++ rest).length (by simp)
    have htokens : (Choice.either s bar c).tokens ++ rest =
        s.tokens ++ bar.token .vbar :: (c.tokens ++ rest) := by simp [Choice.tokens]
    rw [htokens]
    exact hs.andThen hc

/-- The same for the alternatives behind a bar. -/
theorem Choice.accepts_more : (c : Choice) → (depth : Nat) → (ctx : Context) →
    (rest : List Token) → (bar : Word) → c.tokens.length ≤ depth →
    nextIn choiceStops rest = false → (n : Nat) → c.tokens.length ≤ n →
    Accepts (manyUpTo [.vbar]
        (andThen take (alternative .strict (alternatives .strict depth) ctx)) (n + 1))
      (bar.token .vbar :: (c.tokens ++ rest)) (bar.leaf .vbar :: c.trees) rest
  | .single s, depth, ctx, rest, bar, hlen, hrest, n, _ => by
    have hs := accepts_alternative <| Sequence.accepts s depth (ctx.within [.vbar]) rest hlen
      (nextIn_of_subset hrest (by decide)) _ (by simp)
    refine Accepts.whenNext (by simp) ?_
    exact ((accepts_take .vbar bar).andThen hs).andThen
      (accepts_manyUpTo_nothing n (nextIn_of_subset hrest (by decide)))
  | .either s bar' c, depth, ctx, rest, bar, hlen, hrest, n, hn => by
    simp only [Choice.tokens, List.length_append, List.length_cons] at hlen hn
    obtain ⟨m, rfl⟩ : ∃ m, n = m + 1 := ⟨n - 1, by omega⟩
    have hs := accepts_alternative <| Sequence.accepts s depth (ctx.within [.vbar])
      (bar'.token .vbar :: (c.tokens ++ rest)) (by omega)
      (by simp [sequenceStops, unitStarts, itemStops]) _ (by simp)
    have hc := Choice.accepts_more c depth ctx rest bar' (by omega) hrest m (by omega)
    have htokens : (Choice.either s bar' c).tokens ++ rest =
        s.tokens ++ bar'.token .vbar :: (c.tokens ++ rest) := by simp [Choice.tokens]
    refine Accepts.whenNext (by simp) ?_
    rw [htokens]
    exact ((accepts_take .vbar bar).andThen hs).andThen hc

/-- The units of an alternative are read one after the other. -/
theorem Sequence.accepts : (s : Sequence) → (depth : Nat) → (ctx : Context) →
    (rest : List Token) → s.tokens.length ≤ depth → nextIn sequenceStops rest = false →
    (n : Nat) → s.tokens.length ≤ n →
    Accepts (manyUpTo unitStarts (unit .strict (alternatives .strict depth) ctx) n)
      (s.tokens ++ rest) s.trees rest
  | .single i, depth, ctx, rest, hlen, hrest, n, hn => by
    have hpos := i.length_tokens_pos
    simp only [Sequence.tokens] at hn
    obtain ⟨m, rfl⟩ : ∃ m, n = m + 1 := ⟨n - 1, by omega⟩
    refine Accepts.whenNext (i.starts rest) ?_
    exact (Item.accepts i depth ctx rest hlen (nextIn_of_subset hrest (by decide))).andThen
      (accepts_manyUpTo_nothing m (nextIn_of_subset hrest (by decide)))
  | .followed i s, depth, ctx, rest, hlen, hrest, n, hn => by
    have hpos := i.length_tokens_pos
    simp only [Sequence.tokens, List.length_append] at hlen hn
    obtain ⟨m, rfl⟩ : ∃ m, n = m + 1 := ⟨n - 1, by omega⟩
    have hi := Item.accepts i depth ctx (s.tokens ++ rest) (by omega)
      (nextIn_itemStops_of_starts (s.starts rest))
    have hs := Sequence.accepts s depth ctx rest (by omega) hrest m (by omega)
    rw [Sequence.tokens, List.append_assoc]
    exact Accepts.whenNext (i.starts (s.tokens ++ rest)) (hi.andThen hs)

/-- A unit is read as what it is. -/
theorem Item.accepts : (i : Item) → (depth : Nat) → (ctx : Context) → (rest : List Token) →
    i.tokens.length ≤ depth → nextIn itemStops rest = false →
    Accepts (unit .strict (alternatives .strict depth) ctx) (i.tokens ++ rest) [i.tree] rest
  | .negated bang (.optional l c r), depth, ctx, rest, hlen, hrest => by
    refine accepts_negatedUnit bang fun ctx => accepts_operand_optional l r ?_
    simp only [Item.tokens, Operand.tokens, List.length_cons, List.length_append] at hlen
    exact Choice.accepts c depth _ _ (by omega) rfl
  | .negated bang (.basic b), depth, ctx, rest, hlen, hrest => by
    apply accepts_negatedUnit bang
    intro ctx
    obtain ⟨k, hk, hmem⟩ := b.next?_tokens rest
    exact accepts_operand_plain hk hmem
      (Basic.accepts b depth _ rest (Nat.le_of_succ_le hlen) (nextIn_of_subset hrest (by decide)))
  | .plain capture? (.optional l c r), depth, ctx, rest, hlen, hrest => by
    simp only [Item.tokens, Operand.tokens, List.length_cons, List.length_append] at hlen
    rw [Item.tokens, List.append_assoc]
    refine accepts_plainUnit (by cases capture? <;> simp [captureTokens, Operand.tokens])
      (fun _ => capture_token (by decide) l) fun ctx => accepts_operand_optional l r ?_
    exact Choice.accepts c depth _ _ (by omega) rfl
  | .plain capture? (.basic b), depth, ctx, rest, hlen, hrest => by
    simp only [Item.tokens, Operand.tokens, List.length_append] at hlen
    obtain ⟨k, hk, hmem⟩ := b.next?_tokens rest
    rw [Item.tokens, Operand.tokens, List.append_assoc]
    refine accepts_plainUnit (by cases capture? <;> simp [captureTokens, next?_ne_bang hk hmem])
      (fun _ => capture_basic b (nextIn_of_subset hrest (by decide))) fun ctx => ?_
    refine accepts_operand_plain hk hmem (accepts_repeated_nothing (fun ctx => ?_)
      (nextIn_of_subset hrest (by decide)))
    exact Basic.accepts b depth ctx rest (by omega) (nextIn_of_subset hrest (by decide))
  | .repeated capture? b r, depth, ctx, rest, hlen, hrest => by
    simp only [Item.tokens, List.length_append] at hlen
    obtain ⟨k, hk, hmem⟩ := b.next?_tokens (r.tokens ++ rest)
    have hr := nextIn_of_repeaterStarts (r.starts rest)
    rw [Item.tokens, List.append_assoc, List.append_assoc]
    refine accepts_plainUnit (by cases capture? <;> simp [captureTokens, next?_ne_bang hk hmem])
      (fun _ => capture_basic b hr.1) fun ctx => ?_
    refine accepts_operand_plain hk hmem (accepts_repeated r fun ctx => ?_)
    exact Basic.accepts b depth ctx _ (by omega) hr.2

/-- A basic pattern is read as what it is. -/
theorem Basic.accepts : (b : Basic) → (depth : Nat) → (ctx : Context) → (rest : List Token) →
    b.tokens.length ≤ depth → nextIn [.less] rest = false →
    Accepts (basic .strict (alternatives .strict depth) ctx) (b.tokens ++ rest) b.trees rest
  | .literal w, depth, ctx, rest, _, _ => rfl
  | .name w, depth, ctx, rest, _, hrest =>
    (accepts_take .name w).andThen (accepts_whenNext_nothing hrest)
  | .detailed w l c r, depth, ctx, rest, hlen, _ => by
    simp only [Basic.tokens, List.length_cons, List.length_append] at hlen
    refine (accepts_take .name w).andThen (Accepts.whenNext (by simp) ?_)
    refine (accepts_bracketed .less l r ?_).asPhrase
    exact Choice.accepts c depth _ _ (by omega) rfl
  | .group l c r, depth, ctx, rest, hlen, _ => by
    simp only [Basic.tokens, List.length_cons, List.length_append] at hlen
    refine accepts_bracketed .lpar l r ?_
    exact Choice.accepts c depth _ _ (by omega) rfl

end

/-! ## Whole patterns -/

/-- Tokens are parsed without a mismatch exactly when they are the tokens of a choice. -/
theorem parseTokens_strict_iff {ts : List Token} {tree : Tree} :
    parseTokens .strict ts = (tree, []) ↔ ∃ c : Choice, ts = c.tokens ∧ tree = c.pattern := by
  constructor
  · intro h
    simp only [parseTokens, Prod.mk.injEq] at h
    obtain ⟨rfl, hm⟩ := h
    rcases settles_alternatives (ts.length + 1) .empty ts (Nat.lt_succ_self _) with
      ⟨ha, hne⟩ | ⟨taken, trees, rest, hts, hp, c, rfl, rfl⟩
    · rw [Reply.allMismatches, if_pos ha] at hm
      exact absurd hm hne
    · rw [Accepts] at hp
      cases rest with
      | nil => exact ⟨c, by simpa using hts, by simp [hp, Choice.pattern, Choice.tree]⟩
      | cons t us => simp [hp, Reply.allMismatches] at hm
  · rintro ⟨c, rfl, rfl⟩
    have h := c.accepts (c.tokens.length + 1) .empty [] (Nat.lt_succ_self _) rfl
    rw [List.append_nil, Accepts] at h
    simp [parseTokens, h, Reply.allMismatches, Choice.pattern, Choice.tree]

/-- A text is parsed exactly when it is lexed and its tokens are those of a choice. -/
theorem parse_eq_ok_iff_choice {t : Text} {tree : Tree} :
    parse t = .ok tree ↔
      unrecognized t = [] ∧ ∃ c : Choice, tokens t = c.tokens ∧ tree = c.pattern := by
  rw [parse_eq_ok_iff, parseTokens_strict_iff]

end TreeMatcher
