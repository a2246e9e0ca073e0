import Mathlib.Data.Set.Operations
import TreeMatcher.Proofs.Pattern.Derivation

/-!
# The strict parser gives up as soon as it can

What a strict parser reads up to a place depends on the tokens up to there and on the one behind
them. Where it gives up, the tokens read so far are the beginning of a phrase, and with the next
token they are not: whatever stood behind, the parser would give up just so. `Foresees p ts D` says
that for a parser of the phrases `D`. The parsers come with a depth, the number of tokens they read
inside brackets, and foresee what they do on all tokens the depth suffices for.

Only a capture name needs a look at two tokens. It begins a unit with a name, and a unit takes a
name in any case, so the decision is foreseen behind the name.

* `Decides p us ahead answer` — what a parser does on `us` when `ahead` stands behind.
* `Foresees p ts D` — it reads a phrase, or it gives up behind the beginning of one.

## Main results

* `Foresees.andThen`, `Foresees.many` — parsers in a row, and repeated.
* `many_eq` — repeating a parser, without a bound.
* `parseTokens_strict_cases` — tokens are a phrase, or the parser gives up at the first token that
  no phrase goes on with.
-/

namespace TreeMatcher

namespace Parser

/-! ## What is decided by one token -/

/-- On the tokens `us`, the token `ahead` behind them, and whatever follows, the parser answers
so. -/
def Decides (p : Nat → Parser) (us : List Token) (ahead : Option Token)
    (answer : List Token → Reply) : Prop :=
  ∀ depth rest, rest.head? = ahead → (us ++ rest).length ≤ depth →
    p depth (us ++ rest) = answer rest

/-- A parser of the phrases `D` reads one of them, or it gives up behind the beginning of one. The
token behind decides. -/
def Foresees (p : Nat → Parser) (ts : List Token) (D : Set (List Token)) : Prop :=
  ∃ us rest, ts = us ++ rest ∧
    ((us ∈ D ∧ ∃ trees, Decides p us rest.head? fun rest' => ⟨trees, rest', [], false⟩) ∨
      (∃ more, us ++ more ∈ D) ∧ ∃ trees e,
        Decides p us rest.head? fun rest' => ⟨trees, rest', [⟨e, rest.head?⟩], true⟩)

variable {p q : Nat → Parser} {us ts rest : List Token} {D E : Set (List Token)}
  {kinds : List TokenKind}

private theorem head?_append_congr (h : rest.head? = ts.head?) :
    (us ++ rest).head? = (us ++ ts).head? := by
  simp [List.head?_append, h]

private theorem next?_congr (h : rest.head? = ts.head?) : next? rest = next? ts := by
  cases rest <;> cases ts <;> simp_all [next?]

private theorem nextIn_congr (h : rest.head? = ts.head?) : nextIn kinds rest = nextIn kinds ts := by
  cases rest <;> cases ts <;> simp_all [nextIn]

namespace Foresees

/-! ## Steps -/

private theorem mono (h : Foresees p ts D) (hDE : D ⊆ E) : Foresees p ts E := by
  obtain ⟨us, rest, hts, ⟨hD, h⟩ | ⟨⟨more, hD⟩, h⟩⟩ := h
  · exact ⟨us, rest, hts, .inl ⟨hDE hD, h⟩⟩
  · exact ⟨us, rest, hts, .inr ⟨⟨more, hDE hD⟩, h⟩⟩

/-- More depth than needed does no harm. -/
private theorem deeper (h : Foresees p ts D) : Foresees (fun depth => p (depth + 1)) ts D := by
  obtain ⟨us, rest, hts, ⟨hD, trees, h⟩ | ⟨hD, trees, e, h⟩⟩ := h
  · exact ⟨us, rest, hts, .inl ⟨hD, trees, fun depth rest' hr hlen =>
      h (depth + 1) rest' hr (Nat.le_succ_of_le hlen)⟩⟩
  · exact ⟨us, rest, hts, .inr ⟨hD, trees, e, fun depth rest' hr hlen =>
      h (depth + 1) rest' hr (Nat.le_succ_of_le hlen)⟩⟩

/-- Which of several parsers is run may depend on the next token. -/
private theorem congr (h : ∀ depth l, l.head? = ts.head? → l.length ≤ depth → p depth l = q depth l)
    (hq : Foresees q ts D) : Foresees p ts D := by
  obtain ⟨us, rest, rfl, ⟨hD, trees, hq⟩ | ⟨hD, trees, e, hq⟩⟩ := hq
  · exact ⟨us, rest, rfl, .inl ⟨hD, trees, fun depth rest' hr hlen =>
      (h depth _ (head?_append_congr hr) hlen).trans (hq depth rest' hr hlen)⟩⟩
  · exact ⟨us, rest, rfl, .inr ⟨hD, trees, e, fun depth rest' hr hlen =>
      (h depth _ (head?_append_congr hr) hlen).trans (hq depth rest' hr hlen)⟩⟩

private theorem nothing (hD : [] ∈ D) : Foresees (fun _ => Parser.nothing) ts D :=
  ⟨[], ts, rfl, .inl ⟨hD, [], fun _ _ _ _ => rfl⟩⟩

private theorem take {t : Token} (hD : [t] ∈ D) : Foresees (fun _ => Parser.take) (t :: ts) D :=
  ⟨[t], ts, rfl, .inl ⟨hD, [.ofToken t], fun _ _ _ _ => rfl⟩⟩

private theorem refuse (e : Expectation) (hD : D.Nonempty) :
    Foresees (fun _ => Parser.refuse e) ts D := by
  refine ⟨[], ts, rfl, .inr ⟨hD, [], e, fun _ rest hr _ => ?_⟩⟩
  simp only [List.nil_append, Parser.refuse, hr]

private theorem require (k : TokenKind) (follow : List TokenKind)
    (hD : ∀ w : Word, [w.token k] ∈ D) :
    Foresees (fun _ => Parser.require .strict k follow) ts D := by
  have missing (h : ∀ t ∈ ts.head?, t.kind ≠ k) :
      Foresees (fun _ => Parser.require .strict k follow) ts D := by
    refine ⟨[], ts, rfl, .inr ⟨⟨_, hD ⟨[], .first, 0⟩⟩, [], .token k, fun _ rest hr _ => ?_⟩⟩
    rw [← hr] at h ⊢
    cases rest with
    | nil => rfl
    | cons t rest => simp [Parser.require, h t rfl]
  cases ts with
  | nil => exact missing (by simp)
  | cons t ts =>
    by_cases hk : t.kind = k
    · refine ⟨[t], ts, rfl, .inl ⟨?_, [.ofToken t], fun _ rest _ _ => ?_⟩⟩
      · rw [← Token.token_word hk]
        exact hD _
      · simp [Parser.require, hk]
    · exact missing (by simpa using hk)

/-! ## Combinators -/

private theorem asPhrase {phrase : Phrase} (h : Foresees p ts D) :
    Foresees (fun depth => Parser.asPhrase phrase (p depth)) ts D := by
  obtain ⟨us, rest, hts, ⟨hD, trees, h⟩ | ⟨hD, trees, e, h⟩⟩ := h
  · refine ⟨us, rest, hts, .inl ⟨hD, [.phrase phrase trees], fun depth rest' hr hlen => ?_⟩⟩
    simp only [Parser.asPhrase, h depth rest' hr hlen]
  · refine ⟨us, rest, hts, .inr ⟨hD, [.phrase phrase trees], e, fun depth rest' hr hlen => ?_⟩⟩
    simp only [Parser.asPhrase, h depth rest' hr hlen]

private theorem whenNext (hp : nextIn kinds ts = true → Foresees p ts D) (hD : [] ∈ D) :
    Foresees (fun depth => Parser.whenNext kinds (p depth)) ts D := by
  cases h : nextIn kinds ts with
  | true =>
    exact (hp h).congr fun depth l hl _ => by rw [Parser.whenNext, nextIn_congr hl, if_pos h]
  | false =>
    exact (nothing hD).congr fun depth l hl _ => by
      rw [Parser.whenNext, nextIn_congr hl, if_neg (by simp [h])]

/-- A parser that begins by taking the next token may look at the token behind it. The token taken
makes up for one level of depth. -/
private theorem takeInside {t : Token}
    (h : ∀ depth l, l.head? = ts.head? → p depth (t :: l) = andThen Parser.take (q depth) (t :: l))
    (hq : Foresees (fun depth => q (depth + 1)) ts {us | t :: us ∈ D}) :
    Foresees p (t :: ts) D := by
  have step {us rest rest' : List Token} {depth : Nat} (hts : ts = us ++ rest)
      (hr : rest'.head? = rest.head?) (hlen : (t :: us ++ rest').length ≤ depth) :
      ∃ n, depth = n + 1 ∧ (us ++ rest').length ≤ n ∧
        p depth (t :: us ++ rest') = andThen Parser.take (q (n + 1)) (t :: (us ++ rest')) := by
    obtain ⟨n, rfl⟩ : ∃ n, depth = n + 1 := ⟨depth - 1, by simp at hlen; omega⟩
    exact ⟨n, rfl, Nat.le_of_succ_le_succ hlen, h _ _ (hts ▸ head?_append_congr hr)⟩
  obtain ⟨us, rest, hts, ⟨hD, trees, hq⟩ | ⟨⟨more, hD⟩, trees, e, hq⟩⟩ := hq
  · refine ⟨t :: us, rest, by rw [hts]; rfl, .inl ⟨hD, .ofToken t :: trees, ?_⟩⟩
    intro depth rest' hr hlen
    obtain ⟨n, rfl, hlen', hp⟩ := step hts hr hlen
    rw [hp]
    simp [Parser.andThen, Parser.take, hq n rest' hr hlen']
  · refine ⟨t :: us, rest, by rw [hts]; rfl, .inr ⟨⟨more, hD⟩, .ofToken t :: trees, e, ?_⟩⟩
    intro depth rest' hr hlen
    obtain ⟨n, rfl, hlen', hp⟩ := step hts hr hlen
    rw [hp]
    simp [Parser.andThen, Parser.take, hq n rest' hr hlen']

private theorem takeThen {t : Token}
    (h : ∀ depth l, l.head? = ts.head? → p depth (t :: l) = andThen Parser.take (q depth) (t :: l))
    (hq : Foresees q ts {us | t :: us ∈ D}) : Foresees p (t :: ts) D :=
  takeInside h hq.deeper

/-- Two parsers in a row. What the first one reads must be the beginning of a phrase of both. -/
theorem andThen (hp : Foresees p ts D) (hD : ∀ us ∈ D, ∃ more, us ++ more ∈ E)
    (hq : ∀ us rest, ts = us ++ rest → us ∈ D → Foresees q rest {vs | us ++ vs ∈ E}) :
    Foresees (fun depth => Parser.andThen (p depth) (q depth)) ts E := by
  obtain ⟨us, rest, rfl, ⟨hus, trees, hp⟩ | ⟨⟨more, hmore⟩, trees, e, hp⟩⟩ := hp
  · have split {vs rest₂ rest' : List Token} {depth : Nat} (hrest : rest = vs ++ rest₂)
        (hr : rest'.head? = rest₂.head?) (hlen : (us ++ vs ++ rest').length ≤ depth) :
        (vs ++ rest').length ≤ depth ∧
          p depth (us ++ vs ++ rest') = ⟨trees, vs ++ rest', [], false⟩ := by
      rw [List.append_assoc] at hlen ⊢
      refine ⟨?_, hp depth _ (hrest ▸ head?_append_congr hr) hlen⟩
      rw [List.length_append] at hlen
      omega
    obtain ⟨vs, rest₂, hrest, ⟨hvs, trees', hq⟩ | ⟨⟨more, hmore⟩, trees', e, hq⟩⟩ :=
      hq us rest rfl hus
    · refine ⟨us ++ vs, rest₂, by rw [hrest, List.append_assoc],
        .inl ⟨hvs, trees ++ trees', fun depth rest' hr hlen => ?_⟩⟩
      obtain ⟨hlen', hfirst⟩ := split hrest hr hlen
      simp only [Parser.andThen, hfirst, hq depth rest' hr hlen', Bool.false_eq_true, if_false,
        List.nil_append]
    · refine ⟨us ++ vs, rest₂, by rw [hrest, List.append_assoc],
        .inr ⟨⟨more, ?_⟩, trees ++ trees', e, fun depth rest' hr hlen => ?_⟩⟩
      · rw [List.append_assoc]
        exact hmore
      · obtain ⟨hlen', hfirst⟩ := split hrest hr hlen
        simp only [Parser.andThen, hfirst, hq depth rest' hr hlen', Bool.false_eq_true, if_false,
          List.nil_append]
  · obtain ⟨more', hmore'⟩ := hD _ hmore
    refine ⟨us, rest, rfl, .inr ⟨⟨more ++ more', ?_⟩, trees, e, fun depth rest' hr hlen => ?_⟩⟩
    · rw [← List.append_assoc]
      exact hmore'
    · simp [Parser.andThen, hp depth rest' hr hlen]

end Foresees

/-! ## Repeating -/

section Many

variable {p : Parser} {n : Nat}

/-- A parser that takes a token each time is repeated as often as the bound allows or less, so the
bound does not matter once it is the number of tokens. -/
private theorem manyUpTo_eq
    (h : ∀ us, us.length ≤ n → nextIn kinds us = true → Settles p us fun taken _ => taken ≠ [])
    (i j : Nat) (hn : ts.length ≤ n) (hi : ts.length ≤ i) (hj : ts.length ≤ j) :
    manyUpTo kinds p i ts = manyUpTo kinds p j ts := by
  induction i generalizing j ts with
  | zero =>
    obtain rfl := List.length_eq_zero_iff.1 (Nat.le_zero.1 hi)
    cases j <;> rfl
  | succ i ih =>
    cases j with
    | zero =>
      obtain rfl := List.length_eq_zero_iff.1 (Nat.le_zero.1 hj)
      rfl
    | succ j =>
      rw [manyUpTo, manyUpTo, Parser.whenNext, Parser.whenNext]
      cases hk : nextIn kinds ts with
      | false => rfl
      | true =>
        rw [if_pos rfl, if_pos rfl]
        rcases h ts hn hk with ⟨ha, -⟩ | ⟨taken, trees, rest, rfl, hp, hne⟩
        · simp [Parser.andThen, ha]
        · rw [Accepts] at hp
          have hlt := List.length_pos_iff.2 hne
          rw [List.length_append] at hn hi hj
          simp only [Parser.andThen, hp, Bool.false_eq_true, if_false]
          rw [ih j (by omega) (by omega) (by omega)]

/-- Repeating a parser is running it once if the next token is of the given kinds, and then
repeating it. -/
theorem many_eq
    (h : ∀ us, us.length ≤ ts.length → nextIn kinds us = true →
      Settles p us fun taken _ => taken ≠ []) :
    many kinds p ts = whenNext kinds (andThen p (many kinds p)) ts := by
  rw [many, manyUpTo_eq h ts.length (ts.length + 1) (Nat.le_refl _) (Nat.le_refl _)
    (Nat.le_succ _), manyUpTo, whenNext, whenNext]
  cases hk : nextIn kinds ts with
  | false => rfl
  | true =>
    rw [if_pos rfl, if_pos rfl]
    rcases h ts (Nat.le_refl _) hk with ⟨ha, -⟩ | ⟨taken, trees, rest, rfl, hp, -⟩
    · simp [andThen, ha]
    · rw [Accepts] at hp
      have hle : rest.length ≤ (taken ++ rest).length := by simp
      simp only [andThen, hp, Bool.false_eq_true, if_false]
      rw [manyUpTo_eq h _ rest.length hle hle (Nat.le_refl _), many]

end Many

/-- Repeating a parser of the phrases `D`: none of them, or one and then several, is in `E`. -/
theorem Foresees.many
    (hsettles : ∀ depth us, us.length ≤ depth → nextIn kinds us = true →
      Settles (p depth) us fun taken _ => taken ≠ [])
    (hp : ∀ us, us.length ≤ ts.length → nextIn kinds us = true → Foresees p us D)
    (hne : ∀ us ∈ D, us ≠ []) (hnil : [] ∈ E) (hcons : ∀ us ∈ D, ∀ vs ∈ E, us ++ vs ∈ E) :
    Foresees (fun depth => many kinds (p depth)) ts E := by
  generalize hn : ts.length = n
  induction n using Nat.strongRecOn generalizing ts E with
  | ind n ih =>
    refine Foresees.congr (q := fun depth =>
      Parser.whenNext kinds (Parser.andThen (p depth) (Parser.many kinds (p depth))))
      (fun depth l _ hlen => many_eq fun us hus => hsettles depth us (Nat.le_trans hus hlen)) ?_
    refine .whenNext (fun hk => ?_) hnil
    refine (hp ts (Nat.le_refl _) hk).andThen (fun us hus => ⟨[], hcons us hus [] hnil⟩) ?_
    rintro us rest rfl hus
    have hlt : rest.length < (us ++ rest).length := by
      simp [List.length_pos_iff.2 (hne us hus)]
    refine (ih rest.length (hn ▸ hlt) (E := E) (fun vs hvs => hp vs (by omega)) hnil hcons
      rfl).mono ?_
    exact fun vs hvs => hcons us hus vs hvs

/-! ## Phrases -/

section Phrases

variable {n : Nat}

/-- Any word, to complete a phrase with. -/
def someWord : Word := ⟨[], .first, 0⟩

/-- Alternatives of fewer tokens than a number are foreseen. -/
def ForeseesInside (n : Nat) : Prop :=
  ∀ (ctx : Context) (ts : List Token), ts.length < n →
    Foresees (fun depth => alternatives .strict (depth + 1) ctx) ts (Set.range Choice.tokens)

private theorem foresees_bracketed (hin : ForeseesInside n) (close : TokenKind) (ctx : Context)
    {t : Token} (hlen : (t :: ts).length ≤ n)
    (hD : ∀ (c : Choice) (r : Word), t :: (c.tokens ++ [r.token close]) ∈ D) :
    Foresees (fun depth => bracketed .strict (alternatives .strict depth) close ctx) (t :: ts)
      D := by
  refine .takeInside (q := fun depth => andThen
      (asPhrase .alternatives (alternatives .strict depth (ctx.bracket close)))
      (require .strict close ctx.inner))
    (fun depth l _ => by rw [bracketed, recovering_strict]) ?_
  refine (hin _ ts hlen).asPhrase.andThen ?_ ?_
  · rintro _ ⟨c, rfl⟩
    exact ⟨[someWord.token close], hD c _⟩
  · rintro _ rest - ⟨c, rfl⟩
    exact .require _ _ fun r => hD c r

/-- What may stand behind a name: details. -/
private theorem foresees_details (hin : ForeseesInside n) (ctx : Context) (hlen : ts.length ≤ n)
    (hnil : [] ∈ D)
    (hD : ∀ (l : Word) (c : Choice) (r : Word),
      l.token .less :: (c.tokens ++ [r.token .greater]) ∈ D) :
    Foresees (fun depth => whenNext [.less] (details .strict (alternatives .strict depth) ctx)) ts
      D := by
  refine .whenNext (fun hk => ?_) hnil
  obtain ⟨l, k, us, hmem, rfl⟩ := exists_token_of_nextIn hk
  obtain rfl := List.mem_singleton.1 hmem
  exact (foresees_bracketed hin _ _ hlen fun c r => hD l c r).asPhrase

private theorem foresees_basic (hin : ForeseesInside n) (ctx : Context) (hlen : ts.length ≤ n)
    {k : TokenKind} (hk : next? ts = some k) (hmem : k = .string ∨ k = .name ∨ k = .lpar) :
    Foresees (fun depth => basic .strict (alternatives .strict depth) ctx) ts
      (Set.range Basic.tokens) := by
  obtain ⟨w, us, rfl⟩ := exists_token_of_next? hk
  have hnext {l : List Token} (hl : l.head? = (w.token k :: us).head?) : next? l = some k :=
    (next?_congr hl).trans rfl
  rcases hmem with rfl | rfl | rfl
  · refine .congr (fun depth l hl _ => ?_) (.take ⟨.literal w, rfl⟩)
    simp only [basic, hnext hl]
  · refine .takeThen (q := fun depth => whenNext [.less]
      (details .strict (alternatives .strict depth) ctx)) (fun depth l _ => rfl) ?_
    exact foresees_details hin ctx (Nat.le_of_succ_le hlen) ⟨.name w, rfl⟩ fun l c r =>
      ⟨.detailed w l c r, rfl⟩
  · refine .congr (fun depth l hl _ => ?_)
      (foresees_bracketed hin .rpar ctx hlen fun c r => ⟨.group w c r, rfl⟩)
    simp only [basic, hnext hl]

/-- An operand is an optional group, or what the plain parser reads. -/
private theorem foresees_operand (hin : ForeseesInside n) {plain : Nat → Parser} (ctx : Context)
    (hlen : ts.length ≤ n)
    (hoptional : ∀ (l : Word) (c : Choice) (r : Word), (Operand.optional l c r).tokens ∈ D)
    (hbasic : ∀ b : Basic, b.tokens ∈ D)
    (hplain : ∀ k, next? ts = some k → k = .string ∨ k = .name ∨ k = .lpar →
      Foresees plain ts D) :
    Foresees (fun depth => operand .strict (alternatives .strict depth) (plain depth) ctx) ts
      D := by
  have hrefuse : Foresees (fun _ => refuse .basic) ts D :=
    .refuse .basic ⟨_, hbasic (.literal someWord)⟩
  cases hk : next? ts with
  | none =>
    exact hrefuse.congr fun depth l hl _ => by simp only [operand, (next?_congr hl).trans hk]
  | some k =>
    have hnext {l : List Token} (hl : l.head? = ts.head?) : next? l = some k :=
      (next?_congr hl).trans hk
    cases k
    case lsqb =>
      obtain ⟨w, us, rfl⟩ := exists_token_of_next? hk
      refine .congr (fun depth l hl _ => ?_)
        (foresees_bracketed hin .rsqb ctx hlen fun c r => hoptional w c r)
      simp only [operand, hnext hl]
    case string | name | lpar =>
      exact (hplain _ hk (by simp)).congr fun depth l hl _ => by simp only [operand, hnext hl]
    all_goals
      exact hrefuse.congr fun depth l hl _ => by simp only [operand, hnext hl]

private theorem foresees_bounds (ctx : Context) (l : Word) :
    Foresees (fun _ => bounds .strict ctx) (l.token .lbrace :: ts) (Set.range Repeater.tokens) := by
  refine .takeThen (fun depth us _ => rfl) ?_
  refine Foresees.andThen (D := Set.range fun n : Word => [n.token .number])
    (.require _ _ fun n => ⟨n, rfl⟩) ?_ ?_
  · rintro _ ⟨n, rfl⟩
    exact ⟨[someWord.token .rbrace], .exactly l n _, rfl⟩
  rintro _ rest - ⟨n, rfl⟩
  refine Foresees.andThen
    (D := {us | us = [] ∨ ∃ c m : Word, us = [c.token .comma, m.token .number]}) ?_ ?_ ?_
  · refine .whenNext (fun hk => ?_) (.inl rfl)
    obtain ⟨c, k, us, hmem, rfl⟩ := exists_token_of_nextIn hk
    obtain rfl := List.mem_singleton.1 hmem
    exact .takeThen (fun depth us _ => rfl) (.require _ _ fun m => .inr ⟨c, m, rfl⟩)
  · rintro _ (rfl | ⟨c, m, rfl⟩)
    · exact ⟨[someWord.token .rbrace], .exactly l n _, rfl⟩
    · exact ⟨[someWord.token .rbrace], .between l n c m _, rfl⟩
  · rintro _ rest - (rfl | ⟨c, m, rfl⟩)
    · exact .require _ _ fun r => ⟨.exactly l n r, rfl⟩
    · exact .require _ _ fun r => ⟨.between l n c m r, rfl⟩

/-- What may stand behind a basic pattern: a repeater. -/
private theorem foresees_repeater (ctx : Context) (hnil : [] ∈ D)
    (hD : ∀ r : Repeater, r.tokens ∈ D) :
    Foresees (fun _ => whenNext repeaterStarts (repeater .strict ctx)) ts D := by
  refine .whenNext (fun hk => ?_) hnil
  refine Foresees.mono (D := Set.range Repeater.tokens) (.asPhrase ?_) fun _ ⟨r, hr⟩ => hr ▸ hD r
  obtain ⟨w, k, us, hmem, rfl⟩ := exists_token_of_nextIn hk
  have hnext {l : List Token} (hl : l.head? = (w.token k :: us).head?) : next? l = some k :=
    (next?_congr hl).trans rfl
  simp only [repeaterStarts, List.mem_cons, List.not_mem_nil, or_false] at hmem
  rcases hmem with rfl | rfl | rfl
  · exact .congr (fun depth l hl _ => by rw [hnext hl, if_neg (by decide)]) (.take ⟨.star w, rfl⟩)
  · exact .congr (fun depth l hl _ => by rw [hnext hl, if_neg (by decide)]) (.take ⟨.plus w, rfl⟩)
  · exact .congr (fun depth l hl _ => by rw [hnext hl, if_pos rfl]) (foresees_bounds ctx w)

/-- A basic pattern and an optional repeater. -/
private theorem foresees_repeated (hin : ForeseesInside n) (ctx : Context) (hlen : ts.length ≤ n)
    {k : TokenKind} (hk : next? ts = some k) (hmem : k = .string ∨ k = .name ∨ k = .lpar)
    (hbasic : ∀ b : Basic, b.tokens ∈ D)
    (hrepeated : ∀ (b : Basic) (r : Repeater), b.tokens ++ r.tokens ∈ D) :
    Foresees (fun depth => Parser.repeated .strict (alternatives .strict depth) ctx) ts D := by
  simp only [Parser.repeated, recovering_strict]
  refine (foresees_basic hin _ hlen hk hmem).andThen ?_ ?_
  · rintro _ ⟨b, rfl⟩
    exact ⟨[], by simpa using hbasic b⟩
  · rintro _ rest - ⟨b, rfl⟩
    exact foresees_repeater ctx (by simpa using hbasic b) (hrepeated b)

/-- An operand that is not negated. -/
private theorem foresees_repeatedOperand (hin : ForeseesInside n) (ctx : Context)
    (hlen : ts.length ≤ n) (hoperand : ∀ o : Operand, o.tokens ∈ D)
    (hrepeated : ∀ (b : Basic) (r : Repeater), b.tokens ++ r.tokens ∈ D) :
    Foresees (fun depth => operand .strict (alternatives .strict depth)
      (Parser.repeated .strict (alternatives .strict depth) ctx) ctx) ts D := by
  have hbasic : ∀ b : Basic, b.tokens ∈ D := fun b => hoperand (.basic b)
  refine foresees_operand hin ctx hlen (fun l c r => hoperand _) hbasic fun k hk hmem => ?_
  exact foresees_repeated hin ctx hlen hk hmem hbasic hrepeated

/-- A unit that begins with a name. Whether the name is a capture is seen by the token behind it,
and the name is taken first in both cases. -/
private theorem foresees_named (hin : ForeseesInside n) (ctx : Context) (w : Word)
    (hlen : (w.token .name :: ts).length ≤ n) :
    Foresees (fun depth => andThen capture (operand .strict (alternatives .strict depth)
      (Parser.repeated .strict (alternatives .strict depth) ctx) ctx)) (w.token .name :: ts)
      (Set.range Item.tokens) := by
  have hlen' : ts.length ≤ n := Nat.le_of_succ_le hlen
  by_cases hequal : next? ts = some .equal
  · obtain ⟨e, us, rfl⟩ := exists_token_of_next? hequal
    refine .takeThen (q := fun depth => andThen take (operand .strict (alternatives .strict depth)
      (Parser.repeated .strict (alternatives .strict depth) ctx) ctx)) (fun depth l hl => ?_) ?_
    · obtain ⟨l, rfl⟩ := List.head?_eq_some_iff.1 hl
      simp [andThen, capture, take]
    refine .takeThen (fun depth l _ => rfl) ?_
    refine foresees_repeatedOperand hin ctx (Nat.le_of_succ_le hlen') (fun o => ?_) fun b r => ?_
    · exact ⟨.plain (some ⟨w, e⟩) o, rfl⟩
    · exact ⟨.repeated (some ⟨w, e⟩) b r, rfl⟩
  · refine .takeThen (q := fun depth => andThen
      (whenNext [.less] (details .strict (alternatives .strict depth) (ctx.within repeaterStarts)))
      (whenNext repeaterStarts (repeater .strict ctx))) (fun depth l hl => ?_) ?_
    · have hcapture : capture (w.token .name :: l) = nothing (w.token .name :: l) := by
        cases l with
        | nil => rfl
        | cons u l =>
          have hu : u.kind ≠ .equal := fun h => hequal ((next?_congr hl).symm.trans (congrArg _ h))
          simp [capture, hu]
      rw [← andThen_assoc]
      simp only [andThen, hcapture, nothing, operand, next?_token, Parser.repeated,
        recovering_strict, basic, Bool.false_eq_true, if_false, List.nil_append]
    · refine (foresees_details hin _ hlen' (D := {us | ∃ b : Basic, w.token .name :: us = b.tokens})
        ⟨.name w, rfl⟩ fun l c r => ⟨.detailed w l c r, rfl⟩).andThen ?_ ?_
      · rintro us ⟨b, hb⟩
        exact ⟨[], .plain none (.basic b), by simp [Item.tokens, Operand.tokens, captureTokens, hb]⟩
      · rintro us rest - ⟨b, hb⟩
        refine foresees_repeater ctx ⟨.plain none (.basic b), ?_⟩ fun r => ⟨.repeated none b r, ?_⟩
        · simp [Item.tokens, Operand.tokens, captureTokens, hb]
        · simp [Item.tokens, captureTokens, ← hb]

private theorem foresees_plainUnit (hin : ForeseesInside n) (ctx : Context) (hlen : ts.length ≤ n) :
    Foresees (fun depth => plainUnit .strict (alternatives .strict depth) ctx) ts
      (Set.range Item.tokens) := by
  refine .asPhrase ?_
  by_cases hname : next? ts = some .name
  · obtain ⟨w, us, rfl⟩ := exists_token_of_next? hname
    exact foresees_named hin ctx w hlen
  · refine .congr (fun depth l hl _ => ?_) (foresees_repeatedOperand hin ctx hlen
      (fun o => ⟨.plain none o, rfl⟩) fun b r => ⟨.repeated none b r, rfl⟩)
    have hcapture : capture l = nothing l := by
      rcases l with _ | ⟨t, _ | ⟨u, l⟩⟩
      · rfl
      · rfl
      · have ht : t.kind ≠ .name := fun h => hname ((next?_congr hl).symm.trans (congrArg _ h))
        simp [capture, ht]
    simp [andThen, hcapture, nothing]

private theorem foresees_negatedUnit (hin : ForeseesInside n) (ctx : Context) (w : Word)
    (hlen : (w.token .bang :: ts).length ≤ n) :
    Foresees (fun depth => negatedUnit .strict (alternatives .strict depth) ctx)
      (w.token .bang :: ts) (Set.range Item.tokens) := by
  refine .asPhrase (.takeThen (fun depth l _ => rfl) ?_)
  have hlen' : ts.length ≤ n := Nat.le_of_succ_le hlen
  refine foresees_operand hin ctx hlen' (fun l c r => ⟨.negated w (.optional l c r), rfl⟩)
    (fun b => ⟨.negated w (.basic b), rfl⟩) fun k hk hmem => ?_
  refine (foresees_basic hin ctx hlen' hk hmem).mono ?_
  rintro _ ⟨b, rfl⟩
  exact ⟨.negated w (.basic b), rfl⟩

private theorem foresees_unit (hin : ForeseesInside n) (ctx : Context) (hlen : ts.length ≤ n) :
    Foresees (fun depth => unit .strict (alternatives .strict depth) ctx) ts
      (Set.range Item.tokens) := by
  simp only [unit, recovering_strict]
  by_cases hbang : next? ts = some .bang
  · obtain ⟨w, us, rfl⟩ := exists_token_of_next? hbang
    exact (foresees_negatedUnit hin _ w hlen).congr fun depth l hl _ =>
      if_pos ((next?_congr hl).trans hbang)
  · exact (foresees_plainUnit hin _ hlen).congr fun depth l hl _ =>
      if_neg ((next?_congr hl).symm ▸ hbang)

private theorem foresees_alternative (hin : ForeseesInside n) (ctx : Context)
    (hlen : ts.length ≤ n) :
    Foresees (fun depth => alternative .strict (alternatives .strict depth) ctx) ts
      (Set.range Sequence.tokens) := by
  simp only [alternative, recovering_strict]
  refine .asPhrase ?_
  have hsettles (depth : Nat) (us : List Token) (hus : us.length ≤ depth) :
      Settles (unit .strict (alternatives .strict depth) (ctx.within [.vbar])) us
        fun taken _ => taken ≠ [] := by
    refine (settles_unit (settles_alternatives depth) _ hus).mono ?_
    rintro _ _ ⟨i, rfl, -⟩
    exact List.length_pos_iff.1 i.length_tokens_pos
  cases hk : nextIn unitStarts ts with
  | false =>
    refine .congr (fun depth l hl _ => ?_)
      (.refuse .units ⟨_, .single (.plain none (.basic (.literal someWord))), rfl⟩)
    rw [nextIn_congr hl, hk, if_neg (by simp)]
  | true =>
    refine .congr (q := fun depth => andThen
      (unit .strict (alternatives .strict depth) (ctx.within [.vbar]))
      (many unitStarts (unit .strict (alternatives .strict depth) (ctx.within [.vbar]))))
      (fun depth l hl hlen => ?_) ?_
    · rw [nextIn_congr hl, hk, if_pos rfl,
        many_eq fun us hus _ => hsettles depth us (Nat.le_trans hus hlen), whenNext,
        nextIn_congr hl, hk, if_pos rfl]
    -- the first unit is there for sure, and the others make up a sequence or nothing
    refine (foresees_unit hin _ hlen).andThen ?_ ?_
    · rintro _ ⟨i, rfl⟩
      exact ⟨[], .single i, by simp [Sequence.tokens]⟩
    rintro _ rest rfl ⟨i, rfl⟩
    have hrest : rest.length ≤ n := by
      simp only [List.length_append] at hlen
      omega
    refine Foresees.mono (D := {us | us = [] ∨ ∃ s : Sequence, us = s.tokens}) ?_ ?_
    · refine .many (fun depth us hus _ => hsettles depth us hus)
        (fun us hus _ => foresees_unit hin _ (Nat.le_trans hus hrest)) ?_ (.inl rfl) ?_
      · rintro _ ⟨i, rfl⟩
        exact List.length_pos_iff.1 i.length_tokens_pos
      · rintro _ ⟨i, rfl⟩ _ (rfl | ⟨s, rfl⟩)
        · exact .inr ⟨.single i, by simp [Sequence.tokens]⟩
        · exact .inr ⟨.followed i s, rfl⟩
    · rintro _ (rfl | ⟨s, rfl⟩)
      · exact ⟨.single i, by simp [Sequence.tokens]⟩
      · exact ⟨.followed i s, rfl⟩

private theorem foresees_separated (hin : ForeseesInside n) (ctx : Context) (hlen : ts.length ≤ n) :
    Foresees (fun depth => separated .strict (alternatives .strict depth) ctx) ts
      (Set.range Choice.tokens) := by
  refine (foresees_alternative hin ctx hlen).andThen ?_ ?_
  · rintro _ ⟨s, rfl⟩
    exact ⟨[], .single s, by simp [Choice.tokens]⟩
  rintro _ rest rfl ⟨s, rfl⟩
  have hrest : rest.length ≤ n := by
    simp only [List.length_append] at hlen
    omega
  refine Foresees.mono
    (D := {us | us = [] ∨ ∃ (bar : Word) (c : Choice), us = bar.token .vbar :: c.tokens}) ?_ ?_
  · refine Foresees.many
      (D := {us | ∃ (bar : Word) (s : Sequence), us = bar.token .vbar :: s.tokens}) ?_ ?_ ?_
      (.inl rfl) ?_
    · intro depth us hus hbar
      obtain ⟨bar, k, us, hk, rfl⟩ := exists_token_of_nextIn hbar
      refine Settles.andThen (D := fun taken _ => taken = [bar.token k]) (.take rfl) ?_
      rintro _ _ rest' hts rfl
      simp only [List.cons_append, List.nil_append, List.cons.injEq, true_and] at hts
      subst hts
      exact (settles_alternative (settles_alternatives depth) ctx (Nat.le_of_succ_le hus)).mono
        fun _ _ _ => by simp
    · intro us hus hbar
      obtain ⟨bar, k, us, hk, rfl⟩ := exists_token_of_nextIn hbar
      obtain rfl := List.mem_singleton.1 hk
      refine .takeThen (fun depth l _ => rfl) ?_
      refine (foresees_alternative hin ctx (Nat.le_of_succ_le (Nat.le_trans hus hrest))).mono ?_
      rintro _ ⟨s, rfl⟩
      exact ⟨bar, s, rfl⟩
    · rintro _ ⟨bar, s, rfl⟩
      simp
    · rintro _ ⟨bar, s, rfl⟩ _ (rfl | ⟨bar', c, rfl⟩)
      · exact .inr ⟨bar, .single s, by simp [Choice.tokens]⟩
      · exact .inr ⟨bar, .either s bar' c, rfl⟩
  · rintro _ (rfl | ⟨bar, c, rfl⟩)
    · exact ⟨.single s, by simp [Choice.tokens]⟩
    · exact ⟨.either s bar c, rfl⟩

end Phrases

/-- Alternatives are foreseen, however many tokens there are. -/
private theorem foresees_alternatives (n : Nat) : ForeseesInside n := by
  induction n with
  | zero => intro ctx ts h; omega
  | succ n ih => exact fun ctx ts h => foresees_separated ih ctx (Nat.le_of_lt_succ h)

end Parser

/-! ## Whole patterns -/

open TreeMatcher.Parser

/-- Tokens are those of a choice, or there is just one mismatch. The tokens in front of it are the
beginning of a choice, and with the token at the mismatch they are not; without a token there, all
tokens are the beginning of a choice and no choice themselves. -/
theorem parseTokens_strict_cases (ts : List Token) :
    (∃ c : Choice, ts = c.tokens) ∨
      ∃ us rest m, ts = us ++ rest ∧ (parseTokens .strict ts).2 = [m] ∧ m.found? = rest.head? ∧
        (∃ more, us ++ more ∈ Set.range Choice.tokens) ∧
        ∀ l, l.head? = rest.head? → us ++ l ∉ Set.range Choice.tokens := by
  -- tokens that make up a choice are read to their end
  have hread {l : List Token} (hl : l ∈ Set.range Choice.tokens) :
      ∃ trees, alternatives .strict (l.length + 1) .empty l = ⟨trees, [], [], false⟩ := by
    obtain ⟨c, rfl⟩ := hl
    have h := c.accepts (c.tokens.length + 1) .empty [] (Nat.lt_succ_self _) rfl
    rw [List.append_nil] at h
    exact ⟨_, h⟩
  obtain ⟨us, rest, rfl, ⟨hus, trees, h⟩ | ⟨hus, trees, e, h⟩⟩ :=
    foresees_alternatives (ts.length + 1) .empty ts (Nat.lt_succ_self _)
  · have hts := h _ rest rfl (Nat.le_refl _)
    cases rest with
    | nil =>
      rw [List.append_nil]
      obtain ⟨c, rfl⟩ := hus
      exact .inl ⟨c, rfl⟩
    | cons t rest =>
      refine .inr ⟨us, t :: rest, ⟨.patternEnd, some t⟩, rfl, ?_, rfl, ⟨[], by simpa using hus⟩, ?_⟩
      · simp only [parseTokens, hts, Reply.allMismatches]
        rfl
      · intro l hl hmem
        obtain ⟨trees', hend⟩ := hread hmem
        obtain ⟨l, rfl⟩ := List.head?_eq_some_iff.1 hl
        cases (h _ _ hl (Nat.le_refl _)).symm.trans hend
  · refine .inr ⟨us, rest, ⟨e, rest.head?⟩, rfl, ?_, rfl, hus, ?_⟩
    · have hts := h _ rest rfl (Nat.le_refl _)
      simp only [parseTokens, hts, Reply.allMismatches, if_true]
    · intro l hl hmem
      obtain ⟨trees', hend⟩ := hread hmem
      cases (h _ l hl (Nat.le_refl _)).symm.trans hend

end TreeMatcher
