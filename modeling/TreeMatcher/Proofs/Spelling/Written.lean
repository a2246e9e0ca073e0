import TreeMatcher.Proofs.Compile.Written
import TreeMatcher.Proofs.Spelling.Rebuild

/-!
# The phrase behind a spelling

The spelling of a writable matcher is the text of a phrase. There is one phrase for each shape of a
matcher, built from the phrases of its parts, and compiling it gives the matcher rebuilt; where a
bound is too large for a repeater, the phrase is refused.

* `Writes` — a spelling, the phrase behind it, and what the phrase compiles to.
* `Spelled g m` — there is a phrase for the matcher `m`.

## Main results

* `exists_sequence`, `exists_alternatives` — matchers in a row, and alternatives, have a phrase when
  each of them has one.
* `exists_body` — so has the group that a wildcard stands around.
-/

namespace TreeMatcher

/-! ## Steps of an outcome -/

namespace Outcome

variable {α β γ : Type}

theorem andThen_assoc (o : Outcome α) (f : α → Outcome β) (h : β → Outcome γ) :
    (o.andThen f).andThen h = o.andThen fun a => (f a).andThen h := by
  rcases o with ⟨es, e | a⟩
  · rfl
  · unfold andThen
    dsimp only
    cases (f a).result <;> simp [List.append_assoc]

theorem result_andThen {o : Outcome α} {a : α} (h : o.result = .ok a) (f : α → Outcome β) :
    (o.andThen f).result = (f a).result := by
  rw [andThen, h]

theorem andThen_ne_ok {o : Outcome α} (h : ∀ a, o.result ≠ .ok a) (f : α → Outcome β) (b : β) :
    (o.andThen f).result ≠ .ok b := by
  rcases o with ⟨es, e | a⟩
  · exact fun hb => by cases hb
  · exact absurd rfl (h a)

end Outcome

/-! ## Spellings and phrases -/

/-- A spelling, the text and the tokens of the phrase behind it, and what the phrase compiles to:
`a`, or nothing where a bound is beyond the limit. -/
structure Writes {α : Type} (spelling : Except SpellingError Text) (text : Text)
    (tokens : List Token) (outcome : Outcome α) (beyond : Prop) (a : α) : Prop where
  spelling_eq : spelling = .ok text
  legible : ∀ t ∈ tokens, t.Legible beyond
  compiles : ¬beyond → outcome.result = .ok a
  refused : beyond → ∀ a', outcome.result ≠ .ok a'

namespace Writes

variable {α β : Type} {spelling : Except SpellingError Text} {text : Text} {tokens : List Token}
  {outcome : Outcome α} {beyond : Prop} {a : α}

/-- What is done behind a phrase that compiles. -/
theorem andThen (h : Writes spelling text tokens outcome beyond a) {f : α → Outcome β} {b : β}
    (hf : ¬beyond → (f a).result = .ok b) :
    Writes spelling text tokens (outcome.andThen f) beyond b where
  spelling_eq := h.spelling_eq
  legible := h.legible
  compiles hb := (Outcome.result_andThen (h.compiles hb) f).trans (hf hb)
  refused hb := Outcome.andThen_ne_ok (h.refused hb) f

theorem congr {beyond' : Prop} (h : Writes spelling text tokens outcome beyond a)
    (hb : beyond' ↔ beyond) : Writes spelling text tokens outcome beyond' a where
  spelling_eq := h.spelling_eq
  legible t ht := (h.legible t ht).mono hb.2
  compiles hn := h.compiles (mt hb.2 hn)
  refused hn := h.refused (hb.1 hn)

/-- The same outcome with more tokens around. -/
theorem around (h : Writes spelling text tokens outcome beyond a)
    {spelling' : Except SpellingError Text} {text' : Text} {tokens' : List Token}
    (hs : spelling' = .ok text') (ht : ∀ t ∈ tokens', t ∈ tokens ∨ t.Legible beyond) :
    Writes spelling' text' tokens' outcome beyond a where
  spelling_eq := hs
  legible t h' := (ht t h').elim (h.legible t) id
  compiles := h.compiles
  refused := h.refused

/-- Two phrases, one after the other. -/
private theorem both {γ : Type} (h : Writes spelling text tokens outcome beyond a)
    {spelling' : Except SpellingError Text} {text' : Text} {tokens' : List Token}
    {outcome' : Outcome β} {beyond' : Prop} {b : β}
    (h' : Writes spelling' text' tokens' outcome' beyond' b) (f : α → β → γ)
    {spelling₂ : Except SpellingError Text} {text₂ : Text} {tokens₂ : List Token}
    (hs : spelling₂ = .ok text₂)
    (ht : ∀ t ∈ tokens₂, t ∈ tokens ∨ t ∈ tokens' ∨ t.Legible (beyond ∨ beyond')) :
    Writes spelling₂ text₂ tokens₂
      (outcome.andThen fun a => outcome'.andThen fun b => .value (f a b)) (beyond ∨ beyond')
      (f a b) where
  spelling_eq := hs
  legible t hmem := by
    rcases ht t hmem with hmem | hmem | hmem
    · exact (h.legible t hmem).mono .inl
    · exact (h'.legible t hmem).mono .inr
    · exact hmem
  compiles hn := by
    rw [Outcome.result_andThen (h.compiles fun hb => hn (.inl hb)),
      Outcome.result_andThen (h'.compiles fun hb => hn (.inr hb))]
    rfl
  refused hb := by
    by_cases hfirst : beyond
    · exact Outcome.andThen_ne_ok (h.refused hfirst) _
    · have hsecond : beyond' := hb.resolve_left hfirst
      rw [Outcome.result_andThen (h.compiles hfirst)]
      exact Outcome.andThen_ne_ok (h'.refused hsecond) _

end Writes

open Matcher Grammar

variable (g : Grammar)

/-- The unit behind the spelling of a matcher. -/
def WritesItem (m : Matcher) (i : Item) : Prop :=
  Writes (g.spell m) i.text i.tokens (i.matcher g) (Contains IsBeyond m) m.rebuild

/-- The basic pattern behind the spelling of a leaf or a node without a name. -/
def WritesBasic (m : Matcher) (b : Basic) : Prop :=
  Writes (g.spell m) b.text b.tokens (b.matcher g) (Contains IsBeyond m) m.rebuild

/-- The operand behind the spelling of a matcher that an exclamation mark stands directly before. -/
def WritesOperand (m : Matcher) (o : Operand) : Prop :=
  Writes (g.spell m) o.text o.tokens ((o.matcher g).andThen Matcher.finish)
    (Contains IsBeyond m) m.rebuild

/-- There is a phrase for a matcher. -/
structure Spelled (m : Matcher) : Prop where
  item : ∃ i, WritesItem g m i
  basic : m.isPlain → ∃ b, WritesBasic g m b
  operand : m.isPlain ∨ m.isBracketed → ∃ o, WritesOperand g m o

variable {g}

/-! ## Leaves and nodes -/

/-- A token kind is spelled as a name that stands for it. -/
private theorem exists_token_name {token? : Option Number} (h : g.GivesToken none token?) :
    ∃ n, g.spellLeaf token? none = .ok n ∧ Text.isName n ∧ Text.isUpperCase n ∧
      g.tokenNames.lookup n = some token? := by
  obtain ⟨t, ht⟩ := h
  simp only [tokenNames, List.mem_cons, Prod.mk.injEq, List.not_mem_nil, or_false] at ht
  cases token? with
  | none => exact ⟨"TOKEN", rfl, by decide, by decide, rfl⟩
  | some k =>
    by_cases hname : k = .int g.nameKind
    · exact ⟨"NAME", by rw [spellLeaf]; exact if_pos hname, by decide, by decide,
        congrArg (fun k => some (some k)) hname.symm⟩
    by_cases hstring : k = .int g.stringKind
    · refine ⟨"STRING", ?_, by decide, by decide,
        congrArg (fun k => some (some k)) hstring.symm⟩
      exact (if_neg hname).trans (if_pos hstring)
    by_cases hnumber : k = .int g.numberKind
    · refine ⟨"NUMBER", ?_, by decide, by decide,
        congrArg (fun k => some (some k)) hnumber.symm⟩
      exact (if_neg hname).trans ((if_neg hstring).trans (if_pos hnumber))
    · simp [hname, hstring, hnumber] at ht

/-- A symbol is spelled as a name that stands for it. -/
theorem exists_symbol_name {symbol? : Option Number} (h : g.GivesSymbol symbol?) :
    ∃ n, g.spellSymbol symbol? = .ok n ∧ Text.isName n ∧ Text.isUpperCase n = false ∧
      ∀ l : Leaf, l.value = n → g.symbolOf l = .value symbol? := by
  rcases h with rfl | ⟨s, k, hname, hupper, hany, hunderscore, hk, rfl⟩
  · refine ⟨anySymbol, rfl, by decide, by decide, ?_⟩
    intro l hl
    rw [symbolOf, if_pos (.inl hl)]
  · refine ⟨s, ?_, hname, hupper, fun l hl => ?_⟩
    · rw [spellSymbol, symbolName?_of_symbolKind? hk]
    · rw [symbolOf, hl, if_neg (not_or.2 ⟨hany, hunderscore⟩), hk]

/-- A leaf without its name. -/
theorem exists_basic_leaf {token? : Option Number} {value? : Option Text}
    (h : g.GivesToken value? token?) {beyond : Prop} (hb : ¬beyond) :
    ∃ b : Basic, Writes (g.spellLeaf token? value?) b.text b.tokens (b.matcher g) beyond
      (leaf token? value? none) := by
  cases value? with
  | some v =>
    refine ⟨.literal (.ofText (Literal.quote v)), rfl, ?_, fun _ => ?_, fun h => absurd h hb⟩
    · simpa [Basic.tokens] using
        (show ((Word.ofText (Literal.quote v)).token .string).Legible beyond from ⟨v, rfl⟩)
    · have hvalue : ((Word.ofText (Literal.quote v)).toLeaf .string).value = Literal.quote v := rfl
      rw [Basic.matcher, literalMatcher, hvalue, Literal.unquote_quote]
      exact Outcome.result_andThen h _
  | none =>
    obtain ⟨n, hspell, hname, hupper, hlookup⟩ := exists_token_name h
    refine ⟨.name (.ofText n), hspell, ?_, fun _ => ?_, fun h => absurd h hb⟩
    · simpa [Basic.tokens] using
        (show ((Word.ofText n).token .name).Legible beyond from hname)
    · have hvalue : ((Word.ofText n).toLeaf .name).value = n := rfl
      rw [Basic.matcher, nameMatcher, hvalue, if_pos hupper, tokenMatcher, hvalue, hlookup]
      rfl

/-- A node without its name and without content. -/
theorem exists_basic_bare {symbol? : Option Number} (h : g.GivesSymbol symbol?) {beyond : Prop}
    (hb : ¬beyond) :
    ∃ b : Basic, Writes (g.spellNode symbol? none) b.text b.tokens (b.matcher g) beyond
      (node symbol? none none) := by
  obtain ⟨n, hspell, hname, hupper, hsymbol⟩ := exists_symbol_name h
  refine ⟨.name (.ofText n), ?_, ?_, fun _ => ?_, fun h => absurd h hb⟩
  · rw [spellNode, hspell]
    rfl
  · simpa [Basic.tokens] using (show ((Word.ofText n).token .name).Legible beyond from hname)
  · have hvalue : ((Word.ofText n).toLeaf .name).value = n := rfl
    rw [Basic.matcher, nameMatcher, hvalue, if_neg (by simp [hupper]), symbolMatcher,
      hsymbol _ hvalue]
    rfl

/-! ## Sequences and alternatives -/

theorem spellSequence_single (m : Matcher) : g.spellSequence [m] = g.spell m := by
  rw [spellSequence]
  cases g.spell m <;> rfl

/-- Where two spellings in a row succeed, each of them does. -/
theorem bind_map_eq_ok {ε α β γ : Type} {x : Except ε α} {y : Except ε β} {f : α → β → γ} {c : γ} :
    (x.bind fun a => y.map (f a)) = .ok c ↔ ∃ a b, x = .ok a ∧ y = .ok b ∧ f a b = c := by
  rcases x with _ | a <;> rcases y with _ | b <;> simp [Except.bind, Except.map]

theorem spellAll_cons (m : Matcher) (ms : List Matcher) :
    g.spellAll (m :: ms) = (g.spell m).bind fun t => (g.spellAll ms).map fun ts => t :: ts := by
  rw [spellAll]
  cases g.spell m <;> rfl

theorem spellSequence_eq_bind (m : Matcher) (ms : List Matcher) :
    g.spellSequence (m :: ms) =
      (g.spell m).bind fun t => (g.spellAll ms).map fun ts => joinTexts " " (t :: ts) := by
  rw [spellSequence]
  cases g.spell m <;> rfl

theorem spellSequences_cons (s : List Matcher) (ss : List (List Matcher)) :
    g.spellSequences (s :: ss) =
      (g.spellSequence s).bind fun t => (g.spellSequences ss).map fun ts => t :: ts := by
  rw [spellSequences]
  cases g.spellSequence s <;> rfl

theorem spellChoice_eq_bind (s : List Matcher) (ss : List (List Matcher)) :
    g.spellChoice (s :: ss) =
      (g.spellSequence s).bind fun t =>
        (g.spellSequences ss).map fun ts => joinTexts " | " (t :: ts) := by
  rw [spellChoice]
  cases g.spellSequence s <;> rfl

private theorem spellSequence_cons {m : Matcher} {ms : List Matcher} {t u : Text} (hne : ms ≠ [])
    (hm : g.spell m = .ok t) (hms : g.spellSequence ms = .ok u) :
    g.spellSequence (m :: ms) = .ok (t ++ 0x20 :: u) := by
  obtain ⟨m', ms, rfl⟩ := List.exists_cons_of_ne_nil hne
  rw [spellSequence_eq_bind] at hms ⊢
  obtain ⟨t', ts, hm', hms', rfl⟩ := bind_map_eq_ok.1 hms
  have hall : g.spellAll (m' :: ms) = .ok (t' :: ts) := by
    rw [spellAll_cons]
    exact bind_map_eq_ok.2 ⟨t', ts, hm', hms', rfl⟩
  refine bind_map_eq_ok.2 ⟨t, t' :: ts, hm, hall, ?_⟩
  simp only [joinTexts, List.append_assoc]
  rfl

theorem spellChoice_single (ms : List Matcher) : g.spellChoice [ms] = g.spellSequence ms := by
  rw [spellChoice]
  cases g.spellSequence ms <;> rfl

private theorem spellChoice_cons {ms : List Matcher} {as : List (List Matcher)} {t u : Text}
    (hne : as ≠ []) (hms : g.spellSequence ms = .ok t) (has : g.spellChoice as = .ok u) :
    g.spellChoice (ms :: as) = .ok (t ++ 0x20 :: 0x7C :: 0x20 :: u) := by
  obtain ⟨ms', as, rfl⟩ := List.exists_cons_of_ne_nil hne
  rw [spellChoice_eq_bind] at has ⊢
  obtain ⟨t', ts, hms', has', rfl⟩ := bind_map_eq_ok.1 has
  have hall : g.spellSequences (ms' :: as) = .ok (t' :: ts) := by
    rw [spellSequences_cons]
    exact bind_map_eq_ok.2 ⟨t', ts, hms', has', rfl⟩
  refine bind_map_eq_ok.2 ⟨t, t' :: ts, hms, hall, ?_⟩
  simp only [joinTexts, List.append_assoc]
  rfl

/-- Units in a row make up an alternative. -/
theorem exists_sequence {ms : List Matcher} (hne : ms ≠ [])
    (hms : ∀ m ∈ ms, ∃ i, WritesItem g m i) :
    ∃ s : Sequence, Writes (g.spellSequence ms) s.text s.tokens (s.each g)
      (∃ m ∈ ms, Contains IsBeyond m) (ms.map rebuild) := by
  induction ms with
  | nil => exact absurd rfl hne
  | cons m ms ih =>
    rw [List.forall_mem_cons] at hms
    obtain ⟨⟨i, hi⟩, hms⟩ := hms
    by_cases hnil : ms = []
    · subst hnil
      refine ⟨.single i, ?_⟩
      rw [Sequence.text, Sequence.tokens, Sequence.each, spellSequence_single]
      exact (hi.andThen (f := fun m => .value [m]) fun _ => rfl).congr (by simp)
    · obtain ⟨s, hs⟩ := ih hnil hms
      refine ⟨.followed i s, ?_⟩
      rw [Sequence.text, Sequence.tokens, Sequence.each]
      refine (hi.both hs List.cons (spellSequence_cons hnil hi.spelling_eq hs.spelling_eq)
        fun t ht => ?_).congr (by simp)
      exact (List.mem_append.1 ht).imp_right .inl

/-- Alternatives make up a choice. -/
theorem exists_alternatives {as : List (List Matcher)} (hne : as ≠ [])
    (hnes : ∀ ms ∈ as, ms ≠ []) (has : ∀ ms ∈ as, ∀ m ∈ ms, ∃ i, WritesItem g m i) :
    ∃ c : Choice, Writes (g.spellChoice as) c.text c.tokens (c.each g)
      (∃ ms ∈ as, ∃ m ∈ ms, Contains IsBeyond m)
      (as.map fun ms => sequenceOf (ms.map rebuild)) := by
  induction as with
  | nil => exact absurd rfl hne
  | cons ms as ih =>
    rw [List.forall_mem_cons] at hnes has
    obtain ⟨s, hs⟩ := exists_sequence hnes.1 has.1
    have hseq : (inSequence (ms.map rebuild)).result = .ok (sequenceOf (ms.map rebuild)) := by
      rw [inSequence_eq (by simpa using hnes.1)]
      rfl
    have halternative := hs.andThen fun _ => hseq
    by_cases hnil : as = []
    · subst hnil
      refine ⟨.single s, ?_⟩
      rw [Choice.text, Choice.tokens, Choice.each, spellChoice_single]
      exact (halternative.andThen (f := fun m => .value [m]) fun _ => rfl).congr (by simp)
    · obtain ⟨c, hc⟩ := ih hnil hnes.2 has.2
      refine ⟨.either s (markWord 0x7C) c, ?_⟩
      rw [Choice.text, Choice.tokens, Choice.each]
      refine (halternative.both hc List.cons
        (spellChoice_cons hnil hs.spelling_eq hc.spelling_eq) fun t ht => ?_).congr (by simp)
      rcases List.mem_append.1 ht with ht | ht
      · exact .inl ht
      · rcases List.mem_cons.1 ht with rfl | ht
        · exact .inr (.inr (legible_mark rfl))
        · exact .inr (.inl ht)

/-- The body of a wildcard makes up a choice that compiles as a group. -/
theorem exists_body {as : List (List Matcher)} (hne : as ≠ []) (hnes : ∀ ms ∈ as, ms ≠ [])
    (has : ∀ ms ∈ as, ∀ m ∈ ms, ∃ i, WritesItem g m i) :
    ∃ c : Choice, Writes (g.spellChoice as) c.text c.tokens (c.matcher g)
      (∃ ms ∈ as, ∃ m ∈ ms, Contains IsBeyond m) (bodyOf as) := by
  obtain ⟨c, hc⟩ := exists_alternatives hne hnes has
  refine ⟨c, ?_⟩
  rw [Choice.matcher]
  refine hc.andThen fun _ => ?_
  rw [oneOf_eq (by simpa using hne)]
  rfl

end TreeMatcher
