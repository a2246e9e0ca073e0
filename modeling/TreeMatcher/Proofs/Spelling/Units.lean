import TreeMatcher.Proofs.Spelling.Written

/-!
# The unit behind a spelling

Every writable matcher has a phrase. A leaf or a node is a basic pattern under its name. A wildcard
is an optional group, a group, or a basic pattern with a repeater, under its name. A negation is an
exclamation mark in front of what needs no parentheses, or of a group.

## Main results

* `spelled_wildcard`, `spelled_negated` — the phrase of a matcher around others that have one.
* `Matcher.Writable.spelled` — every writable matcher has a phrase.
-/

namespace TreeMatcher

open Matcher Grammar

variable {g : Grammar}

/-! ## Repeaters -/

namespace Matcher

theorem valid_upperBound (a : Nat) (b? : Option Nat) : ValidBounds (.int a) (upperBound b?) := by
  cases b? with
  | none => exact ⟨Number.isNat_int a, .inl rfl⟩
  | some b => exact ⟨Number.isNat_int a, .inr (Number.isNat_int b)⟩

/-- A repeater that is written for bounds within the limit puts a wildcard around a matcher. -/
private theorem result_repeatMatcher_repeaterOf {m : Matcher} {a : Nat} {b? : Option Nat}
    (hm : Settled m) (ha : a ≤ boundLimit) (hinf : b? = none → a ≤ 1)
    (hone : ¬(a = 1 ∧ b? = some 1)) (hb : ∀ b ∈ b?, b ≤ boundLimit) :
    (Grammar.repeatMatcher m (repeaterOf a b?).trees).result =
      .ok (wildcard [[m]] (.int a) (upperBound b?) none) := by
  have hbounds : boundsOf (repeaterOf a b?).trees = .ok (.int a, upperBound b?) := by
    rw [Repeater.boundsOf_trees, bounds_repeaterOf ha hinf hb]
  rw [result_repeatMatcher hm hbounds (valid_upperBound a b?), if_neg (mt bounds_eq_one_iff.1 hone)]

/-- A repeater that is not refused has bounds within the limit. -/
private theorem le_of_result_repeatMatcher {m m' : Matcher} {a : Nat} {b? : Option Nat}
    (hinf : b? = none → a ≤ 1)
    (h : (Grammar.repeatMatcher m (repeaterOf a b?).trees).result = .ok m') :
    a ≤ boundLimit ∧ ∀ b ∈ b?, b ≤ boundLimit := by
  rw [Grammar.repeatMatcher, Repeater.boundsOf_trees] at h
  cases hbs : (repeaterOf a b?).bounds with
  | error e =>
    rw [hbs] at h
    cases h
  | ok bs => exact le_of_bounds_repeaterOf hinf hbs

/-- A name, or none, on a shaped matcher that stands exactly once. -/
private theorem Shaped.captured_captureOf {m : Matcher} (h : Shaped g m) (name? : Option Text) :
    m.captured (captureOf name?) = .value (m.wrapped 1 1 name?) := by
  cases name? with
  | none => exact finish_of_settled h.settled
  | some n => exact h.finish_withName n

end Matcher

/-! ## Units under a name -/

/-- The marks that a phrase is written with are legible, and so are the tokens in it. -/
private theorem legible_around {k k' : TokenKind} {l r : CodeUnit} {ts us : List Token} {P : Prop}
    (hl : k.mark? = some l) (hr : k'.mark? = some r)
    (hus : us = (markWord l).token k :: (ts ++ [(markWord r).token k'])) :
    ∀ t ∈ us, t ∈ ts ∨ t.Legible P := by
  intro t ht
  rw [hus, List.mem_cons, List.mem_append, List.mem_singleton] at ht
  rcases ht with rfl | ht | rfl
  · exact .inr (legible_mark hl)
  · exact .inl ht
  · exact .inr (legible_mark hr)

variable {spelling : Except SpellingError Text} {beyond : Prop} {m m' : Matcher}
  {name? : Option Text}

/-- An operand under a name. -/
private theorem Writes.plain {o : Operand}
    (h : Writes spelling o.text o.tokens (o.matcher g) beyond m) (hn : Named name?)
    (hm : ¬beyond → (m.captured (captureOf name?)).result = .ok m') :
    Writes (spelling.map (captureText name? ++ ·)) (Item.plain (captureOf name?) o).text
      (Item.plain (captureOf name?) o).tokens ((Item.plain (captureOf name?) o).matcher g)
      beyond m' := by
  rw [Item.text, Item.tokens, Item.matcher, Outcome.bind_eq_andThen]
  refine (h.andThen hm).around ?_ fun t ht => ?_
  · rw [h.spelling_eq, captureSource_captureOf]
    rfl
  · exact (List.mem_append.1 ht).symm.imp_right (legible_captureOf hn t)

/-- A basic pattern with a repeater under a name. -/
private theorem Writes.repeated {b : Basic} {a : Nat} {b? : Option Nat}
    (h : Writes spelling b.text b.tokens (b.matcher g) beyond m) (hn : Named name?)
    (hinf : b? = none → a ≤ 1) (hone : ¬(a = 1 ∧ b? = some 1)) (hm : ¬beyond → Shaped g m) :
    Writes (spelling.map fun t => captureText name? ++ (t ++ (repeaterOf a b?).text))
      (Item.repeated (captureOf name?) b (repeaterOf a b?)).text
      (Item.repeated (captureOf name?) b (repeaterOf a b?)).tokens
      ((Item.repeated (captureOf name?) b (repeaterOf a b?)).matcher g)
      ((boundLimit < a ∨ ∃ b ∈ b?, boundLimit < b) ∨ beyond)
      (m.around (.int a) (upperBound b?) name?) where
  spelling_eq := by
    rw [h.spelling_eq, Item.text, captureSource_captureOf]
    rfl
  legible := by
    rw [Item.tokens]
    intro t ht
    rcases List.mem_append.1 ht with ht | ht
    · exact legible_captureOf hn t ht
    · rcases List.mem_append.1 ht with ht | ht
      · exact (h.legible t ht).mono .inr
      · exact legible_repeaterOf (fun ha => .inl (.inl ha))
          (fun b hb hlt => .inl (.inr ⟨b, hb, hlt⟩)) t ht
  compiles hnot := by
    rw [not_or, not_or] at hnot
    have ha : a ≤ boundLimit := Nat.le_of_not_lt hnot.1.1
    have hb : ∀ b ∈ b?, b ≤ boundLimit := fun b hb =>
      Nat.le_of_not_lt fun hlt => hnot.1.2 ⟨b, hb, hlt⟩
    have hshaped := hm hnot.2
    have hfinish : (wildcard [[m]] (.int a) (upperBound b?) name?).finish =
        .value (m.around (.int a) (upperBound b?) name?) :=
      finish_around hshaped (repeats_upperBound hinf ha) (mt bounds_eq_one_iff.1 hone)
    rw [Item.matcher, Outcome.bind_eq_andThen, Outcome.result_andThen (h.compiles hnot.2),
      Outcome.bind_eq_andThen,
      Outcome.result_andThen (result_repeatMatcher_repeaterOf hshaped.settled ha hinf hone hb),
      TreeMatcher.captured_captureOf, hfinish]
    rfl
  refused hbeyond := by
    rw [Item.matcher, Outcome.bind_eq_andThen]
    by_cases hb : beyond
    · exact Outcome.andThen_ne_ok (h.refused hb) _
    · have hlimit := hbeyond.resolve_right hb
      rw [Outcome.result_andThen (h.compiles hb), Outcome.bind_eq_andThen]
      refine Outcome.andThen_ne_ok (fun m'' hresult => ?_) _
      obtain ⟨ha, hb?⟩ := le_of_result_repeatMatcher hinf hresult
      obtain hlt | ⟨b, hmem, hlt⟩ := hlimit
      · exact absurd hlt (Nat.not_lt.2 ha)
      · exact absurd hlt (Nat.not_lt.2 (hb? b hmem))

/-! ## Leaves and nodes -/

private theorem map_captureText_none (s : Except SpellingError Text) :
    s.map (captureText none ++ ·) = s := by
  cases s <;> rfl

/-- A matcher that is written as an operand under its name. -/
private theorem spelled_of_operand {o : Operand}
    (h : Writes spelling o.text o.tokens (o.matcher g) (Contains IsBeyond m) m') (hn : Named name?)
    (hspell : g.spell m = spelling.map (captureText name? ++ ·))
    (hm : ¬Contains IsBeyond m → m'.captured (captureOf name?) = .value m.rebuild)
    (hbasic : m.isPlain → ∃ b, WritesBasic g m b)
    (hunnamed : m.isPlain ∨ m.isBracketed → name? = none) : Spelled g m := by
  refine ⟨⟨.plain (captureOf name?) o, ?_⟩, hbasic, fun hp => ⟨o, ?_⟩⟩
  · rw [WritesItem, hspell]
    exact h.plain hn fun hb => by rw [hm hb]; rfl
  · obtain rfl := hunnamed hp
    rw [map_captureText_none] at hspell
    rw [WritesOperand, hspell]
    refine h.andThen fun hb => ?_
    have hfinish : m'.finish = .value m.rebuild := hm hb
    rw [hfinish]
    rfl

/-- A leaf or a node is written as a basic pattern under its name. -/
private theorem spelled_of_basic {b : Basic}
    (h : Writes spelling b.text b.tokens (b.matcher g) (Contains IsBeyond m) m') (hn : Named name?)
    (hspell : g.spell m = spelling.map (captureText name? ++ ·))
    (hm : m'.captured (captureOf name?) = .value m.rebuild) (hsettled : Settled m')
    (hplain : m.isPlain → name? = none) (hbracketed : m.isBracketed = false) : Spelled g m := by
  have hbasic : m.isPlain → WritesBasic g m b := by
    intro hp
    obtain rfl := hplain hp
    have heq : m' = m.rebuild := by
      have hfinish : m'.finish = .value m.rebuild := hm
      rw [finish_of_settled hsettled] at hfinish
      exact Except.ok.inj (congrArg Outcome.result hfinish)
    rw [map_captureText_none] at hspell
    rw [WritesBasic, hspell, ← heq]
    exact h
  have hoperand : Writes spelling (Operand.basic b).text (Operand.basic b).tokens
      ((Operand.basic b).matcher g) (Contains IsBeyond m) m' := by
    rw [Operand.text, Operand.tokens, Operand.matcher]
    exact h
  exact spelled_of_operand hoperand hn hspell (fun _ => hm) (fun hp => ⟨b, hbasic hp⟩) fun hp =>
    hplain (hp.resolve_right (by simp [hbracketed]))

private theorem spelled_leaf {token? : Option Number} {value? : Option Text}
    (ht : g.GivesToken value? token?) (hn : Named name?) :
    Spelled g (leaf token? value? name?) := by
  have hbeyond : ¬Contains IsBeyond (leaf token? value? name?) := by
    rw [contains_leaf]
    exact fun h => h
  obtain ⟨b, hb⟩ := exists_basic_leaf ht hbeyond
  refine spelled_of_basic hb hn ?_ ?_ (settled_leaf _ _ _) ?_ rfl
  · rw [spell]
  · cases name? <;> exact finish_of_settled (settled_leaf _ _ _)
  · simp [isPlain]

private theorem spelled_bare {symbol? : Option Number} (hs : g.GivesSymbol symbol?)
    (hn : Named name?) :
    Spelled g (node symbol? none name?) := by
  have hbeyond : ¬Contains IsBeyond (node symbol? none name?) := by
    rw [contains_bare]
    exact fun h => h
  obtain ⟨b, hb⟩ := exists_basic_bare hs hbeyond
  refine spelled_of_basic hb hn ?_ ?_ (settled_node _ _ _) ?_ rfl
  · rw [spell]
  · cases name? <;> exact finish_of_settled (settled_node _ _ _)
  · simp [isPlain]

/-- An alternative alone, as a choice. -/
private theorem Writes.alternative {s : Sequence} {ms : List Matcher}
    (h : Writes spelling s.text s.tokens (s.each g) beyond ms) (hne : ms ≠ []) :
    Writes spelling (Choice.single s).text (Choice.single s).tokens
      ((Choice.single s).matcher g) beyond (sequenceOf ms) := by
  rw [Choice.text, Choice.tokens, Choice.matcher, Choice.each]
  simp only [Outcome.bind_eq_andThen, Outcome.andThen_assoc]
  refine h.andThen fun _ => ?_
  rw [inSequence_eq hne]
  rfl

/-- A unit alone, as a choice. -/
theorem Writes.choice {i : Item} (h : Writes spelling i.text i.tokens (i.matcher g) beyond m) :
    Writes spelling (Choice.single (.single i)).text (Choice.single (.single i)).tokens
      ((Choice.single (.single i)).matcher g) beyond m := by
  have hsequence : Writes spelling (Sequence.single i).text (Sequence.single i).tokens
      ((Sequence.single i).each g) beyond [m] := by
    rw [Sequence.text, Sequence.tokens, Sequence.each]
    exact h.andThen fun _ => rfl
  exact hsequence.alternative (by simp)

private theorem contains_node_isBeyond {symbol? : Option Number} {content : List Matcher} :
    Contains IsBeyond (node symbol? (some content) name?) ↔
      ∃ m ∈ content, Contains IsBeyond m := by
  rw [contains_node]
  simp [IsBeyond]

private theorem spelled_node {symbol? : Option Number} {content : List Matcher}
    (hs : g.GivesSymbol symbol?) (hn : Named name?) (hne : content ≠ [])
    (hc : ∀ m ∈ content, Spelled g m) : Spelled g (node symbol? (some content) name?) := by
  obtain ⟨i, hi⟩ := exists_sequence hne fun m hm => (hc m hm).item
  have hcontent := hi.alternative (by simpa using hne)
  obtain ⟨s, hspell, hname, hupper, hsymbol⟩ := exists_symbol_name hs
  have hmatcher : ∀ w : Word, w.text = s →
      (Basic.detailed w (markWord 0x3C) (.single i) (markWord 0x3E)).matcher g =
        ((Choice.single i).matcher g).andThen fun content =>
          .value (node symbol? (some [content]) none) := by
    intro w hw
    have hvalue : (w.toLeaf .name).value = s := hw
    rw [Basic.matcher, detailedMatcher, hvalue, if_neg (by simp [hupper]), hsymbol _ hvalue]
    rfl
  have hbasic : Writes (g.spellNode symbol? (some (g.spellSequence content)))
      (Basic.detailed (.ofText s) (markWord 0x3C) (.single i) (markWord 0x3E)).text
      (Basic.detailed (.ofText s) (markWord 0x3C) (.single i) (markWord 0x3E)).tokens
      ((Basic.detailed (.ofText s) (markWord 0x3C) (.single i) (markWord 0x3E)).matcher g)
      (∃ m ∈ content, Contains IsBeyond m)
      (node symbol? (some [sequenceOf (content.map rebuild)]) none) := by
    rw [hmatcher _ rfl]
    refine (hcontent.andThen (f := fun content => .value (node symbol? (some [content]) none))
      fun _ => rfl).around ?_ fun t ht => ?_
    · rw [spellNode, hspell, hcontent.spelling_eq, Basic.text]
      simp only [markWord, Word.ofText, List.append_assoc]
      rfl
    · rw [Basic.tokens] at ht
      rcases List.mem_cons.1 ht with rfl | ht
      · exact .inr hname
      · exact legible_around rfl rfl rfl t ht
  refine spelled_of_basic (hbasic.congr contains_node_isBeyond) hn ?_ ?_ (settled_node _ _ _) ?_ rfl
  · rw [spell]
  · rw [rebuild_node]
    cases name? <;> exact finish_of_settled (settled_node _ _ _)
  · simp [isPlain]

/-! ## Wildcards -/

/-- A pattern in front of a repeater, in parentheses unless it is a single plain matcher. -/
def enclose (single : Bool) (t : Text) : Text := if single then t else "(" ++ t ++ ")"

private theorem spellWildcard_optional (body : Except SpellingError Text) (single : Bool) :
    spellWildcard body single 0 1 = body.map fun t : Text => "[" ++ t ++ "]" := by
  cases body <;> rfl

private theorem spellWildcard_once (body : Except SpellingError Text) (single : Bool) :
    spellWildcard body single 1 1 = body.map fun t : Text => "(" ++ t ++ ")" := by
  cases body with
  | error e => rfl
  | ok t =>
    unfold spellWildcard
    dsimp only
    rw [if_neg (by decide), repeaterText_once]
    simp [Except.map]

private theorem spellWildcard_repeated {min max : Number} {r : Text}
    (hoptional : ¬(min = 0 ∧ max = 1))
    (hr : repeaterText min max = .ok r) (hne : r ≠ []) (body : Except SpellingError Text)
    (single : Bool) :
    spellWildcard body single min max = body.map fun t => enclose single t ++ r := by
  cases body with
  | error e => rfl
  | ok t =>
    unfold spellWildcard
    dsimp only
    rw [if_neg hoptional, hr]
    cases single <;> simp [enclose, hne, Except.map]

/-- A choice in parentheses. -/
private theorem Writes.group {c : Choice}
    (h : Writes spelling c.text c.tokens (c.matcher g) beyond m) :
    Writes (spelling.map fun t => "(" ++ t ++ ")")
      (Basic.group (markWord 0x28) c (markWord 0x29)).text
      (Basic.group (markWord 0x28) c (markWord 0x29)).tokens
      ((Basic.group (markWord 0x28) c (markWord 0x29)).matcher g) beyond m := by
  rw [Basic.text, Basic.tokens, Basic.matcher]
  refine h.around ?_ (legible_around rfl rfl rfl)
  rw [h.spelling_eq]
  exact congrArg Except.ok (List.append_assoc _ _ _)

/-- A choice in square brackets. -/
private theorem Writes.optional {c : Choice}
    (h : Writes spelling c.text c.tokens (c.matcher g) beyond m) :
    Writes (spelling.map fun t => "[" ++ t ++ "]")
      (Operand.optional (markWord 0x5B) c (markWord 0x5D)).text
      (Operand.optional (markWord 0x5B) c (markWord 0x5D)).tokens
      ((Operand.optional (markWord 0x5B) c (markWord 0x5D)).matcher g) beyond
      (wildcard [[m]] 0 1 none) := by
  rw [Operand.text, Operand.tokens, Operand.matcher]
  refine (h.andThen (f := fun m => repeating [[m]] 0 1) fun _ => ?_).around ?_
    (legible_around rfl rfl rfl)
  · rw [repeating_of_valid repeats_zero_one.valid]
    rfl
  · rw [h.spelling_eq]
    exact congrArg Except.ok (List.append_assoc _ _ _)

section

variable {as : List (List Matcher)} {a : Nat} {b? : Option Nat}

private theorem contains_wildcard_isBeyond :
    Contains IsBeyond (wildcard as (.int a) (upperBound b?) name?) ↔
      (boundLimit < a ∨ ∃ b ∈ b?, boundLimit < b) ∨ ∃ ms ∈ as, ∃ m ∈ ms, Contains IsBeyond m := by
  rw [contains_wildcard, isBeyond_iff]

/-- Bounds of at most one are not beyond the limit, so only what is inside may have one that is. -/
private theorem contains_small_isBeyond (ha : a ≤ 1) :
    Contains IsBeyond (wildcard as (.int a) (upperBound (some 1)) name?) ↔
      ∃ ms ∈ as, ∃ m ∈ ms, Contains IsBeyond m := by
  have hlimit : 1 ≤ boundLimit := by decide
  rw [contains_wildcard_isBeyond]
  apply or_iff_right
  rintro (hlt | ⟨b, hb, hlt⟩)
  · omega
  · cases hb
    omega

/-- What is put in front of a repeater: the pattern alone where it is plain, a group otherwise. -/
private theorem exists_repeated (hne : as ≠ []) (hnes : ∀ ms ∈ as, ms ≠ [])
    (has : ∀ ms ∈ as, ∀ m ∈ ms, Spelled g m) :
    ∃ b : Basic, Writes ((g.spellChoice as).map (enclose (isSinglePlain as))) b.text b.tokens
      (b.matcher g) (∃ ms ∈ as, ∃ m ∈ ms, Contains IsBeyond m) (bodyOf as) := by
  cases hsingle : isSinglePlain as with
  | true =>
    obtain ⟨m, rfl, hplain⟩ : ∃ m, as = [[m]] ∧ m.isPlain := by
      unfold isSinglePlain at hsingle
      split at hsingle
      · exact ⟨_, rfl, hsingle⟩
      · cases hsingle
    obtain ⟨b, hb⟩ := (has [m] (by simp) m (by simp)).basic hplain
    have hspell : (g.spellChoice [[m]]).map (enclose true) = .ok b.text := by
      rw [spellChoice_single, spellSequence_single, hb.spelling_eq]
      rfl
    exact ⟨b, (Writes.around hb hspell fun t ht => .inl ht).congr (by simp)⟩
  | false =>
    obtain ⟨c, hc⟩ := exists_body hne hnes fun ms hms m hm => (has ms hms m hm).item
    exact ⟨_, hc.group⟩

private theorem repeaterOf_text_ne_nil (a : Nat) (b? : Option Nat) :
    (repeaterOf a b?).text ≠ [] := by
  cases b? <;> rw [repeaterOf] <;> split <;> simp [Repeater.text, markWord, Word.ofText]

variable (hn : Named name?) (hne : as ≠ []) (hnes : ∀ ms ∈ as, ms ≠ [])
  (has : ∀ ms ∈ as, ∀ m ∈ ms, Spelled g m)
  (hbody : ¬(∃ ms ∈ as, ∃ m ∈ ms, Contains IsBeyond m) → Shaped g (bodyOf as))

include hn hne hnes has hbody

/-- An optional group under a name. -/
private theorem spelled_wildcard_optional :
    Spelled g (wildcard as (.int (0 : Nat)) (upperBound (some 1)) name?) := by
  obtain ⟨c, hc⟩ := exists_body hne hnes fun ms hms m hm => (has ms hms m hm).item
  have hbeyond : Contains IsBeyond (wildcard as (.int (0 : Nat)) (upperBound (some 1)) name?) ↔
      ∃ ms ∈ as, ∃ m ∈ ms, Contains IsBeyond m := contains_small_isBeyond (Nat.zero_le 1)
  have hoptional := hc.optional.congr hbeyond
  refine spelled_of_operand hoptional hn ?_ (fun hb => ?_) (fun h => by cases h) fun h => ?_
  · rw [spell]
    exact congrArg _ (spellWildcard_optional _ _)
  · rw [TreeMatcher.captured_captureOf, rebuild_wildcard]
    exact finish_around (hbody (mt hbeyond.2 hb)) repeats_zero_one (by decide)
  · simp_all [isPlain, isBracketed]

/-- A group under a name. -/
private theorem spelled_wildcard_once :
    Spelled g (wildcard as (.int (1 : Nat)) (upperBound (some 1)) name?) := by
  obtain ⟨c, hc⟩ := exists_body hne hnes fun ms hms m hm => (has ms hms m hm).item
  have hgroup : Writes ((g.spellChoice as).map fun t => "(" ++ t ++ ")")
      (Operand.basic (.group (markWord 0x28) c (markWord 0x29))).text
      (Operand.basic (.group (markWord 0x28) c (markWord 0x29))).tokens
      ((Operand.basic (.group (markWord 0x28) c (markWord 0x29))).matcher g)
      (∃ ms ∈ as, ∃ m ∈ ms, Contains IsBeyond m) (bodyOf as) := by
    rw [Operand.text, Operand.tokens, Operand.matcher]
    exact hc.group
  have hbeyond : Contains IsBeyond (wildcard as (.int (1 : Nat)) (upperBound (some 1)) name?) ↔
      ∃ ms ∈ as, ∃ m ∈ ms, Contains IsBeyond m := contains_small_isBeyond (Nat.le_refl 1)
  refine spelled_of_operand (hgroup.congr hbeyond) hn ?_ (fun hb => ?_) (fun h => by cases h)
    fun h => ?_
  · rw [spell]
    exact congrArg _ (spellWildcard_once _ _)
  · rw [rebuild_wildcard]
    exact (hbody (mt hbeyond.2 hb)).captured_captureOf name?
  · simp_all [isPlain, isBracketed]

/-- A basic pattern with a repeater under a name. -/
private theorem spelled_wildcard_repeated (hinf : b? = none → a ≤ 1)
    (hoptional : ¬(a = 0 ∧ b? = some 1))
    (hone : ¬(a = 1 ∧ b? = some 1)) : Spelled g (wildcard as (.int a) (upperBound b?) name?) := by
  obtain ⟨b, hb⟩ := exists_repeated hne hnes has
  have hitem := hb.repeated hn hinf hone hbody
  have hoptional' : ¬(Number.int a = 0 ∧ upperBound b? = 1) := by
    intro ⟨hmin, hmax⟩
    exact hoptional ⟨int_eq_iff.1 hmin, upperBound_eq_one_iff.1 hmax⟩
  have hspell : g.spell (wildcard as (.int a) (upperBound b?) name?) =
      ((g.spellChoice as).map (enclose (isSinglePlain as))).map fun t =>
        captureText name? ++ (t ++ (repeaterOf a b?).text) := by
    rw [spell, spellWildcard_repeated hoptional' (repeaterText_eq hone hinf)
      (repeaterOf_text_ne_nil a b?)]
    cases g.spellChoice as <;> rfl
  refine ⟨⟨.repeated (captureOf name?) b (repeaterOf a b?), ?_⟩, fun h => (by cases h), fun h => ?_⟩
  · rw [WritesItem, hspell, rebuild_wildcard, wrapped_of_ne (mt bounds_eq_one_iff.1 hone)]
    exact hitem.congr contains_wildcard_isBeyond
  · have hbracketed : (name? = none ∧ upperBound b? = 1) ∧ (Number.int a).le 1 := by
      simpa [isPlain, isBracketed] using h
    have hb? : b? = some 1 := upperBound_eq_one_iff.1 hbracketed.1.2
    have hle : a ≤ 1 := Number.le_one_iff.1 hbracketed.2
    have hzero : a ≠ 0 := fun ha => hoptional ⟨ha, hb?⟩
    exact absurd ⟨(by omega), hb?⟩ hone

/-- A wildcard around matchers that have a phrase. -/
theorem spelled_wildcard (hinf : b? = none → a ≤ 1) :
    Spelled g (wildcard as (.int a) (upperBound b?) name?) := by
  by_cases hoptional : a = 0 ∧ b? = some 1
  · obtain ⟨rfl, rfl⟩ := hoptional
    exact spelled_wildcard_optional hn hne hnes has hbody
  · by_cases hone : a = 1 ∧ b? = some 1
    · obtain ⟨rfl, rfl⟩ := hone
      exact spelled_wildcard_once hn hne hnes has hbody
    · exact spelled_wildcard_repeated hn hne hnes has hbody hinf hoptional hone

end

/-! ## Negations -/

private theorem spellNegated_eq (m : Matcher) (text : Except SpellingError Text) :
    spellNegated m text none =
      (text.map (enclose (m.isPlain || m.isBracketed))).map fun t : Text => "!" ++ t := by
  cases text with
  | error e => rfl
  | ok t =>
    unfold spellNegated enclose
    dsimp only
    cases m.isPlain || m.isBracketed with
    | true => rfl
    | false => exact congrArg Except.ok (List.append_assoc _ _ _)

private theorem contains_negated_isBeyond {m : Matcher} :
    Contains IsBeyond (negated m none) ↔ Contains IsBeyond m := by
  rw [contains_negated]
  simp [IsBeyond]

/-- An exclamation mark in front of an operand. -/
private theorem Writes.negated {o : Operand}
    (h : Writes spelling o.text o.tokens ((o.matcher g).andThen Matcher.finish)
      (Contains IsBeyond m) m.rebuild)
    (hspell : g.spell (negated m none) = spelling.map fun t : Text => "!" ++ t) :
    WritesItem g (negated m none) (.negated (markWord 0x21) o) := by
  have hfinish : ((Matcher.negated m.rebuild none).finish).result =
      .ok (Matcher.negated m none).rebuild := by
    rw [finish_of_settled (settled_negated _ _), rebuild]
    rfl
  have hitem := h.andThen (f := fun m => (Matcher.negated m none).finish) fun _ => hfinish
  rw [WritesItem, Item.text, Item.tokens, Item.matcher]
  simp only [Outcome.bind_eq_andThen]
  rw [← Outcome.andThen_assoc]
  refine (hitem.around ?_ fun t ht => ?_).congr contains_negated_isBeyond
  · rw [hspell, h.spelling_eq]
    rfl
  · rcases List.mem_cons.1 ht with rfl | ht
    · exact .inr (legible_mark rfl)
    · exact .inl ht

/-- A negation of a matcher that has a phrase. -/
theorem spelled_negated (hm : ¬Contains IsBeyond m → Shaped g m.rebuild) (h : Spelled g m) :
    Spelled g (negated m none) := by
  have hspell : g.spell (negated m none) =
      ((g.spell m).map (enclose (m.isPlain || m.isBracketed))).map fun t : Text => "!" ++ t := by
    rw [spell, spellNegated_eq]
  refine ⟨?_, fun h => (by cases h), fun h => by simp [isPlain, isBracketed] at h⟩
  cases hdirect : m.isPlain || m.isBracketed with
  | true =>
    obtain ⟨o, ho⟩ := h.operand (by simpa using hdirect)
    rw [hdirect] at hspell
    refine ⟨_, Writes.negated ho (hspell.trans ?_)⟩
    cases g.spell m <;> rfl
  | false =>
    obtain ⟨i, hi⟩ := h.item
    have hgroup := (Writes.choice hi).group
    have ho : Writes ((g.spell m).map fun t : Text => "(" ++ t ++ ")")
        (Operand.basic (.group (markWord 0x28) (.single (.single i)) (markWord 0x29))).text
        (Operand.basic (.group (markWord 0x28) (.single (.single i)) (markWord 0x29))).tokens
        (((Operand.basic (.group (markWord 0x28) (.single (.single i)) (markWord 0x29))).matcher
          g).andThen Matcher.finish) (Contains IsBeyond m) m.rebuild := by
      rw [Operand.text, Operand.tokens, Operand.matcher]
      exact hgroup.andThen fun hb => by rw [finish_of_settled (hm hb).settled]; rfl
    rw [hdirect] at hspell
    exact ⟨_, Writes.negated ho hspell⟩

/-! ## All writable matchers -/

/-- Every writable matcher has a phrase. -/
theorem Matcher.Writable.spelled {m : Matcher} (h : Writable g m) : Spelled g m := by
  induction h with
  | leaf ht hn => exact spelled_leaf ht hn
  | bare hs hn => exact spelled_bare hs hn
  | node hs hn hne _ ih => exact spelled_node hs hn hne ih
  | negated hi ih => exact spelled_negated hi.shaped_rebuild ih
  | wildcard hn hinf hne hnes has ih =>
    refine spelled_wildcard hn hne hnes ih (fun hb => .bodyOf hne hnes fun s hs m hm => ?_) hinf
    exact (has s hs m hm).shaped_rebuild fun hc => hb ⟨s, hs, m, hm, hc⟩

end TreeMatcher
