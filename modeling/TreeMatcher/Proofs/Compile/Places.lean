import TreeMatcher.Proofs.Compile.Phrases
import TreeMatcher.Proofs.Pattern.Scan

/-!
# Places do not matter

The place of a token is kept for error messages only. Two phrases that differ in nothing but the
places of their tokens compile to the same matcher with the same events, or are refused for the same
cause.

* `Choice.erase` and its companions — a phrase with all places forgotten.
* `Outcome.unlocated` — an outcome without the place of an error.

## Main results

* `Choice.unlocated_matcher` — what a phrase compiles to does not depend on places.
* `Choice.exists_of_bare` — tokens of the same kinds and texts make up the same phrase elsewhere.
-/

namespace TreeMatcher

/-! ## Phrases without places -/

/-- A text as a word that stands nowhere in particular. -/
def Word.ofText (t : Text) : Word := ⟨t, Position.first, 0⟩

/-- A word with its place forgotten. -/
def Word.erase (w : Word) : Word := .ofText w.text

def Capture.erase (c : Capture) : Capture := ⟨c.name.erase, c.equal.erase⟩

def Repeater.erase : Repeater → Repeater
  | star w => .star w.erase
  | plus w => .plus w.erase
  | exactly l n r => .exactly l.erase n.erase r.erase
  | between l n c m r => .between l.erase n.erase c.erase m.erase r.erase

mutual

/-- A choice with all places forgotten. -/
def Choice.erase : Choice → Choice
  | .single s => .single s.erase
  | .either s bar c => .either s.erase bar.erase c.erase

def Sequence.erase : Sequence → Sequence
  | .single i => .single i.erase
  | .followed i s => .followed i.erase s.erase

def Item.erase : Item → Item
  | .negated bang o => .negated bang.erase o.erase
  | .plain capture? o => .plain (capture?.map Capture.erase) o.erase
  | .repeated capture? b r => .repeated (capture?.map Capture.erase) b.erase r.erase

def Operand.erase : Operand → Operand
  | .optional l c r => .optional l.erase c.erase r.erase
  | .basic b => .basic b.erase

def Basic.erase : Basic → Basic
  | .literal w => .literal w.erase
  | .name w => .name w.erase
  | .detailed w l c r => .detailed w.erase l.erase c.erase r.erase
  | .group l c r => .group l.erase c.erase r.erase

end

/-! ## Outcomes without places -/

/-- An error without its place. -/
def CompileError.unlocated : CompileError → CompileError
  | pattern e => .pattern (.nowhere e.cause)
  | e => e

/-- An outcome without the place of an error. -/
def Outcome.unlocated {α : Type} (o : Outcome α) : Outcome α :=
  ⟨o.events, o.result.mapError CompileError.unlocated⟩

namespace Outcome

variable {α β : Type}

private theorem unlocated_andThen (o : Outcome α) (f : α → Outcome β) :
    (o.andThen f).unlocated = o.unlocated.andThen fun a => (f a).unlocated := by
  rcases o with ⟨es, e | a⟩ <;> rfl

/-- Two outcomes that agree up to places have the same values. -/
theorem result_eq_ok_of_unlocated {o o' : Outcome α} (h : o.unlocated = o'.unlocated) {a : α} :
    o.result = .ok a ↔ o'.result = .ok a := by
  have hr := congrArg Outcome.result h
  rcases o with ⟨es, e | b⟩ <;> rcases o' with ⟨es', e' | b'⟩
  · simp
  · cases hr
  · cases hr
  · have hb : b = b' := Except.ok.inj hr
    rw [hb]

end Outcome

/-! ## Compiling does not look at places -/

open Outcome Grammar

variable (g : Grammar)

private theorem unlocated_tokenMatcher {l l' : Leaf} (h : l.value = l'.value) :
    (g.tokenMatcher l none).unlocated = (g.tokenMatcher l' none).unlocated := by
  unfold tokenMatcher
  rw [h]
  split <;> rfl

private theorem unlocated_symbolOf {l l' : Leaf} (h : l.value = l'.value) :
    (g.symbolOf l).unlocated = (g.symbolOf l').unlocated := by
  unfold symbolOf
  rw [h]
  split
  · rfl
  · split <;> rfl

private theorem unlocated_nameMatcher {l l' : Leaf} (h : l.value = l'.value) :
    (g.nameMatcher l).unlocated = (g.nameMatcher l').unlocated := by
  unfold nameMatcher
  rw [h]
  split
  · exact unlocated_tokenMatcher g h
  · unfold symbolMatcher
    rw [bind_eq_andThen, bind_eq_andThen, unlocated_andThen, unlocated_andThen,
      unlocated_symbolOf g h]

private theorem unlocated_detailedMatcher {l l' : Leaf} {content content' : Outcome Matcher}
    (h : l.value = l'.value) (hc : content.unlocated = content'.unlocated) :
    (g.detailedMatcher l content).unlocated = (g.detailedMatcher l' content').unlocated := by
  unfold detailedMatcher
  rw [h]
  split
  · split <;> rfl
  · simp only [bind_eq_andThen, unlocated_andThen, unlocated_symbolOf g h, hc]

private theorem mapError_boundOf (n : Word) :
    (boundOf (n.leaf .number)).mapError CompileError.unlocated =
      (boundOf (n.erase.leaf .number)).mapError CompileError.unlocated := by
  unfold boundOf Word.leaf Tree.ofToken
  dsimp only [Leaf.ofToken, Word.erase, Word.ofText, Word.token]
  split
  · split
    · split <;> rfl
    · rfl
  · rfl

private theorem mapError_bind {α β : Type} (x : Except CompileError α)
    (f : α → Except CompileError β) :
    (x >>= f).mapError CompileError.unlocated =
      x.mapError CompileError.unlocated >>= fun a => (f a).mapError CompileError.unlocated := by
  cases x <;> rfl

private theorem Repeater.mapError_bounds (r : Repeater) :
    r.bounds.mapError CompileError.unlocated = r.erase.bounds.mapError CompileError.unlocated := by
  cases r with
  | star w => rfl
  | plus w => rfl
  | exactly l n r => rw [bounds, erase, bounds, mapError_bind, mapError_bind, mapError_boundOf n]
  | between l n c m r =>
    simp only [bounds, erase, mapError_bind, mapError_boundOf n, mapError_boundOf m]

private theorem unlocated_repeatMatcher (m : Matcher) (r : Repeater) :
    (repeatMatcher m r.trees).unlocated = (repeatMatcher m r.erase.trees).unlocated := by
  have hb : (ofExcept r.bounds).unlocated = (ofExcept r.erase.bounds).unlocated :=
    congrArg (Outcome.mk []) r.mapError_bounds
  unfold repeatMatcher
  rw [r.boundsOf_trees, r.erase.boundsOf_trees, bind_eq_andThen, bind_eq_andThen,
    unlocated_andThen, unlocated_andThen, hb]

private theorem captured_erase (m : Matcher) (capture? : Option Capture) :
    m.captured (capture?.map Capture.erase) = m.captured capture? := by
  cases capture? <;> rfl

mutual

theorem Choice.unlocated_each : (c : Choice) → (c.each g).unlocated = (c.erase.each g).unlocated
  | .single s => by
    simp only [Choice.erase, Choice.each, bind_eq_andThen, unlocated_andThen,
      Sequence.unlocated_each s]
  | .either s bar c => by
    simp only [Choice.erase, Choice.each, bind_eq_andThen, unlocated_andThen,
      Sequence.unlocated_each s, Choice.unlocated_each c]

theorem Sequence.unlocated_each : (s : Sequence) →
    (s.each g).unlocated = (s.erase.each g).unlocated
  | .single i => by
    simp only [Sequence.erase, Sequence.each, bind_eq_andThen, unlocated_andThen,
      Item.unlocated_matcher i]
  | .followed i s => by
    simp only [Sequence.erase, Sequence.each, bind_eq_andThen, unlocated_andThen,
      Item.unlocated_matcher i, Sequence.unlocated_each s]

theorem Item.unlocated_matcher : (i : Item) →
    (i.matcher g).unlocated = (i.erase.matcher g).unlocated
  | .negated bang o => by
    simp only [Item.erase, Item.matcher, bind_eq_andThen, unlocated_andThen,
      Operand.unlocated_matcher o]
  | .plain capture? o => by
    simp only [Item.erase, Item.matcher, bind_eq_andThen, unlocated_andThen,
      Operand.unlocated_matcher o, captured_erase]
  | .repeated capture? b r => by
    simp only [Item.erase, Item.matcher, bind_eq_andThen, unlocated_andThen,
      Basic.unlocated_matcher b, captured_erase]
    congr 1
    funext m
    rw [unlocated_repeatMatcher]

theorem Operand.unlocated_matcher : (o : Operand) →
    (o.matcher g).unlocated = (o.erase.matcher g).unlocated
  | .optional l c r => by
    simp only [Operand.erase, Operand.matcher, bind_eq_andThen, unlocated_andThen,
      Choice.unlocated_each c]
  | .basic b => by
    rw [Operand.erase, Operand.matcher, Operand.matcher, Basic.unlocated_matcher b]

theorem Basic.unlocated_matcher : (b : Basic) →
    (b.matcher g).unlocated = (b.erase.matcher g).unlocated
  | .literal w => by
    rw [Basic.erase, Basic.matcher, Basic.matcher]
    rfl
  | .name w => by
    rw [Basic.erase, Basic.matcher, Basic.matcher]
    exact unlocated_nameMatcher g rfl
  | .detailed w l c r => by
    rw [Basic.erase, Basic.matcher, Basic.matcher]
    refine unlocated_detailedMatcher g rfl ?_
    rw [unlocated_andThen, unlocated_andThen, Choice.unlocated_each c]
  | .group l c r => by
    simp only [Basic.erase, Basic.matcher, unlocated_andThen, Choice.unlocated_each c]

end

/-- What a phrase compiles to, and why it is refused, does not depend on places. -/
theorem Choice.unlocated_matcher (c : Choice) :
    (c.matcher g).unlocated = (c.erase.matcher g).unlocated := by
  rw [Choice.matcher, Choice.matcher, unlocated_andThen, unlocated_andThen, c.unlocated_each g]

/-! ## The same phrase elsewhere -/

private theorem token_of_bare {t : Token} {k : TokenKind} {w : Word}
    (h : t.bare = (w.token k).bare) :
    t.word.token k = t ∧ t.word.erase = w.erase := by
  obtain ⟨hk, ht⟩ := Prod.mk.inj h
  exact ⟨Token.token_word hk, congrArg Word.ofText ht⟩

private theorem exists_capture {capture? : Option Capture} {ts : List Token}
    (h : ts.map Token.bare = (captureTokens capture?).map Token.bare) :
    ∃ capture'?, captureTokens capture'? = ts ∧
      capture'?.map Capture.erase = capture?.map Capture.erase := by
  cases capture? with
  | none =>
    rw [captureTokens, List.map_nil, List.map_eq_nil_iff] at h
    exact ⟨none, h.symm, rfl⟩
  | some c =>
    simp only [captureTokens, List.map_cons, List.map_nil, List.map_eq_cons_iff,
      List.map_eq_nil_iff] at h
    obtain ⟨n, ts, rfl, hn, e, us, rfl, he, rfl⟩ := h
    obtain ⟨hn, hn'⟩ := token_of_bare hn
    obtain ⟨he, he'⟩ := token_of_bare he
    refine ⟨some ⟨n.word, e.word⟩, by rw [captureTokens, hn, he], ?_⟩
    rw [Option.map_some, Option.map_some, Capture.erase, Capture.erase, hn', he']

theorem Repeater.exists_of_bare {r : Repeater} {ts : List Token}
    (h : ts.map Token.bare = r.tokens.map Token.bare) :
    ∃ r' : Repeater, r'.tokens = ts ∧ r'.erase = r.erase := by
  cases r with
  | star w =>
    simp only [tokens, List.map_cons, List.map_nil, List.map_eq_cons_iff,
      List.map_eq_nil_iff] at h
    obtain ⟨t, us, rfl, ht, rfl⟩ := h
    obtain ⟨ht, ht'⟩ := token_of_bare ht
    exact ⟨.star t.word, by rw [tokens, ht], by rw [erase, erase, ht']⟩
  | plus w =>
    simp only [tokens, List.map_cons, List.map_nil, List.map_eq_cons_iff,
      List.map_eq_nil_iff] at h
    obtain ⟨t, us, rfl, ht, rfl⟩ := h
    obtain ⟨ht, ht'⟩ := token_of_bare ht
    exact ⟨.plus t.word, by rw [tokens, ht], by rw [erase, erase, ht']⟩
  | exactly l n r =>
    simp only [tokens, List.map_cons, List.map_nil, List.map_eq_cons_iff,
      List.map_eq_nil_iff] at h
    obtain ⟨t, _, rfl, ht, u, _, rfl, hu, v, us, rfl, hv, rfl⟩ := h
    obtain ⟨ht, ht'⟩ := token_of_bare ht
    obtain ⟨hu, hu'⟩ := token_of_bare hu
    obtain ⟨hv, hv'⟩ := token_of_bare hv
    exact ⟨.exactly t.word u.word v.word, by rw [tokens, ht, hu, hv],
      by rw [erase, erase, ht', hu', hv']⟩
  | between l n c m r =>
    simp only [tokens, List.map_cons, List.map_nil, List.map_eq_cons_iff,
      List.map_eq_nil_iff] at h
    obtain ⟨t, _, rfl, ht, u, _, rfl, hu, v, _, rfl, hv, x, _, rfl, hx, y, us, rfl, hy, rfl⟩ := h
    obtain ⟨ht, ht'⟩ := token_of_bare ht
    obtain ⟨hu, hu'⟩ := token_of_bare hu
    obtain ⟨hv, hv'⟩ := token_of_bare hv
    obtain ⟨hx, hx'⟩ := token_of_bare hx
    obtain ⟨hy, hy'⟩ := token_of_bare hy
    exact ⟨.between t.word u.word v.word x.word y.word, by rw [tokens, ht, hu, hv, hx, hy],
      by rw [erase, erase, ht', hu', hv', hx', hy']⟩

mutual

/-- Tokens of the same kinds and texts make up the same phrase at other places. -/
theorem Choice.exists_of_bare : (c : Choice) → (ts : List Token) →
    ts.map Token.bare = c.tokens.map Token.bare → ∃ c' : Choice, c'.tokens = ts ∧ c'.erase = c.erase
  | .single s, ts, h => by
    rw [Choice.tokens] at h
    obtain ⟨s', rfl, hs'⟩ := Sequence.exists_of_bare s ts h
    exact ⟨.single s', by rw [Choice.tokens], by rw [Choice.erase, Choice.erase, hs']⟩
  | .either s bar c, ts, h => by
    rw [Choice.tokens, List.map_append, List.map_cons] at h
    obtain ⟨ts, us, rfl, hs, h⟩ := List.map_eq_append_iff.1 h
    obtain ⟨b, us, rfl, hb, hc⟩ := List.map_eq_cons_iff.1 h
    obtain ⟨s', rfl, hs'⟩ := Sequence.exists_of_bare s ts hs
    obtain ⟨hb, hb'⟩ := token_of_bare hb
    obtain ⟨c', rfl, hc'⟩ := Choice.exists_of_bare c us hc
    exact ⟨.either s' b.word c', by rw [Choice.tokens, hb],
      by rw [Choice.erase, Choice.erase, hs', hb', hc']⟩

theorem Sequence.exists_of_bare : (s : Sequence) → (ts : List Token) →
    ts.map Token.bare = s.tokens.map Token.bare →
    ∃ s' : Sequence, s'.tokens = ts ∧ s'.erase = s.erase
  | .single i, ts, h => by
    rw [Sequence.tokens] at h
    obtain ⟨i', rfl, hi'⟩ := Item.exists_of_bare i ts h
    exact ⟨.single i', by rw [Sequence.tokens], by rw [Sequence.erase, Sequence.erase, hi']⟩
  | .followed i s, ts, h => by
    rw [Sequence.tokens, List.map_append] at h
    obtain ⟨ts, us, rfl, hi, hs⟩ := List.map_eq_append_iff.1 h
    obtain ⟨i', rfl, hi'⟩ := Item.exists_of_bare i ts hi
    obtain ⟨s', rfl, hs'⟩ := Sequence.exists_of_bare s us hs
    exact ⟨.followed i' s', by rw [Sequence.tokens],
      by rw [Sequence.erase, Sequence.erase, hi', hs']⟩

theorem Item.exists_of_bare : (i : Item) → (ts : List Token) →
    ts.map Token.bare = i.tokens.map Token.bare → ∃ i' : Item, i'.tokens = ts ∧ i'.erase = i.erase
  | .negated bang o, ts, h => by
    rw [Item.tokens, List.map_cons] at h
    obtain ⟨b, ts, rfl, hb, ho⟩ := List.map_eq_cons_iff.1 h
    obtain ⟨hb, hb'⟩ := token_of_bare hb
    obtain ⟨o', rfl, ho'⟩ := Operand.exists_of_bare o ts ho
    exact ⟨.negated b.word o', by rw [Item.tokens, hb], by rw [Item.erase, Item.erase, hb', ho']⟩
  | .plain capture? o, ts, h => by
    rw [Item.tokens, List.map_append] at h
    obtain ⟨ts, us, rfl, hc, ho⟩ := List.map_eq_append_iff.1 h
    obtain ⟨capture'?, rfl, hc'⟩ := exists_capture hc
    obtain ⟨o', rfl, ho'⟩ := Operand.exists_of_bare o us ho
    exact ⟨.plain capture'? o', by rw [Item.tokens], by rw [Item.erase, Item.erase, hc', ho']⟩
  | .repeated capture? b r, ts, h => by
    rw [Item.tokens, List.map_append, List.map_append] at h
    obtain ⟨ts, us, rfl, hc, h⟩ := List.map_eq_append_iff.1 h
    obtain ⟨us, vs, rfl, hb, hr⟩ := List.map_eq_append_iff.1 h
    obtain ⟨capture'?, rfl, hc'⟩ := exists_capture hc
    obtain ⟨b', rfl, hb'⟩ := Basic.exists_of_bare b us hb
    obtain ⟨r', rfl, hr'⟩ := Repeater.exists_of_bare hr
    exact ⟨.repeated capture'? b' r', by rw [Item.tokens],
      by rw [Item.erase, Item.erase, hc', hb', hr']⟩

theorem Operand.exists_of_bare : (o : Operand) → (ts : List Token) →
    ts.map Token.bare = o.tokens.map Token.bare →
    ∃ o' : Operand, o'.tokens = ts ∧ o'.erase = o.erase
  | .optional l c r, ts, h => by
    rw [Operand.tokens, List.map_cons, List.map_append] at h
    obtain ⟨a, ts, rfl, ha, h⟩ := List.map_eq_cons_iff.1 h
    obtain ⟨ts, us, rfl, hc, h⟩ := List.map_eq_append_iff.1 h
    obtain ⟨b, us, rfl, hb, h⟩ := List.map_eq_cons_iff.1 h
    obtain rfl := List.map_eq_nil_iff.1 h
    obtain ⟨ha, ha'⟩ := token_of_bare ha
    obtain ⟨hb, hb'⟩ := token_of_bare hb
    obtain ⟨c', rfl, hc'⟩ := Choice.exists_of_bare c ts hc
    exact ⟨.optional a.word c' b.word, by rw [Operand.tokens, ha, hb],
      by rw [Operand.erase, Operand.erase, ha', hc', hb']⟩
  | .basic b, ts, h => by
    rw [Operand.tokens] at h
    obtain ⟨b', rfl, hb'⟩ := Basic.exists_of_bare b ts h
    exact ⟨.basic b', by rw [Operand.tokens], by rw [Operand.erase, Operand.erase, hb']⟩

theorem Basic.exists_of_bare : (b : Basic) → (ts : List Token) →
    ts.map Token.bare = b.tokens.map Token.bare → ∃ b' : Basic, b'.tokens = ts ∧ b'.erase = b.erase
  | .literal w, ts, h => by
    rw [Basic.tokens] at h
    obtain ⟨t, us, rfl, ht, h⟩ := List.map_eq_cons_iff.1 h
    obtain rfl := List.map_eq_nil_iff.1 h
    obtain ⟨ht, ht'⟩ := token_of_bare ht
    exact ⟨.literal t.word, by rw [Basic.tokens, ht], by rw [Basic.erase, Basic.erase, ht']⟩
  | .name w, ts, h => by
    rw [Basic.tokens] at h
    obtain ⟨t, us, rfl, ht, h⟩ := List.map_eq_cons_iff.1 h
    obtain rfl := List.map_eq_nil_iff.1 h
    obtain ⟨ht, ht'⟩ := token_of_bare ht
    exact ⟨.name t.word, by rw [Basic.tokens, ht], by rw [Basic.erase, Basic.erase, ht']⟩
  | .detailed w l c r, ts, h => by
    rw [Basic.tokens, List.map_cons, List.map_cons, List.map_append] at h
    obtain ⟨n, ts, rfl, hn, h⟩ := List.map_eq_cons_iff.1 h
    obtain ⟨a, ts, rfl, ha, h⟩ := List.map_eq_cons_iff.1 h
    obtain ⟨ts, us, rfl, hc, h⟩ := List.map_eq_append_iff.1 h
    obtain ⟨b, us, rfl, hb, h⟩ := List.map_eq_cons_iff.1 h
    obtain rfl := List.map_eq_nil_iff.1 h
    obtain ⟨hn, hn'⟩ := token_of_bare hn
    obtain ⟨ha, ha'⟩ := token_of_bare ha
    obtain ⟨hb, hb'⟩ := token_of_bare hb
    obtain ⟨c', rfl, hc'⟩ := Choice.exists_of_bare c ts hc
    exact ⟨.detailed n.word a.word c' b.word, by rw [Basic.tokens, hn, ha, hb],
      by rw [Basic.erase, Basic.erase, hn', ha', hc', hb']⟩
  | .group l c r, ts, h => by
    rw [Basic.tokens, List.map_cons, List.map_append] at h
    obtain ⟨a, ts, rfl, ha, h⟩ := List.map_eq_cons_iff.1 h
    obtain ⟨ts, us, rfl, hc, h⟩ := List.map_eq_append_iff.1 h
    obtain ⟨b, us, rfl, hb, h⟩ := List.map_eq_cons_iff.1 h
    obtain rfl := List.map_eq_nil_iff.1 h
    obtain ⟨ha, ha'⟩ := token_of_bare ha
    obtain ⟨hb, hb'⟩ := token_of_bare hb
    obtain ⟨c', rfl, hc'⟩ := Choice.exists_of_bare c ts hc
    exact ⟨.group a.word c' b.word, by rw [Basic.tokens, ha, hb],
      by rw [Basic.erase, Basic.erase, ha', hc', hb']⟩

end

end TreeMatcher
