import TreeMatcher.Proofs.Compile.Shape
import TreeMatcher.Proofs.Pattern.Elements

/-!
# Compiling a text fails on faults of the pattern only

The checks on the shape of a pattern tree and on the bounds of wildcards guard against trees that
were built by hand. On the tree of a phrase none of them fails: every position that is looked up is
there, a number is a run of digits, and the bounds of merged wildcards multiply to bounds again.

* `Outcome.Safe P o` — `o` is a value with `P` or a fault of the pattern.

## Main results

* `Choice.safe_matcher` — a phrase compiles to a shaped matcher or has a fault.
* `safe_matcherOfText` — so does a text, whatever the grammar.
* `matcherOfText_safe` — a text compiles or has a fault, and no check on the way fails.
-/

namespace TreeMatcher

/-! ## Safe outcomes -/

namespace Outcome

variable {α β : Type} {P : α → Prop} {Q : β → Prop}

/-- A value with a given property or a fault of the pattern, and no other error. -/
def Safe (P : α → Prop) (o : Outcome α) : Prop :=
  match o.result with
  | .ok a => P a
  | .error e => ∃ fault, e = .pattern fault

private theorem safe_value {a : α} (h : P a) : Safe P (value a) := h

private theorem safe_refuse (e : PatternError) : Safe P (refuse e : Outcome α) := ⟨e, rfl⟩

/-- A safe step, and a step that is safe on every value it may give. -/
private theorem Safe.andThen {o : Outcome α} {f : α → Outcome β} (h : Safe P o)
    (hf : ∀ a, P a → Safe Q (f a)) : Safe Q (o.andThen f) := by
  rcases o with ⟨es, e | a⟩
  · exact h
  · exact hf a h

private theorem Safe.of_eq_value {o : Outcome α} (h : ∃ a, o = .value a ∧ P a) : Safe P o := by
  obtain ⟨a, rfl, ha⟩ := h
  exact ha

private theorem Safe.mono {o : Outcome α} {P' : α → Prop} (h : Safe P o) (hP : ∀ a, P a → P' a) :
    Safe P' o := by
  rcases o with ⟨es, e | a⟩
  · exact h
  · exact hP a h

theorem Safe.cases {o : Outcome α} (h : Safe P o) :
    (∃ a, o.result = .ok a ∧ P a) ∨ ∃ fault, o.result = .error (.pattern fault) := by
  unfold Safe at h
  split at h
  · next a ha => exact .inl ⟨a, ha, h⟩
  · next e he =>
    obtain ⟨fault, rfl⟩ := h
    exact .inr ⟨fault, he⟩

end Outcome

/-! ## Leaves of the right texts -/

open Outcome Grammar Matcher

private theorem boundOf_number {n : Word} (h : Text.isDecimal n.text) :
    (∃ k : Nat, k ≤ boundLimit ∧ boundOf (n.leaf .number) = .ok k) ∨
      ∃ fault, boundOf (n.leaf .number) = .error (.pattern fault) := by
  have hk : (Leaf.ofToken (n.token .number)).label = .token .number := rfl
  have hd : Text.isDecimal (Leaf.ofToken (n.token .number)).value := h
  rw [Word.leaf, Tree.ofToken, boundOf, if_pos hk, if_pos hd]
  split
  · next hle => exact .inl ⟨_, hle, rfl⟩
  · exact .inr ⟨_, rfl⟩

/-- The numbers of a repeater are runs of digits. -/
theorem Repeater.bounds_cases {r : Repeater} (h : ∀ t ∈ r.tokens, t.Fits) :
    (∃ min max, r.bounds = .ok (min, max) ∧ Repeats min max) ∨
      ∃ fault, r.bounds = .error (.pattern fault) := by
  cases r with
  | star w => exact .inl ⟨0, .infinity, rfl, repeats_infinity 0 (by decide)⟩
  | plus w => exact .inl ⟨1, .infinity, rfl, repeats_infinity 1 (by decide)⟩
  | exactly l n r =>
    have hn : Text.isDecimal n.text := h (n.token .number) (by simp [tokens])
    rcases boundOf_number hn with ⟨k, hk, heq⟩ | ⟨fault, heq⟩
    · exact .inl ⟨.int k, .int k, by rw [bounds, heq]; rfl, repeats_int k k hk⟩
    · exact .inr ⟨fault, by rw [bounds, heq]; rfl⟩
  | between l n c m r =>
    have hn : Text.isDecimal n.text := h (n.token .number) (by simp [tokens])
    have hm : Text.isDecimal m.text := h (m.token .number) (by simp [tokens])
    rcases boundOf_number hn with ⟨k, hk, heq⟩ | ⟨fault, heq⟩
    · rcases boundOf_number hm with ⟨k', -, heq'⟩ | ⟨fault, heq'⟩
      · exact .inl ⟨.int k, .int k', by rw [bounds, heq, heq']; rfl, repeats_int k k' hk⟩
      · exact .inr ⟨fault, by rw [bounds, heq, heq']; rfl⟩
    · exact .inr ⟨fault, by rw [bounds, heq]; rfl⟩

section

variable {g : Grammar}

private theorem literalKind_result (value : Text) : ∃ k, (g.literalKind value).result = .ok k := by
  unfold literalKind
  split
  · exact ⟨_, rfl⟩
  · split
    · exact ⟨_, rfl⟩
    · exact ⟨_, rfl⟩

private theorem safe_literalMatcher (l : Leaf) : Safe (Shaped g) (g.literalMatcher l) := by
  unfold literalMatcher
  split
  · exact safe_refuse _
  · next value _ =>
    obtain ⟨k, hk⟩ := literalKind_result (g := g) value
    have hkind : Safe (fun k => g.GivesToken (some value) k) (g.literalKind value) := by
      unfold Safe
      rw [hk]
      exact hk
    exact hkind.andThen fun k hk => safe_value (.leaf hk named_none)

private theorem safe_symbolOf {l : Leaf} (hname : Text.isName l.value)
    (hupper : ¬l.value.isUpperCase) :
    Safe g.GivesSymbol (g.symbolOf l) := by
  unfold symbolOf
  split
  · exact safe_value (.inl rfl)
  · next hany =>
    split
    · next k hk =>
      refine safe_value (.inr ⟨l.value, k, hname, by simpa using hupper, ?_, ?_, hk, rfl⟩)
      · exact fun h => hany (.inl h)
      · exact fun h => hany (.inr h)
    · exact safe_refuse _

private theorem safe_nameMatcher {l : Leaf} (hname : Text.isName l.value) :
    Safe (Shaped g) (g.nameMatcher l) := by
  unfold nameMatcher
  split
  · unfold tokenMatcher
    split
    · exact safe_refuse _
    · next kind hk =>
      obtain ⟨l₁, l₂, heq, -⟩ := List.lookup_eq_some_iff.1 hk
      exact safe_value (.leaf ⟨l.value, heq ▸ by simp⟩ named_none)
  · next hupper =>
    exact (safe_symbolOf hname hupper).andThen fun s hs => safe_value (.bare hs named_none)

private theorem safe_detailedMatcher {l : Leaf} {content : Outcome Matcher}
    (hname : Text.isName l.value)
    (hc : Safe (Shaped g) content) : Safe (Shaped g) (g.detailedMatcher l content) := by
  unfold detailedMatcher
  split
  · split
    · exact safe_refuse _
    · exact safe_refuse _
  · next hupper =>
    exact (safe_symbolOf hname hupper).andThen fun s hs =>
      hc.andThen fun m hm => safe_value (.node hs named_none hm)

/-- A repeat of a shaped matcher may still be redundant. -/
theorem safe_repeatMatcher {m : Matcher} (hm : Shaped g m) {r : Repeater}
    (h : ∀ t ∈ r.tokens, t.Fits) : Safe (Unfinished g) (repeatMatcher m r.trees) := by
  rcases Repeater.bounds_cases h with ⟨min, max, heq, hb⟩ | ⟨fault, heq⟩
  · have hresult := result_repeatMatcher hm.settled (r.boundsOf_trees.trans heq) hb.valid
    unfold Safe
    rw [hresult]
    dsimp only
    split
    · exact .shaped hm
    · next hone => exact .repeated hb hone hm
  · rw [repeatMatcher, r.boundsOf_trees, heq]
    exact ⟨fault, rfl⟩

end

/-! ## Phrases -/

variable (g : Grammar)

theorem forall_mem_captureTokens {capture? : Option Capture}
    (h : ∀ t ∈ captureTokens capture?, t.Fits) : ∀ c ∈ capture?, Text.isName c.name.text := by
  intro c hc
  cases hc
  exact h (c.name.token .name) (by simp [captureTokens])

mutual

theorem Choice.safe_each : (c : Choice) → (∀ t ∈ c.tokens, t.Fits) →
    Safe (fun ms => ms ≠ [] ∧ ∀ m ∈ ms, Shaped g m) (c.each g)
  | .single s, h => by
    rw [Choice.tokens] at h
    rw [Choice.each]
    refine ((Sequence.safe_each s h).andThen fun ms hms =>
      .of_eq_value (exists_inSequence hms.1 hms.2)).andThen fun m hm => safe_value ?_
    simpa using hm
  | .either s bar c, h => by
    rw [Choice.tokens, List.forall_mem_append, List.forall_mem_cons] at h
    rw [Choice.each]
    refine ((Sequence.safe_each s h.1).andThen fun ms hms =>
      .of_eq_value (exists_inSequence hms.1 hms.2)).andThen fun m hm => ?_
    refine (Choice.safe_each c h.2.2).andThen fun ms hms => safe_value ?_
    simpa using ⟨hm, hms.2⟩

theorem Sequence.safe_each : (s : Sequence) → (∀ t ∈ s.tokens, t.Fits) →
    Safe (fun ms => ms ≠ [] ∧ ∀ m ∈ ms, Shaped g m) (s.each g)
  | .single i, h => by
    rw [Sequence.tokens] at h
    rw [Sequence.each]
    refine (Item.safe_matcher i h).andThen fun m hm => safe_value ?_
    simpa using hm
  | .followed i s, h => by
    rw [Sequence.tokens, List.forall_mem_append] at h
    rw [Sequence.each]
    apply (Item.safe_matcher i h.1).andThen
    intro m hm
    refine (Sequence.safe_each s h.2).andThen fun ms hms => safe_value ?_
    simpa using ⟨hm, hms.2⟩

theorem Item.safe_matcher : (i : Item) → (∀ t ∈ i.tokens, t.Fits) →
    Safe (Shaped g) (i.matcher g)
  | .negated bang o, h => by
    rw [Item.tokens, List.forall_mem_cons] at h
    rw [Item.matcher]
    apply (Operand.safe_matcher o h.2).andThen
    intro m hm
    apply (Safe.of_eq_value hm.exists_finish).andThen
    intro inner hinner
    exact .of_eq_value ⟨_, finish_of_settled (settled_negated _ _), .negated named_none hinner⟩
  | .plain capture? o, h => by
    rw [Item.tokens, List.forall_mem_append] at h
    rw [Item.matcher]
    apply (Operand.safe_matcher o h.2).andThen
    intro m hm
    exact .of_eq_value (hm.exists_captured (forall_mem_captureTokens h.1))
  | .repeated capture? b r, h => by
    rw [Item.tokens, List.forall_mem_append, List.forall_mem_append] at h
    rw [Item.matcher]
    apply (Basic.safe_matcher b h.2.1).andThen
    intro m hm
    apply (safe_repeatMatcher hm h.2.2).andThen
    intro m' hm'
    exact .of_eq_value (hm'.exists_captured (forall_mem_captureTokens h.1))

theorem Operand.safe_matcher : (o : Operand) → (∀ t ∈ o.tokens, t.Fits) →
    Safe (Unfinished g) (o.matcher g)
  | .optional l c r, h => by
    rw [Operand.tokens, List.forall_mem_cons, List.forall_mem_append] at h
    rw [Operand.matcher]
    refine ((Choice.safe_each c h.2.1).andThen fun ms hms =>
      .of_eq_value (exists_oneOf hms.1 hms.2)).andThen fun m hm => ?_
    rw [repeating_of_valid repeats_zero_one.valid]
    exact safe_value (.repeated repeats_zero_one (by decide) hm)
  | .basic b, h => by
    rw [Operand.tokens] at h
    rw [Operand.matcher]
    exact (Basic.safe_matcher b h).mono fun m hm => .shaped hm

theorem Basic.safe_matcher : (b : Basic) → (∀ t ∈ b.tokens, t.Fits) →
    Safe (Shaped g) (b.matcher g)
  | .literal w, _ => by
    rw [Basic.matcher]
    exact safe_literalMatcher _
  | .name w, h => by
    rw [Basic.matcher]
    exact safe_nameMatcher (h (w.token .name) (by simp [Basic.tokens]))
  | .detailed w l c r, h => by
    have hname : Text.isName w.text := h (w.token .name) (by simp [Basic.tokens])
    rw [Basic.tokens, List.forall_mem_cons, List.forall_mem_cons, List.forall_mem_append] at h
    rw [Basic.matcher]
    exact safe_detailedMatcher hname ((Choice.safe_each c h.2.2.1).andThen fun ms hms =>
      .of_eq_value (exists_oneOf hms.1 hms.2))
  | .group l c r, h => by
    rw [Basic.tokens, List.forall_mem_cons, List.forall_mem_append] at h
    rw [Basic.matcher]
    exact (Choice.safe_each c h.2.1).andThen fun ms hms =>
      .of_eq_value (exists_oneOf hms.1 hms.2)

end

/-- A phrase compiles to a shaped matcher, or it has a fault. -/
theorem Choice.safe_matcher (c : Choice) (h : ∀ t ∈ c.tokens, t.Fits) :
    Safe (Shaped g) (c.matcher g) := by
  rw [Choice.matcher]
  exact (c.safe_each g h).andThen fun ms hms => .of_eq_value (exists_oneOf hms.1 hms.2)

variable {g}

/-- A text compiles to its tree and a shaped matcher, or it has a fault. -/
theorem safe_matcherOfText (source : Text) :
    Safe (fun p => parse source = .ok p.1 ∧ Shaped g p.2) (matcherOfText g source) := by
  cases hparse : parse source with
  | error e =>
    rw [matcherOfText, hparse]
    exact safe_refuse e
  | ok tree =>
    obtain ⟨-, c, htokens, rfl⟩ := parse_eq_ok_iff_choice.1 hparse
    have hfits : ∀ t ∈ c.tokens, t.Fits := fun t ht => fits_of_mem_tokens (htokens ▸ ht)
    rw [matcherOfText_eq g hparse]
    exact (c.safe_matcher g hfits).andThen fun m hm => ⟨rfl, hm⟩

/-- A text that is not parsed has a fault. For one that is parsed, no check on elements fails, and
it compiles to a matcher or has a fault; no check on the shape of its tree or on bounds fails. -/
theorem matcherOfText_safe (g : Grammar) (source : Text) :
    (∃ fault, parse source = .error fault ∧
        (matcherOfText g source).result = .error (.pattern fault)) ∨
      ∃ (c : Choice) (tree : Tree), tokens source = c.tokens ∧ parse source = .ok tree ∧
        patternTree "matcher" c.root = .ok tree ∧
          ((∃ m, (matcherOfText g source).result = .ok (tree, m)) ∨
            ∃ fault, (matcherOfText g source).result = .error (.pattern fault)) := by
  cases hparse : parse source with
  | error fault =>
    refine .inl ⟨fault, rfl, ?_⟩
    rw [matcherOfText, hparse]
    rfl
  | ok tree =>
    obtain ⟨c, htokens, htree⟩ := patternTree_of_parse hparse
    refine .inr ⟨c, tree, htokens, rfl, htree, ?_⟩
    rcases (safe_matcherOfText (g := g) source).cases with ⟨⟨tree', m⟩, hresult, htree', -⟩ | hfault
    · obtain rfl : tree = tree' := Except.ok.inj (hparse.symm.trans htree')
      exact .inl ⟨m, hresult⟩
    · exact .inr hfault

end TreeMatcher
