import TreeMatcher.Proofs.Meaning.Sound
import TreeMatcher.Proofs.Compile.Safety
import TreeMatcher.Proofs.Pattern.Unambiguous

/-!
# The units of a pattern

Where a pattern compiles, every unit in it compiles. A unit with a repeater, if that is not for
exactly once, compiles to a wildcard: either one around what stands under the repeater, or, where
that is itself a wildcard that merges, one with the products as bounds.

* `Choice.items` and its companions — the units in a phrase, at any depth.
* `Item.Compiles` — a unit that compiles, of words that fit.

## Main results

* `Choice.compiles` — the units of a pattern that compiles.
* `Item.Compiles.exists_repeated` — what a unit with a repeater compiles to.
-/

namespace TreeMatcher

open Outcome Grammar Matcher

/-! ## Safe steps -/

namespace Outcome

variable {α : Type} {o : Outcome α}

theorem Safe.gives {P : α → Prop} (h : Safe P o) : Gives P o := by
  intro a ha
  unfold Safe at h
  rw [ha] at h
  exact h

end Outcome

/-! ## The units in a phrase -/

mutual

/-- The units in alternatives; what stands in a unit comes before it. -/
def Choice.items : Choice → List Item
  | .single s => s.items
  | .either s _ c => s.items ++ c.items

/-- The units in an alternative. -/
def Sequence.items : Sequence → List Item
  | .single i => i.items
  | .followed i s => i.items ++ s.items

/-- A unit and the units in it. -/
def Item.items : Item → List Item
  | .negated bang o => o.items ++ [.negated bang o]
  | .plain capture? o => o.items ++ [.plain capture? o]
  | .repeated capture? b r => b.items ++ [.repeated capture? b r]

/-- The units in an operand. -/
def Operand.items : Operand → List Item
  | .optional _ c _ => c.items
  | .basic b => b.items

/-- The units in a basic pattern. -/
def Basic.items : Basic → List Item
  | .literal _ => []
  | .name _ => []
  | .detailed _ _ c _ => c.items
  | .group _ c _ => c.items

end

/-! ## Units compile -/

section

variable (g : Grammar)

/-- A unit of words that fit compiles. -/
structure Item.Compiles (i : Item) : Prop where
  fits : ∀ t ∈ i.tokens, t.Fits
  compiles : ∃ m, (i.matcher g).result = .ok m

private theorem exists_content {l : Leaf} {content : Outcome Matcher} {m : Matcher}
    (h : (g.detailedMatcher l content).result = .ok m) : ∃ m', content.result = .ok m' := by
  unfold detailedMatcher at h
  split at h
  · split at h <;> cases h
  · obtain ⟨s, -, h⟩ := exists_of_andThen h
    obtain ⟨m', hm', -⟩ := exists_of_andThen h
    exact ⟨m', hm'⟩

/-! A step of the compiler gives a value only after the steps before it did, so one value at the end
gives one for every unit on the way. -/

mutual

private theorem Choice.compiles_each :
    (c : Choice) → (∀ t ∈ c.tokens, t.Fits) → ∀ {ms : List Matcher},
    (c.each g).result = .ok ms → ∀ i ∈ c.items, i.Compiles g
  | .single s, hfits, ms, h => by
    rw [Choice.tokens] at hfits
    rw [Choice.each] at h
    rw [Choice.items]
    obtain ⟨m, h, -⟩ := exists_of_andThen h
    obtain ⟨ms, h, -⟩ := exists_of_andThen h
    exact Sequence.compiles_each s hfits h
  | .either s bar c, hfits, ms, h => by
    rw [Choice.tokens, List.forall_mem_append, List.forall_mem_cons] at hfits
    rw [Choice.each] at h
    rw [Choice.items, List.forall_mem_append]
    obtain ⟨m, hs, h⟩ := exists_of_andThen h
    obtain ⟨ms, hs, -⟩ := exists_of_andThen hs
    obtain ⟨ms', hc, -⟩ := exists_of_andThen h
    exact ⟨Sequence.compiles_each s hfits.1 hs, Choice.compiles_each c hfits.2.2 hc⟩

private theorem Sequence.compiles_each : (s : Sequence) → (∀ t ∈ s.tokens, t.Fits) →
    ∀ {ms : List Matcher}, (s.each g).result = .ok ms → ∀ i ∈ s.items, i.Compiles g
  | .single i, hfits, ms, h => by
    rw [Sequence.tokens] at hfits
    rw [Sequence.each] at h
    rw [Sequence.items]
    obtain ⟨m, h, -⟩ := exists_of_andThen h
    exact Item.compiles_items i hfits h
  | .followed i s, hfits, ms, h => by
    rw [Sequence.tokens, List.forall_mem_append] at hfits
    rw [Sequence.each] at h
    rw [Sequence.items, List.forall_mem_append]
    obtain ⟨m, hi, h⟩ := exists_of_andThen h
    obtain ⟨ms, hs, -⟩ := exists_of_andThen h
    exact ⟨Item.compiles_items i hfits.1 hi, Sequence.compiles_each s hfits.2 hs⟩

private theorem Item.compiles_items : (i : Item) → (∀ t ∈ i.tokens, t.Fits) → ∀ {m : Matcher},
    (i.matcher g).result = .ok m → ∀ j ∈ i.items, j.Compiles g
  | .negated bang o, hfits, m, h => by
    have hself : (Item.negated bang o).Compiles g := ⟨hfits, m, h⟩
    rw [Item.tokens, List.forall_mem_cons] at hfits
    rw [Item.matcher] at h
    rw [Item.items, List.forall_mem_append, List.forall_mem_singleton]
    obtain ⟨m, ho, -⟩ := exists_of_andThen h
    exact ⟨Operand.compiles_items o hfits.2 ho, hself⟩
  | .plain capture? o, hfits, m, h => by
    have hself : (Item.plain capture? o).Compiles g := ⟨hfits, m, h⟩
    rw [Item.tokens, List.forall_mem_append] at hfits
    rw [Item.matcher] at h
    rw [Item.items, List.forall_mem_append, List.forall_mem_singleton]
    obtain ⟨m, ho, -⟩ := exists_of_andThen h
    exact ⟨Operand.compiles_items o hfits.2 ho, hself⟩
  | .repeated capture? b r, hfits, m, h => by
    have hself : (Item.repeated capture? b r).Compiles g := ⟨hfits, m, h⟩
    rw [Item.tokens, List.forall_mem_append, List.forall_mem_append] at hfits
    rw [Item.matcher] at h
    rw [Item.items, List.forall_mem_append, List.forall_mem_singleton]
    obtain ⟨m, hb, -⟩ := exists_of_andThen h
    exact ⟨Basic.compiles_items b hfits.2.1 hb, hself⟩

private theorem Operand.compiles_items : (o : Operand) → (∀ t ∈ o.tokens, t.Fits) → ∀ {m : Matcher},
    (o.matcher g).result = .ok m → ∀ i ∈ o.items, i.Compiles g
  | .optional l c r, hfits, m, h => by
    rw [Operand.tokens, List.forall_mem_cons, List.forall_mem_append] at hfits
    rw [Operand.matcher] at h
    rw [Operand.items]
    obtain ⟨m, hc, -⟩ := exists_of_andThen h
    obtain ⟨ms, hc, -⟩ := exists_of_andThen hc
    exact Choice.compiles_each c hfits.2.1 hc
  | .basic b, hfits, m, h => by
    rw [Operand.tokens] at hfits
    rw [Operand.matcher] at h
    rw [Operand.items]
    exact Basic.compiles_items b hfits h

private theorem Basic.compiles_items : (b : Basic) → (∀ t ∈ b.tokens, t.Fits) → ∀ {m : Matcher},
    (b.matcher g).result = .ok m → ∀ i ∈ b.items, i.Compiles g
  | .literal w, _, m, _ => by simp [Basic.items]
  | .name w, _, m, _ => by simp [Basic.items]
  | .detailed w l c r, hfits, m, h => by
    rw [Basic.tokens, List.forall_mem_cons, List.forall_mem_cons, List.forall_mem_append] at hfits
    rw [Basic.matcher] at h
    rw [Basic.items]
    obtain ⟨m, hc⟩ := exists_content g h
    obtain ⟨ms, hc, -⟩ := exists_of_andThen hc
    exact Choice.compiles_each c hfits.2.2.1 hc
  | .group l c r, hfits, m, h => by
    rw [Basic.tokens, List.forall_mem_cons, List.forall_mem_append] at hfits
    rw [Basic.matcher] at h
    rw [Basic.items]
    obtain ⟨ms, hc, -⟩ := exists_of_andThen h
    exact Choice.compiles_each c hfits.2.1 hc

end

end

variable {g : Grammar}

/-- The words of a pattern that is parsed fit. -/
theorem Choice.fits_of_parse {source : Text} {c : Choice} (h : parse source = .ok c.pattern) :
    ∀ t ∈ c.tokens, t.Fits := by
  obtain ⟨-, c', htokens, hpattern⟩ := parse_eq_ok_iff_choice.1 h
  obtain rfl := Choice.pattern_injective hpattern
  exact fun t ht => fits_of_mem_tokens (htokens ▸ ht)

/-- A text that compiles does so as the choice that it is parsed as. -/
theorem Choice.result_of_matcherOf {source : Text} {c : Choice} {m : Matcher}
    (hparse : parse source = .ok c.pattern) (hm : g.matcherOf source = .ok m) :
    (c.matcher g).result = .ok m := by
  rw [matcherOf, matcherOfText_eq g hparse, andThen] at hm
  cases hc : (c.matcher g).result with
  | error e =>
    rw [hc] at hm
    cases hm
  | ok m' =>
    rw [hc] at hm
    cases hm
    rfl

/-- Where a pattern compiles, every unit in it compiles. -/
theorem Choice.compiles {source : Text} {c : Choice} {m : Matcher}
    (hparse : parse source = .ok c.pattern) (hm : g.matcherOf source = .ok m) :
    ∀ i ∈ c.items, i.Compiles g := by
  have hresult := Choice.result_of_matcherOf hparse hm
  rw [Choice.matcher] at hresult
  obtain ⟨ms, hc, -⟩ := exists_of_andThen hresult
  exact c.compiles_each g (Choice.fits_of_parse hparse) hc

/-! ## Units with a repeater -/

/-- The name of an optional capture. -/
def captureName? (capture? : Option Capture) : Option Text := capture?.map fun c => c.name.text

theorem captured_around {m : Matcher} {min max : Number} (hm : Shaped g m)
    (hb : Repeats min max) (hone : ¬(min = 1 ∧ max = 1)) (capture? : Option Capture) :
    (wildcard [[m]] min max none).captured capture? =
      .value (m.around min max (captureName? capture?)) := by
  cases capture? with
  | none => exact finish_around hm hb hone
  | some c => exact finish_around hm hb hone

/-- What stands under a repeater compiles to a shaped matcher, and the repeater has bounds. Unless
they are one and one, the unit compiles to a wildcard with these bounds around it. -/
theorem Item.Compiles.exists_repeated {capture? : Option Capture} {b : Basic} {r : Repeater}
    (h : (Item.repeated capture? b r).Compiles g) :
    ∃ m min max, (b.matcher g).result = .ok m ∧ Shaped g m ∧ r.bounds = .ok (min, max) ∧
      Repeats min max ∧
        (¬(min = 1 ∧ max = 1) → ((Item.repeated capture? b r).matcher g).result =
          .ok (m.around min max (captureName? capture?))) ∧
        (min = 1 ∧ max = 1 → ((Item.repeated capture? b r).matcher g).result =
          (m.captured capture?).result) := by
  obtain ⟨hfits, m', hm'⟩ := h
  rw [Item.tokens, List.forall_mem_append, List.forall_mem_append] at hfits
  rw [Item.matcher] at hm' ⊢
  obtain ⟨m, hb, hm'⟩ := exists_of_andThen hm'
  obtain ⟨w, hw, -⟩ := exists_of_andThen hm'
  have hshaped : Shaped g m := (b.safe_matcher g hfits.2.1).gives m hb
  rcases Repeater.bounds_cases hfits.2.2 with ⟨min, max, hbounds, hrepeats⟩ | ⟨fault, hbounds⟩
  · have hresult := result_repeatMatcher hshaped.settled (r.boundsOf_trees.trans hbounds)
      hrepeats.valid
    refine ⟨m, min, max, hb, hshaped, hbounds, hrepeats, fun hone => ?_, fun hone => ?_⟩
    · rw [if_neg hone] at hresult
      rw [bind_eq_andThen, result_andThen_of_ok hb, bind_eq_andThen, result_andThen_of_ok hresult,
        captured_around hshaped hrepeats hone]
      rfl
    · rw [if_pos hone] at hresult
      rw [bind_eq_andThen, result_andThen_of_ok hb, bind_eq_andThen, result_andThen_of_ok hresult]
  · rw [repeatMatcher, r.boundsOf_trees, hbounds] at hw
    cases hw

end TreeMatcher
