import TreeMatcher.Grammar.Expression
import TreeMatcher.Proofs.Compile.Safety
import TreeMatcher.Proofs.Spelling.Units

/-!
# Which matchers come back

A compiled matcher is spelled, and the spelling is compiled again. There are three ways to fail: a
negation with a name has no spelling; a bound beyond the limit is written down but not taken by a
repeater; and a group under a repeater with a name comes back as a wildcard of its own, so the
matcher that comes back is another one. In all other cases the same matcher comes back.

## Main results

* `Within.exists_spell` — what stands in a matcher with a spelling has a spelling.
* `Writable.exists_spelling` — what the spelling of a writable matcher compiles to.
* `matcherOf_spelling` — what the spelling of a compiled matcher compiles to.
* `comes_back_iff` — a compiled matcher comes back unless it contains one of three shapes.
-/

namespace TreeMatcher

open Matcher Grammar

variable {g : Grammar} {source : Text} {m : Matcher}

/-! ## Parts of a matcher with a spelling -/

private theorem exists_spell_of_spellAll {ms : List Matcher} {ts : List Text}
    (h : g.spellAll ms = .ok ts) : ∀ m ∈ ms, ∃ t, g.spell m = .ok t := by
  induction ms generalizing ts with
  | nil => simp
  | cons m ms ih =>
    rw [spellAll_cons] at h
    obtain ⟨t, ts, hm, hms, -⟩ := bind_map_eq_ok.1 h
    exact List.forall_mem_cons.2 ⟨⟨t, hm⟩, ih hms⟩

private theorem exists_spell_of_spellSequence {ms : List Matcher} {t : Text}
    (h : g.spellSequence ms = .ok t) : ∀ m ∈ ms, ∃ t, g.spell m = .ok t := by
  cases ms with
  | nil => simp
  | cons m ms =>
    rw [spellSequence_eq_bind] at h
    obtain ⟨t, ts, hm, hms, -⟩ := bind_map_eq_ok.1 h
    exact List.forall_mem_cons.2 ⟨⟨t, hm⟩, exists_spell_of_spellAll hms⟩

private theorem exists_spellSequence_of_spellSequences {as : List (List Matcher)} {ts : List Text}
    (h : g.spellSequences as = .ok ts) : ∀ s ∈ as, ∃ t, g.spellSequence s = .ok t := by
  induction as generalizing ts with
  | nil => simp
  | cons s as ih =>
    rw [spellSequences_cons] at h
    obtain ⟨t, ts, hs, has, -⟩ := bind_map_eq_ok.1 h
    exact List.forall_mem_cons.2 ⟨⟨t, hs⟩, ih has⟩

theorem exists_spellSequence_of_spellChoice {as : List (List Matcher)} {t : Text}
    (h : g.spellChoice as = .ok t) : ∀ s ∈ as, ∃ t, g.spellSequence s = .ok t := by
  cases as with
  | nil => simp
  | cons s as =>
    rw [spellChoice_eq_bind] at h
    obtain ⟨t, ts, hs, has, -⟩ := bind_map_eq_ok.1 h
    exact List.forall_mem_cons.2 ⟨⟨t, hs⟩, exists_spellSequence_of_spellSequences has⟩

private theorem exists_spell_of_spellChoice {as : List (List Matcher)} {t : Text}
    (h : g.spellChoice as = .ok t) : ∀ s ∈ as, ∀ m ∈ s, ∃ t, g.spell m = .ok t := by
  intro s hs
  obtain ⟨u, hu⟩ := exists_spellSequence_of_spellChoice h s hs
  exact exists_spell_of_spellSequence hu

theorem eq_ok_of_map {α β ε : Type} {f : α → β} {r : Except ε α} {b : β} (h : r.map f = .ok b) :
    ∃ a, r = .ok a := by
  cases r with
  | error e => cases h
  | ok a => exact ⟨a, rfl⟩

/-- What stands in a matcher with a spelling has a spelling. -/
theorem Matcher.Within.exists_spell {x : Matcher} (hx : Within x m) (h : ∃ t, g.spell m = .ok t) :
    ∃ t, g.spell x = .ok t := by
  induction hx with
  | refl => exact h
  | @content symbol? content name? m hm _ ih =>
    obtain ⟨t, ht⟩ := h
    rw [spell] at ht
    obtain ⟨u, hu⟩ := eq_ok_of_map ht
    unfold spellNode at hu
    cases hcontent : g.spellSequence content with
    | ok v => exact ih (exists_spell_of_spellSequence hcontent m hm)
    | error e =>
      rw [hcontent] at hu
      split at hu <;> cases hu
  | @alternative as min max name? s m hs hm _ ih =>
    obtain ⟨t, ht⟩ := h
    rw [spell] at ht
    obtain ⟨u, hu⟩ := eq_ok_of_map ht
    unfold spellWildcard at hu
    cases has : g.spellChoice as with
    | ok v => exact ih (exists_spell_of_spellChoice has s hs m hm)
    | error e =>
      rw [has] at hu
      cases hu
  | @inner m name? _ ih =>
    obtain ⟨t, ht⟩ := h
    rw [spell] at ht
    unfold spellNegated at ht
    cases hm : g.spell m with
    | ok u => exact ih ⟨u, hm⟩
    | error e =>
      rw [hm] at ht
      cases name? <;> cases ht

/-- A matcher with a spelling contains no negation with a name. -/
theorem not_contains_of_spell {t : Text} (h : g.spell m = .ok t) : ¬Contains IsNamedNegation m := by
  intro ⟨x, hx, hnamed⟩
  obtain ⟨u, hu⟩ := hx.exists_spell ⟨t, h⟩
  cases x with
  | negated inner name? =>
    obtain ⟨n, rfl⟩ := Option.isSome_iff_exists.1 hnamed
    rw [spell] at hu
    cases hu
  | _ => exact hnamed

/-! ## What comes back -/

theorem shaped_of_matcherOf (h : g.matcherOf source = .ok m) : Shaped g m := by
  rcases (safe_matcherOfText (g := g) source).cases with ⟨p, hresult, -, hp⟩ | ⟨fault, hfault⟩
  · rw [matcherOf, hresult] at h
    cases h
    exact hp
  · rw [matcherOf, hfault] at h
    cases h

/-- A writable matcher has a spelling. With a bound beyond the limit that compiles to nothing, and
otherwise to the matcher rebuilt. -/
theorem Matcher.Writable.exists_spelling (h : Writable g m) :
    ∃ t, g.spell m = .ok t ∧
      ∀ m', g.matcherOf t = .ok m' ↔ ¬Contains IsBeyond m ∧ m' = m.rebuild := by
  obtain ⟨i, hi⟩ := h.spelled.item
  have hchoice := Writes.choice hi
  refine ⟨_, hchoice.spelling_eq, ?_⟩
  intro m'
  by_cases hbeyond : Contains IsBeyond m
  · apply iff_of_false _ fun hm' => hm'.1 hbeyond
    intro hm'
    have hlegible := fun t ht => (hchoice.legible t ht).mono fun _ => True.intro
    exact hchoice.refused hbeyond m' (Choice.result_of_matcherOf_text hlegible hm')
  · have hlegible := fun t ht => (hchoice.legible t ht).mono fun hb => hbeyond hb
    rw [Choice.matcherOf_text hlegible, hchoice.compiles hbeyond]
    constructor
    · rintro ⟨⟩
      exact ⟨hbeyond, rfl⟩
    · rintro ⟨-, rfl⟩
      rfl

/-- A shaped matcher without named negations has a spelling. With a bound beyond the limit that
compiles to nothing, and otherwise to the matcher regrouped. -/
theorem Matcher.Shaped.exists_spelling (h : Shaped g m) (hneg : ¬Contains IsNamedNegation m) :
    ∃ t, g.spell m = .ok t ∧
      ∀ m', g.matcherOf t = .ok m' ↔ ¬Contains IsBeyond m ∧ m' = m.regroup := by
  obtain ⟨t, ht, hmatcher⟩ := (h.writable hneg).exists_spelling
  refine ⟨t, ht, fun m' => (hmatcher m').trans ?_⟩
  exact and_congr_right fun hb => by rw [h.rebuild_eq_regroup hb]

/-- What becomes of a compiled matcher that is spelled and compiled again. It has a spelling unless
it contains a negation with a name; the spelling compiles unless a bound is beyond the limit; and
then groups under a repeater with a name are wildcards of their own, so that the matcher is another
one where it contains such a group. -/
theorem matcherOf_spelling (h : g.matcherOf source = .ok m) :
    ((∃ t, g.spell m = .ok t) ↔ ¬Contains IsNamedNegation m) ∧
      ∀ t, g.spell m = .ok t →
        ((∃ m', g.matcherOf t = .ok m') ↔ ¬Contains IsBeyond m) ∧
          ∀ m', g.matcherOf t = .ok m' →
            m' = m.regroup ∧ (m' = m ↔ ¬Contains IsNamedGroup m) := by
  have hshaped := shaped_of_matcherOf h
  constructor
  · constructor
    · intro ⟨t, ht⟩
      exact not_contains_of_spell ht
    · intro hneg
      obtain ⟨t, ht, -⟩ := hshaped.exists_spelling hneg
      exact ⟨t, ht⟩
  · intro t ht
    obtain ⟨t', ht', hmatcher⟩ := hshaped.exists_spelling (not_contains_of_spell ht)
    obtain rfl : t = t' := Except.ok.inj (ht.symm.trans ht')
    constructor
    · constructor
      · intro ⟨m', hm'⟩
        exact ((hmatcher m').1 hm').1
      · intro hb
        exact ⟨m.regroup, (hmatcher _).2 ⟨hb, rfl⟩⟩
    · intro m' hm'
      obtain rfl := ((hmatcher m').1 hm').2
      exact ⟨rfl, regroup_eq_self_iff m⟩

/-- A name that stands both outside and inside of a group under a repeater does not come back. -/
theorem matcherOf_spelling_group :
    ∃ m, expression.matcherOf "n=(n=(NAME | STRING))*" = .ok m ∧
      (∃ t, expression.spell m = .ok t) ∧
      ∀ t, expression.spell m = .ok t → expression.matcherOf t ≠ .ok m := by
  have hm : expression.matcherOf "n=(n=(NAME | STRING))*" =
      .ok (wildcard [[leaf (some (.int 1)) none none], [leaf (some (.int 3)) none none]]
        0 .infinity (some "n")) :=
    eq_ok_of_toOption (by decide +kernel)
  obtain ⟨hspelled, hback⟩ := matcherOf_spelling hm
  refine ⟨_, hm, hspelled.2 ?_, fun t ht hsame => ?_⟩
  · simp [contains_wildcard, contains_leaf, IsNamedNegation]
  · have hgroup := (((hback t ht).2 _ hsame).2).1 rfl
    refine hgroup (contains_wildcard.2 (.inl ⟨rfl, by simp, by simp⟩))

/-- A compiled matcher comes back from its spelling unless it contains a negation with a name, a
group under a repeater with a name, or a bound beyond the limit. -/
theorem comes_back_iff (h : g.matcherOf source = .ok m) :
    (∃ t, g.spell m = .ok t ∧ g.matcherOf t = .ok m) ↔
      ¬Contains IsNamedNegation m ∧ ¬Contains IsNamedGroup m ∧ ¬Contains IsBeyond m := by
  have hshaped := shaped_of_matcherOf h
  constructor
  · intro ⟨t, ht, hback⟩
    have hneg := not_contains_of_spell ht
    obtain ⟨t', ht', hmatcher⟩ := hshaped.exists_spelling hneg
    obtain rfl : t = t' := Except.ok.inj (ht.symm.trans ht')
    obtain ⟨hbeyond, hregroup⟩ := (hmatcher m).1 hback
    exact ⟨hneg, (regroup_eq_self_iff m).1 hregroup.symm, hbeyond⟩
  · intro ⟨hneg, hgroup, hbeyond⟩
    obtain ⟨t, ht, hmatcher⟩ := hshaped.exists_spelling hneg
    exact ⟨t, ht, (hmatcher m).2 ⟨hbeyond, ((regroup_eq_self_iff m).2 hgroup).symm⟩⟩

/-- Under one name only, a repeated group comes back. -/
theorem comes_back_group :
    ∃ m, expression.matcherOf "n=(NAME | STRING)*" = .ok m ∧
      ∃ t, expression.spell m = .ok t ∧ expression.matcherOf t = .ok m := by
  have hm : expression.matcherOf "n=(NAME | STRING)*" =
      .ok (wildcard [[wildcard [[leaf (some (.int 1)) none none], [leaf (some (.int 3)) none none]]
        1 1 none]] 0 .infinity (some "n")) :=
    eq_ok_of_toOption (by decide +kernel)
  refine ⟨_, hm, (comes_back_iff hm).2 ⟨?_, ?_, ?_⟩⟩
  · simp [contains_wildcard, contains_leaf, IsNamedNegation]
  · simp [contains_wildcard, contains_leaf, IsNamedGroup]
  · have hleaf : ∀ t v n, ¬IsBeyond (leaf t v n) := fun _ _ _ h => h
    have hstar : ∀ as n, ¬IsBeyond (wildcard as 0 .infinity n) := fun as n =>
      mt (@isBeyond_iff as 0 none n).1 (by simp)
    have hone : ∀ as n, ¬IsBeyond (wildcard as 1 1 n) := fun as n =>
      mt (@isBeyond_iff as 1 (some 1) n).1 (by simp [boundLimit])
    simp [contains_wildcard, contains_leaf, hleaf, hstar, hone]

end TreeMatcher
