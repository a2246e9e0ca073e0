import TreeMatcher.Proofs.Matcher.Built
import TreeMatcher.Proofs.Meaning.Captured
import TreeMatcher.Proofs.Spelling.RoundTrip

/-!
# Spelling matchers built by hand

A matcher that is built by hand is spelled, and the spelling is compiled. Some matchers have no
spelling. Of the others, some are garbled: a leaf with a text is spelled as a literal whatever its
token kind is, names and symbols are put down as they are, bounds may be too large to be read
again, and what the compiler does to wildcards around each other it also does to wildcards that were
built like that. All other matchers come back as matchers that match and capture the same, though
not always in the same shape.

* `Distorts m min max name?` — a wildcard around `m` loses a name or counts something else.
* `Garbled g m` — the matcher itself, whatever is in it, is not spelled as what it is.

## Main results

* `writable_of_spell` — a matcher with a spelling in which nothing is garbled is writable.
* `Writable.matching_rebuild`, `Writable.carries_rebuild` — what it is rebuilt as matches and
  captures the same.
* `spelling_faithful` — a matcher built by hand has no spelling, or a faithful one, unless something
  in it is garbled.
-/

namespace TreeMatcher

universe u

open Grammar

namespace Matcher

/-! ## What is not spelled as what it is -/

/-- A wildcard whose body compiles to `m` is not what it is built as: a name takes the place of
another one, or wildcards merge whose bounds do not compose. -/
inductive Distorts (m : Matcher) : Number → Number → Option Text → Prop where
  /-- A group under a name whose body has another name. -/
  | replaced {n k : Text} (hm : m.name? = some k) (hne : k ≠ n) : Distorts m 1 1 (some n)
  /-- A group under a name that makes its body merge with what that is around. -/
  | titled {n : Text} {x : Matcher} {min max : Number} {name? : Option Text}
      (hm : m = wildcard [[x]] min max name?) (hx : Miscounts min max (some n) x) :
      Distorts m 1 1 (some n)
  /-- A repeat that merges with its body. -/
  | merged {min max : Number} {name? : Option Text} (hone : ¬(min = 1 ∧ max = 1))
      (hm : Miscounts min max name? m) : Distorts m min max name?

/-- The name of a symbol that stands for the symbol. -/
def SpellsSymbol (s : Text) : Prop :=
  s.isName ∧ s.isUpperCase = false ∧ s ≠ anySymbol ∧ s.head? ≠ some CodeUnit.underscore

/-- A matcher that is not spelled as what it is. -/
inductive Garbled (g : Grammar) : Matcher → Prop where
  /-- A capture name that is no name. -/
  | name {m : Matcher} (h : ¬Named m.name?) : Garbled g m
  /-- A leaf with a text, of another kind than the literal. -/
  | kind {token? : Option Number} {v : Text} {name? : Option Text}
      (h : (g.literalKind v).result ≠ .ok token?) : Garbled g (leaf token? (some v) name?)
  /-- A symbol whose name stands for something else, or for nothing. -/
  | symbol {k : Number} {s : Text} {content? : Option (List Matcher)} {name? : Option Text}
      (hk : g.symbolName? k = some s) (hs : ¬SpellsSymbol s) :
      Garbled g (node (some k) content? name?)
  /-- A bound that no repeater takes. -/
  | bound {m : Matcher} (h : IsBeyond m) : Garbled g m
  /-- A wildcard that does not fit around its body. -/
  | body {as : List (List Matcher)} {min max : Number} {name? : Option Text}
      (h : Distorts (bodyOf as) min max name?) : Garbled g (wildcard as min max name?)

variable {g : Grammar} {m : Matcher}

private theorem not_contains_isBeyond (h : ¬Contains (Garbled g) m) : ¬Contains IsBeyond m :=
  fun ⟨x, hx, hb⟩ => h ⟨x, hx, .bound hb⟩

/-! ## What has a spelling is writable -/

private theorem givesToken_of_spellLeaf {token? : Option Number} {t : Text}
    (h : g.spellLeaf token? none = .ok t) : g.GivesToken none token? := by
  unfold spellLeaf at h
  cases token? with
  | none => exact ⟨"TOKEN", by simp [tokenNames]⟩
  | some k =>
    dsimp only at h
    split at h
    · next hk => exact ⟨"NAME", by simp [tokenNames, hk]⟩
    · split at h
      · next hk => exact ⟨"STRING", by simp [tokenNames, hk]⟩
      · split at h
        · next hk => exact ⟨"NUMBER", by simp [tokenNames, hk]⟩
        · cases h

private theorem givesSymbol_of_spellSymbol (hg : g.symbols.Nodup) {symbol? : Option Number}
    {t : Text} (h : g.spellSymbol symbol? = .ok t)
    (hspells : ∀ k ∈ symbol?, ∀ s, g.symbolName? k = some s → SpellsSymbol s) :
    g.GivesSymbol symbol? := by
  unfold spellSymbol at h
  cases symbol? with
  | none => exact .inl rfl
  | some k =>
    dsimp only at h
    split at h
    · next s hs =>
      obtain ⟨hname, hupper, hany, hunderscore⟩ := hspells k rfl s hs
      obtain ⟨i, rfl, hi⟩ := symbolKind?_of_symbolName? hg hs
      exact .inr ⟨s, i, hname, hupper, hany, hunderscore, hi, rfl⟩
    · cases h

private theorem exists_of_spellNode {symbol? : Option Number}
    {content? : Option (Except SpellingError Text)} {t : Text}
    (h : g.spellNode symbol? content? = .ok t) :
    (∃ head, g.spellSymbol symbol? = .ok head) ∧ ∀ c ∈ content?, ∃ u, c = .ok u := by
  unfold spellNode at h
  split at h
  · cases h
  · next head hhead =>
    refine ⟨⟨head, hhead⟩, ?_⟩
    split at h
    · simp
    · next u => simp
    · cases h

/-- A node with a spelling has a symbol that its name stands for, or none. -/
private theorem givesSymbol_of_spellNode (hg : g.symbols.Nodup) {symbol? : Option Number}
    {spelled? : Option (Except SpellingError Text)} {content? : Option (List Matcher)}
    {name? : Option Text} {t : Text} (h : g.spellNode symbol? spelled? = .ok t)
    (hgarbled : ¬Garbled g (node symbol? content? name?)) : g.GivesSymbol symbol? := by
  obtain ⟨⟨head, hhead⟩, -⟩ := exists_of_spellNode h
  refine givesSymbol_of_spellSymbol hg hhead ?_
  rintro k rfl s hs
  by_contra hnot
  exact hgarbled (.symbol hs hnot)

/-- A wildcard with a spelling has alternatives with spellings, and without an upper bound it begins
at zero or one. -/
private theorem exists_of_spellWildcard {body : Except SpellingError Text} {single : Bool}
    {min max : Number} {t : Text} (h : spellWildcard body single min max = .ok t) :
    (∃ u, body = .ok u) ∧ (max = .infinity → min = 0 ∨ min = 1) := by
  unfold spellWildcard at h
  split at h
  · cases h
  · next u =>
    refine ⟨⟨u, rfl⟩, ?_⟩
    rintro rfl
    rw [if_neg (fun hc => by cases hc.2)] at h
    by_contra hnot
    rw [not_or] at hnot
    rw [repeaterText, if_neg (fun hc => hnot.2 hc.1), if_pos rfl, if_neg hnot.1,
      if_neg hnot.2] at h
    cases h

private theorem ne_nil_of_spellSequence {ms : List Matcher} (h : ∃ t, g.spellSequence ms = .ok t) :
    ms ≠ [] := by
  rintro rfl
  obtain ⟨t, ht⟩ := h
  rw [spellSequence_nil] at ht
  cases ht

private theorem ne_nil_of_spellChoice {as : List (List Matcher)}
    (h : ∃ t, g.spellChoice as = .ok t) :
    as ≠ [] ∧ ∀ s ∈ as, s ≠ [] := by
  obtain ⟨t, ht⟩ := h
  refine ⟨?_, fun s hs =>
    ne_nil_of_spellSequence (exists_spellSequence_of_spellChoice ht s hs)⟩
  rintro rfl
  rw [spellChoice] at ht
  cases ht

/-- Valid bounds are a number and an upper bound. -/
private theorem exists_of_valid {min max : Number} (h : ValidBounds min max) :
    ∃ (a : Nat) (b? : Option Nat), min = .int a ∧ max = upperBound b? := by
  obtain ⟨hmin, hmax⟩ := h
  obtain ⟨a, rfl⟩ := Number.isNat_iff.1 hmin
  rcases hmax with rfl | hmax
  · exact ⟨a, none, rfl, rfl⟩
  · obtain ⟨b, rfl⟩ := Number.isNat_iff.1 hmax
    exact ⟨a, some b, rfl, rfl⟩

/-- A matcher with a spelling is writable if it is not garbled itself and its parts are writable. -/
private theorem writable_of_parts (hg : g.symbols.Nodup) (hspell : ∃ t, g.spell m = .ok t)
    (hvalid : ¬IsInvalid m) (hgarbled : ¬Garbled g m) (hparts : ∀ x ∈ m.parts, Writable g x) :
    Writable g m := by
  obtain ⟨t, ht⟩ := hspell
  have hname : Named m.name? := by
    by_contra h
    exact hgarbled (.name h)
  match m with
  | leaf token? (some v) name? =>
    refine .leaf ?_ hname
    by_contra h
    exact hgarbled (.kind h)
  | leaf token? none name? =>
    rw [spell] at ht
    obtain ⟨u, hu⟩ := eq_ok_of_map ht
    exact .leaf (givesToken_of_spellLeaf hu) hname
  | node symbol? none name? =>
    rw [spell] at ht
    obtain ⟨u, hu⟩ := eq_ok_of_map ht
    exact .bare (givesSymbol_of_spellNode hg hu hgarbled) hname
  | node symbol? (some content) name? =>
    rw [spell] at ht
    obtain ⟨u, hu⟩ := eq_ok_of_map ht
    obtain ⟨-, hcontent⟩ := exists_of_spellNode hu
    exact .node (givesSymbol_of_spellNode hg hu hgarbled) hname
      (ne_nil_of_spellSequence (hcontent _ rfl)) hparts
  | wildcard as min max name? =>
    rw [spell] at ht
    obtain ⟨u, hu⟩ := eq_ok_of_map ht
    obtain ⟨hchoice, hinf⟩ := exists_of_spellWildcard hu
    obtain ⟨hne, hnes⟩ := ne_nil_of_spellChoice hchoice
    obtain ⟨a, b?, rfl, rfl⟩ := exists_of_valid (not_not.1 hvalid)
    refine .wildcard hname ?_ hne hnes fun s hs m hm =>
      hparts m (List.mem_flatten.2 ⟨s, hs, hm⟩)
    rintro rfl
    rcases hinf rfl with ha | ha
    · exact Nat.le_trans (Nat.le_of_eq (int_eq_iff.1 ha)) (Nat.zero_le 1)
    · exact Nat.le_of_eq (int_eq_iff.1 ha)
  | negated inner none => exact .negated (hparts inner (List.mem_singleton_self inner))
  | negated inner (some n) =>
    rw [spell] at ht
    cases ht

/-- A matcher with a spelling in which nothing is garbled is writable. -/
theorem writable_of_spell (hg : g.symbols.Nodup) (m : Matcher) :
    (∃ t, g.spell m = .ok t) → ¬Contains IsInvalid m → ¬Contains (Garbled g) m →
      Writable g m := by
  induction m using parts_induction with
  | step m ih =>
    intro hspell hvalid hgarbled
    rw [contains_iff, not_or] at hvalid hgarbled
    refine writable_of_parts hg hspell hvalid.1 hgarbled.1 fun x hx => ih x hx ?_ ?_ ?_
    · exact (within_of_mem_parts hx).exists_spell hspell
    · exact fun h => hvalid.2 ⟨x, hx, h⟩
    · exact fun h => hgarbled.2 ⟨x, hx, h⟩

/-! ## What is rebuilt matches and captures the same -/

variable {P : Type u} (F : Forest P)

private theorem matching_sequenceOf (ms : List Matcher) :
    matching F (sequenceOf ms) = matchingInRow F ms := by
  match ms with
  | [m] => exact (matchingInRow_single m).symm
  | [] => exact (matching_once [[]] none).trans (matchingOfAny_single [])
  | m :: m' :: ms => exact (matching_once [m :: m' :: ms] none).trans (matchingOfAny_single _)

private theorem matching_choiceOf (ms : List Matcher) :
    matching F (choiceOf ms) = matchingOfAny F (ms.map fun m => [m]) := by
  match ms with
  | [m] => exact ((matchingOfAny_single [m]).trans (matchingInRow_single m)).symm
  | [] => exact matching_once _ none
  | m :: m' :: ms => exact matching_once _ none

variable {F}

private theorem matchingInRow_rebuild {ms : List Matcher}
    (h : ∀ m ∈ ms, matching F m.rebuild = matching F m) :
    matchingInRow F (ms.map rebuild) = matchingInRow F ms := by
  induction ms with
  | nil => rfl
  | cons m ms ih =>
    rw [List.forall_mem_cons] at h
    rw [List.map_cons, matchingInRow, matchingInRow, h.1, ih h.2]

private theorem matching_bodyOf {as : List (List Matcher)}
    (h : ∀ s ∈ as, ∀ m ∈ s, matching F m.rebuild = matching F m) :
    matching F (bodyOf as) = matchingOfAny F as := by
  rw [bodyOf, matching_choiceOf, List.map_map]
  induction as with
  | nil => rfl
  | cons s as ih =>
    rw [List.forall_mem_cons] at h
    rw [List.map_cons, matchingOfAny, matchingOfAny, ih h.2, Function.comp_apply,
      matchingInRow_single, matching_sequenceOf, matchingInRow_rebuild h.1]

/-- A wildcard that fits around its body matches and captures what repeating it does. -/
private theorem matching_wrapped {min max : Number} {name? : Option Text} (hm : Shaped g m)
    (hb : ValidBounds min max) (hfits : ¬Distorts m min max name?) :
    matching F (m.wrapped min max name?) =
      capturing name? (repeated (Counts min max) (matching F m)) := by
  by_cases hone : min = 1 ∧ max = 1
  · obtain ⟨rfl, rfl⟩ := hone
    rw [repeated_once fun k => counts_one]
    cases name? with
    | none => rfl
    | some n =>
      refine matching_titled hm (fun k hk => ?_) fun x min max name? hx hcount => ?_
      · by_contra hne
        exact hfits (.replaced hk hne)
      · exact hfits (.titled hx hcount)
  · rw [wrapped_of_ne hone, matching_around hm hb fun hcount => hfits (.merged hone hcount),
      matching_repeat]

/-- What a writable matcher is rebuilt as matches and captures the same. -/
theorem Writable.matching_rebuild (h : Writable g m) (hgarbled : ¬Contains (Garbled g) m) :
    matching F m.rebuild = matching F m := by
  induction h with
  | leaf ht hn => rfl
  | bare hs hn => rfl
  | @node symbol? content name? hs hn hne hc ih =>
    rw [contains_node, not_or] at hgarbled
    have hcontent := matchingInRow_rebuild fun m hm => ih m hm fun h => hgarbled.2 ⟨m, hm, h⟩
    rw [rebuild_node, matching, matching, matchingInRow_single, matching_sequenceOf, hcontent]
  | negated hi ih =>
    rw [contains_negated, not_or] at hgarbled
    rw [rebuild, matching, matching, ih hgarbled.2]
  | @wildcard as a b? name? hn hinf hne hnes has ih =>
    rw [contains_wildcard, not_or] at hgarbled
    have hbody := matching_bodyOf fun s hs m hm => ih s hs m hm fun h =>
      hgarbled.2 ⟨s, hs, m, hm, h⟩
    have hshaped : Shaped g (bodyOf as) := .bodyOf hne hnes fun s hs m hm =>
      (has s hs m hm).shaped_rebuild (not_contains_isBeyond fun h => hgarbled.2 ⟨s, hs, m, hm, h⟩)
    rw [rebuild_wildcard, matching, ← hbody]
    exact matching_wrapped hshaped (valid_upperBound a b?) fun h => hgarbled.1 (.body h)

/-! ## What is rebuilt carries the same names -/

variable {n : Text}

private theorem carries_sequenceOf {ms : List Matcher} :
    Carries n (sequenceOf ms) ↔ ∃ m ∈ ms, Carries n m := by
  match ms with
  | [m] => simp [sequenceOf]
  | [] => simp [sequenceOf, carries_wildcard]
  | m :: m' :: ms => simp [sequenceOf, carries_wildcard]

private theorem carries_choiceOf {ms : List Matcher} :
    Carries n (choiceOf ms) ↔ ∃ m ∈ ms, Carries n m := by
  match ms with
  | [m] => simp [choiceOf]
  | [] => simp [choiceOf, carries_wildcard]
  | m :: m' :: ms => simp [choiceOf, carries_wildcard]

private theorem carries_bodyOf {as : List (List Matcher)} :
    Carries n (bodyOf as) ↔ ∃ s ∈ as, ∃ m ∈ s, Carries n m.rebuild := by
  simp [bodyOf, carries_choiceOf, carries_sequenceOf]

/-- Around a shaped matcher a wildcard adds its name, unless that takes the place of another one. -/
private theorem carries_wrapped {min max : Number} {name? : Option Text} (hm : Shaped g m)
    (hb : Repeats min max) (hfits : ¬Distorts m min max name?) :
    Carries n (m.wrapped min max name?) ↔ name? = some n ∨ Carries n m := by
  by_cases hone : min = 1 ∧ max = 1
  · obtain ⟨rfl, rfl⟩ := hone
    cases name? with
    | none => exact ⟨.inr, fun h => h.resolve_left (by simp)⟩
    | some k =>
      have hsame := sameNames_finish (congrArg Outcome.result (hm.finish_withName k))
      have hname : m.name? = some n → some k = some n := by
        intro hn
        by_contra hne
        exact hfits (.replaced hn fun h => hne (by rw [h]))
      rw [show m.wrapped 1 1 (some k) = m.titled k from rfl, hsame.carries_iff, carries_iff,
        name?_withName, carriesInside_withName, carries_iff]
      exact ⟨fun h => h.imp_right .inr, fun h => h.elim .inl fun h => h.imp_left hname⟩
  · have hfinish : (wildcard [[m]] min max name?).finish = .value (m.around min max name?) :=
      finish_around hm hb hone
    have hsame := sameNames_finish (congrArg Outcome.result hfinish)
    rw [wrapped_of_ne hone, hsame.carries_iff, carries_iff, carriesInside_single]
    rfl

/-- What a writable matcher is rebuilt as carries the same names. -/
theorem Writable.carries_rebuild (h : Writable g m) (hgarbled : ¬Contains (Garbled g) m) :
    Carries n m.rebuild ↔ Carries n m := by
  induction h with
  | leaf ht hn => rfl
  | bare hs hn => rfl
  | @node symbol? content name? hs hn hne hc ih =>
    rw [contains_node, not_or] at hgarbled
    have hcontent : (∃ m ∈ content, Carries n m.rebuild) ↔ ∃ m ∈ content, Carries n m :=
      exists_congr fun m => and_congr_right fun hm => ih m hm fun h => hgarbled.2 ⟨m, hm, h⟩
    rw [rebuild_node, carries_node, carries_node]
    simpa [carries_sequenceOf] using or_congr_right hcontent
  | negated hi ih =>
    rw [contains_negated, not_or] at hgarbled
    rw [rebuild, carries_negated, carries_negated, ih hgarbled.2]
  | @wildcard as a b? name? hn hinf hne hnes has ih =>
    rw [contains_wildcard, not_or] at hgarbled
    have hbody : Carries n (bodyOf as) ↔ ∃ s ∈ as, ∃ m ∈ s, Carries n m :=
      carries_bodyOf.trans <| exists_congr fun s => and_congr_right fun hs =>
        exists_congr fun m => and_congr_right fun hm => ih s hs m hm fun h =>
          hgarbled.2 ⟨s, hs, m, hm, h⟩
    have hshaped : Shaped g (bodyOf as) := .bodyOf hne hnes fun s hs m hm =>
      (has s hs m hm).shaped_rebuild (not_contains_isBeyond fun h => hgarbled.2 ⟨s, hs, m, hm, h⟩)
    have hlimit : a ≤ boundLimit := by
      by_contra h
      exact hgarbled.1 (.bound (isBeyond_iff.2 (.inl (Nat.lt_of_not_le h))))
    rw [rebuild_wildcard, carries_wildcard,
      carries_wrapped hshaped (repeats_upperBound hinf hlimit) fun h => hgarbled.1 (.body h)]
    exact or_congr_right hbody

end Matcher

/-! ## Formatting what is built by hand -/

open Matcher

/-- A leaf with a text comes back with the kind of the literal, whatever kind it has. -/
theorem exists_spelling_leaf {g : Grammar} {v : Text} {kind? : Option Number}
    (hk : (g.literalKind v).result = .ok kind?) {name? : Option Text} (hn : Named name?)
    (token? : Option Number) :
    ∃ t, g.spell (leaf token? (some v) name?) = .ok t ∧
      g.matcherOf t = .ok (leaf kind? (some v) name?) := by
  have hwritable : Writable g (leaf kind? (some v) name?) := .leaf hk hn
  obtain ⟨t, ht, hback⟩ := hwritable.exists_spelling
  have hbeyond : ¬Contains IsBeyond (leaf kind? (some v) name?) := by
    rw [contains_leaf]
    exact fun h => h
  have hspell : g.spell (leaf token? (some v) name?) = g.spell (leaf kind? (some v) name?) := by
    rw [spell, spell]
    rfl
  exact ⟨t, hspell.trans ht, (hback _).2 ⟨hbeyond, rfl⟩⟩

/-- A matcher that is built by hand has no spelling, or one that compiles to a matcher with the same
names that matches and captures the same, unless something in it is garbled. -/
theorem spelling_faithful {d : Definition} {g : Grammar} {m : Matcher} (hg : define d = .ok g)
    (hm : Built m) (hgarbled : ¬Contains (Garbled g) m) :
    (∃ e, g.spell m = .error e) ∨
      ∃ t m', g.spell m = .ok t ∧ g.matcherOf t = .ok m' ∧
        (∀ n, Carries n m' ↔ Carries n m) ∧
        ∀ (P : Type u) (F : Forest P), matching F m' = matching F m := by
  cases hspell : g.spell m with
  | error e => exact .inl ⟨e, rfl⟩
  | ok t =>
    have hwritable := writable_of_spell (nodup_symbols hg) m ⟨t, hspell⟩ hm.valid hgarbled
    obtain ⟨t', ht', hback⟩ := hwritable.exists_spelling
    obtain rfl : t = t' := Except.ok.inj (hspell.symm.trans ht')
    exact .inr ⟨t, m.rebuild, rfl, (hback _).2 ⟨not_contains_isBeyond hgarbled, rfl⟩,
      fun n => hwritable.carries_rebuild hgarbled,
      fun P F => hwritable.matching_rebuild hgarbled⟩

/-- A node with two matchers in its content, one of them a needless group. -/
def handBuilt : Matcher :=
  node none (some [wildcard [[leaf (some (.int 1)) none (some "x")]] 1 1 none,
    leaf (some (.int 1)) (some "foo") none]) (some "n")

/-- It comes back in another shape, with the same meaning and the same names. -/
theorem spelling_faithful_handBuilt :
    Built handBuilt ∧ ¬Contains (Garbled expression) handBuilt ∧
      expression.spell handBuilt = .ok "n=any<(x=NAME) 'foo'>" ∧
      ∃ m', expression.matcherOf "n=any<(x=NAME) 'foo'>" = .ok m' ∧ m' ≠ handBuilt ∧
        (∀ n, Carries n m' ↔ Carries n handBuilt) ∧
        ∀ (P : Type) (F : Forest P), matching F m' = matching F handBuilt := by
  have hbuilt : Built handBuilt := by
    refine Built.withName (.node none ?_) "n"
    have hleaf : Built (leaf (some (.int 1)) none (some "x")) :=
      (Built.leaf (some (.int 1)) none).withName "x"
    have hgroup : Built (wildcard [[leaf (some (.int 1)) none (some "x")]] 1 1 none) :=
      .wildcard (by simpa using hleaf) (wildcard?_eq_ok_iff.2 repeats_one_one.valid)
    simpa using ⟨hgroup, Built.leaf (some (.int 1)) (some "foo")⟩
  have hgarbled : ¬Contains (Garbled expression) handBuilt := by
    have hname : ¬Garbled expression (leaf (some (.int 1)) none (some "x")) := by
      rintro (h | - | - | h)
      · exact h (named_some (by decide))
      · exact h
    have hliteral : ¬Garbled expression (leaf (some (.int 1)) (some "foo") none) := by
      rintro (h | h | - | h)
      · exact h named_none
      · exact h (by decide +kernel)
      · exact h
    have hgroup : ¬Garbled expression
        (wildcard [[leaf (some (.int 1)) none (some "x")]] 1 1 none) := by
      rintro (h | - | - | h | h)
      · exact h named_none
      · exact absurd ((@isBeyond_iff _ 1 (some 1) none).1 h) (by simp [boundLimit])
      · obtain - | - | ⟨hone, -⟩ := h
        exact hone ⟨rfl, rfl⟩
    have hnode : ¬Garbled expression handBuilt := by
      rintro (h | - | - | h)
      · exact h (named_some (by decide))
      · exact h
    rw [handBuilt] at hnode ⊢
    simp [contains_node, contains_wildcard, contains_leaf, hname, hliteral, hgroup, hnode]
  have hspell : expression.spell handBuilt = .ok "n=any<(x=NAME) 'foo'>" :=
    eq_ok_of_toOption (by decide +kernel)
  refine ⟨hbuilt, hgarbled, hspell, ?_⟩
  rcases spelling_faithful define_expressionDefinition hbuilt hgarbled with ⟨e, he⟩ | h
  · rw [hspell] at he
    cases he
  · obtain ⟨t, m', ht, hm', hnames, hsame⟩ := h
    obtain rfl : _ = t := Except.ok.inj (hspell.symm.trans ht)
    have hcompiled : expression.matcherOf "n=any<(x=NAME) 'foo'>" = .ok (node none (some
        [wildcard [[leaf (some (.int 1)) none (some "x"),
          leaf (some (.int 1)) (some "foo") none]] 1 1 none]) (some "n")) :=
      eq_ok_of_toOption (by decide +kernel)
    refine ⟨m', hm', ?_, hnames, hsame⟩
    rw [← Except.ok.inj (hcompiled.symm.trans hm')]
    simp [handBuilt]

end TreeMatcher
