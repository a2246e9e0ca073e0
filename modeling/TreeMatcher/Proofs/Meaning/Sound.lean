import TreeMatcher.Grammar.Expression
import TreeMatcher.Proofs.Compile.Written
import TreeMatcher.Proofs.Grammar.Declared
import TreeMatcher.Proofs.Meaning.Phrase

/-!
# Compiling keeps the meaning

A phrase compiles to a matcher that means what the phrase means, provided that the bounds in braces
are in order and that products of nested finite bounds are not rounded. Otherwise wildcards that
merge may get other counts: `{1,0}` around `{0,2}` allows no count at all, but merged it is `{0,0}`,
and a rounded product is another number.

## Main results

* `Choice.means` and its companions — a phrase compiles to a matcher of the same meaning.
* `relation_matcherOf` — a text compiles to a matcher that means what its tree means.
-/

namespace TreeMatcher

universe u

open Matcher

/-! ## Values of an outcome -/

namespace Outcome

variable {α β : Type} {P : α → Prop} {Q : β → Prop}

/-- The value of an outcome, if it has one, has a given property. -/
def Gives (P : α → Prop) (o : Outcome α) : Prop := ∀ a, o.result = .ok a → P a

theorem gives_value {a : α} (h : P a) : Gives P (value a) := by
  intro a' ha'
  cases ha'
  exact h

theorem gives_fail (e : CompileError) : Gives P (fail e) := by
  intro a ha
  cases ha

theorem gives_any (o : Outcome α) : Gives (fun _ => True) o := fun _ _ => trivial

theorem Gives.andThen {o : Outcome α} {f : α → Outcome β} (h : Gives P o)
    (hf : ∀ a, P a → Gives Q (f a)) : Gives Q (o.andThen f) := by
  rcases o with ⟨es, e | a⟩
  · intro b hb
    cases hb
  · exact hf a (h a rfl)

theorem Gives.mono {o : Outcome α} {P' : α → Prop} (h : Gives P o) (hP : ∀ a, P a → P' a) :
    Gives P' o :=
  fun a ha => hP a (h a ha)

end Outcome

/-! ## Matchers of a given meaning -/

variable {P : Type u} {I : Interpretation P} {g : Grammar}

/-- A matcher has a given meaning, and its bounds multiply to at most `k`. -/
structure Means (I : Interpretation P) (k : Nat) (R : P → P → Prop) (m : Matcher) : Prop where
  regular : Regular k m
  relation_eq : m.relation I = R

namespace Means

open Outcome

variable {k : Nat} {R : P → P → Prop} {m : Matcher}

private theorem mono {j : Nat} (h : Means I j R m) (hjk : j ≤ k) : Means I k R m :=
  ⟨h.regular.mono hjk, h.relation_eq⟩

private theorem finish (h : Means I k R m) (hk : k ≤ Number.exactLimit) :
    Gives (Means I k R) m.finish := by
  unfold Matcher.finish
  intro m' hm'
  split at hm'
  · next hnormal =>
    cases hm'
    obtain ⟨hregular, hsame⟩ := h.regular.normalize (A := relation I) hk hnormal
    rw [composed_relation, composed_relation] at hsame
    exact ⟨hregular, hsame.trans h.relation_eq⟩
  · cases hm'

private theorem withName (h : Means I k R m) (name : Text) : Means I k R (m.withName name) :=
  ⟨h.regular.withName name, (relation_withName name m).trans h.relation_eq⟩

/-- Capture names do not matter. -/
private theorem captured (h : Means I k R m) (hk : k ≤ Number.exactLimit)
    (capture? : Option Capture) :
    Gives (Means I k R) (m.captured capture?) := by
  cases capture? with
  | none => exact h.finish hk
  | some c => exact (h.withName c.name.text).finish hk

/-- A wildcard around a matcher. -/
private theorem repeating (h : Means I k R m) {min max : Number} (hb : Ascending min max) :
    Gives (Means I (max.factor * k) (repeated (Counts min max) R))
      (Matcher.repeating [[m]] min max) := by
  intro m' hm'
  obtain rfl := eq_of_repeating hm'
  refine ⟨.around hb (Nat.le_refl _) h.regular, ?_⟩
  rw [relation_around, h.relation_eq]

private theorem repeatMatcher (h : Means I k R m) (hk : k ≤ Number.exactLimit)
    {children : List Tree}
    {min max : Number} (hbounds : boundsOf children = .ok (min, max)) (hb : Ascending min max) :
    Gives (Means I (max.factor * k) (repeated (Counts min max) R))
      (Grammar.repeatMatcher m children) := by
  intro m' hm'
  rw [Grammar.result_repeatMatcher_of_bounds hbounds] at hm'
  split at hm'
  · next hone =>
    obtain ⟨rfl, rfl⟩ := hone
    cases hm'
    rw [repeated_once fun k => counts_one]
    exact h.mono (Nat.le_mul_of_pos_left k (Number.one_le_factor 1))
  · exact (h.finish hk).andThen (fun inner hinner => hinner.repeating hb) m' hm'

/-- Several sequences, or one that is not a single matcher, in a wildcard of their own. -/
private theorem group {as : List (List Matcher)} (has : ∀ m, as ≠ [[m]]) (hpos : 1 ≤ k)
    (hk : k ≤ Number.exactLimit) :
    Gives (Means I k (relationOfAny I as))
      ((Matcher.repeating as 1 1).andThen Matcher.finish) := by
  have hvalid : ValidBounds 1 1 := ⟨rfl, .inr rfl⟩
  rw [Matcher.repeating, wildcard?_eq_ok_iff.2 hvalid, value_andThen]
  have hmeans : Means I k (relationOfAny I as) (wildcard as 1 1 none) :=
    ⟨.group (ascending_int (Nat.le_refl 1)) hpos has, relation_once as none⟩
  exact hmeans.finish hk

private theorem inSequence {ms : List Matcher} (hms : ∀ m ∈ ms, Regular k m) (hpos : 1 ≤ k)
    (hk : k ≤ Number.exactLimit) : Gives (Means I k (relationInRow I ms)) (inSequence ms) := by
  unfold Matcher.inSequence
  split
  · next m =>
    exact gives_value ⟨hms m (by simp), (relationInRow_single m).symm⟩
  · next ms hne =>
    rw [← relationOfAny_single]
    exact group (fun m hm => hne m (by simpa using hm)) hpos hk

private theorem oneOf {ms : List Matcher} (hms : ∀ m ∈ ms, Regular k m) (hpos : 1 ≤ k)
    (hk : k ≤ Number.exactLimit) :
    Gives (Means I k (relationOfAny I (ms.map fun m => [m]))) (oneOf ms) := by
  unfold Matcher.oneOf
  split
  · next m =>
    refine gives_value ⟨hms m (by simp), ?_⟩
    rw [List.map_singleton, relationOfAny_single, relationInRow_single]
  · next ms hne =>
    exact group (fun m hm => hne m (by simpa using hm)) hpos hk

end Means

/-! ## Words -/

section

open Outcome

private theorem result_literalKind (v : Text) :
    (g.literalKind v).result = .ok (g.literalKind? v) := by
  unfold Grammar.literalKind Grammar.literalKind?
  split
  · rfl
  · cases g.operatorKind? v <;> rfl

private theorem gives_symbolOf {l : Leaf} :
    Gives (fun symbol? => g.symbolsOf? l.value = some symbol?) (g.symbolOf l) := by
  unfold Grammar.symbolOf Grammar.symbolsOf?
  split
  · exact gives_value rfl
  · cases g.symbolKind? l.value with
    | none => exact gives_fail _
    | some k => exact gives_value rfl

private theorem means_leaf (t : Option Number) (v : Option Text) :
    Means I 1 (I.leaf t v) (.leaf t v none) :=
  ⟨.plain (Nat.le_refl 1) (by rintro _ _ _ _ ⟨⟩), rfl⟩

private theorem means_node {k : Nat} (hpos : 1 ≤ k) (s : Option Number)
    (c : Option (List Matcher)) :
    Means I k (I.node s (c.map (relationInRow I))) (.node s c none) := by
  refine ⟨.plain hpos (by rintro _ _ _ _ ⟨⟩), ?_⟩
  cases c <;> rfl

private theorem means_literalMatcher (w : Word) :
    Gives (Means I 1 (g.literalRelation I w.text)) (g.literalMatcher (w.toLeaf .string)) := by
  have hvalue : (w.toLeaf .string).value = w.text := rfl
  unfold Grammar.literalMatcher Grammar.literalRelation
  rw [hvalue]
  cases Literal.unquote w.text with
  | error e => exact gives_fail _
  | ok v =>
    have hkind : Gives (fun kind => kind = g.literalKind? v) (g.literalKind v) := by
      intro kind h
      rw [result_literalKind] at h
      exact (Except.ok.inj h).symm
    refine hkind.andThen fun kind h => gives_value ?_
    rw [h]
    exact means_leaf _ _

private theorem means_nameMatcher (w : Word) :
    Gives (Means I 1 (if w.text.isUpperCase then g.tokenRelation I w.text
      else g.symbolRelation I w.text none)) (g.nameMatcher (w.toLeaf .name)) := by
  have hvalue : (w.toLeaf .name).value = w.text := rfl
  unfold Grammar.nameMatcher
  rw [hvalue]
  split
  · unfold Grammar.tokenMatcher Grammar.tokenRelation
    rw [hvalue]
    cases g.tokenNames.lookup w.text with
    | none => exact gives_fail _
    | some kind => exact gives_value (means_leaf _ _)
  · refine (gives_symbolOf (g := g)).andThen fun symbol? h => gives_value ?_
    rw [Grammar.symbolRelation, ← hvalue, h]
    exact means_node (Nat.le_refl 1) symbol? none

private theorem means_detailedMatcher {k : Nat} {R : P → P → Prop} (w : Word)
    {content : Outcome Matcher} (hpos : 1 ≤ k) (h : Gives (Means I k R) content) :
    Gives (Means I k (g.symbolRelation I w.text (some R)))
      (g.detailedMatcher (w.toLeaf .name) content) := by
  have hvalue : (w.toLeaf .name).value = w.text := rfl
  unfold Grammar.detailedMatcher
  split
  · cases g.tokenNames.lookup (w.toLeaf .name).value <;> exact gives_fail _
  · refine (gives_symbolOf (g := g)).andThen fun symbol? hsymbol => ?_
    refine h.andThen fun m hm => gives_value ?_
    rw [Grammar.symbolRelation, ← hvalue, hsymbol, ← hm.relation_eq, ← relationInRow_single]
    exact means_node hpos symbol? (some [m])

end

/-! ## Repeaters -/

theorem boundOf_leaf_eq_ok {k : TokenKind} {w : Word} {n : Nat}
    (h : boundOf (w.leaf k) = .ok n) : n = w.text.decimalValue := by
  unfold Word.leaf Tree.ofToken boundOf at h
  split at h
  · next heq =>
    cases heq
    split at h
    · split at h
      · split at h
        · cases h
          rfl
        · cases h
      · cases h
    · cases h
  · cases h

/-- The bounds of a repeater, where they are in order, allow the counts of the repeater. -/
private theorem Repeater.ascending_bounds {r : Repeater} (h : r.Ordered) {bs : Number × Number}
    (hb : r.bounds = .ok bs) :
    Ascending bs.1 bs.2 ∧ (∀ k, Counts bs.1 bs.2 k ↔ r.counts k) ∧
      bs.2.factor = r.max?.elim 1 (max 1) := by
  cases r with
  | star w =>
    cases hb
    exact ⟨ascending_infinity 0, fun k => counts_infinity.trans (by simp [counts]), rfl⟩
  | plus w =>
    cases hb
    exact ⟨ascending_infinity 1, fun k => counts_infinity, rfl⟩
  | exactly l n r =>
    obtain ⟨a, hn, ha⟩ := eq_ok_of_bind hb
    cases ha
    obtain rfl := boundOf_leaf_eq_ok hn
    refine ⟨ascending_int (Nat.le_refl _), fun k => counts_int.trans ?_, rfl⟩
    rw [counts]
    omega
  | between l n c m r =>
    obtain ⟨a, hn, ha⟩ := eq_ok_of_bind hb
    obtain ⟨b, hm, hb⟩ := eq_ok_of_bind ha
    cases hb
    obtain rfl := boundOf_leaf_eq_ok hn
    obtain rfl := boundOf_leaf_eq_ok hm
    exact ⟨ascending_int h, fun k => counts_int, rfl⟩

/-! ## Phrases -/

open Outcome

variable (I g)

/-- Matchers that are regular and have together a given meaning. -/
structure MeansEach (meaning : List Matcher → P → P → Prop) (k : Nat) (R : P → P → Prop)
    (ms : List Matcher) : Prop where
  regular : ∀ m ∈ ms, Regular k m
  meaning_eq : meaning ms = R

variable {I g}

private theorem gives_inSequence {o : Outcome (List Matcher)} {k : Nat} {R : P → P → Prop}
    (h : Gives (MeansEach (relationInRow I) k R) o) (hpos : 1 ≤ k) (hk : k ≤ Number.exactLimit) :
    Gives (Means I k R) (o.andThen inSequence) :=
  h.andThen fun _ hms => hms.meaning_eq ▸ Means.inSequence hms.regular hpos hk

private theorem gives_oneOf {o : Outcome (List Matcher)} {k : Nat} {R : P → P → Prop}
    (h : Gives (MeansEach (fun ms => relationOfAny I (ms.map fun m => [m])) k R) o) (hpos : 1 ≤ k)
    (hk : k ≤ Number.exactLimit) : Gives (Means I k R) (o.andThen oneOf) :=
  h.andThen fun _ hms => hms.meaning_eq ▸ Means.oneOf hms.regular hpos hk

/-- A repeater multiplies the largest product of the bounds inside. -/
private theorem le_peak_repeated (capture? : Option Capture) (b : Basic) (r : Repeater) :
    b.peak ≤ (Item.repeated capture? b r).peak ∧
      r.max?.elim 1 (max 1) * b.peak ≤ (Item.repeated capture? b r).peak := by
  rw [Item.peak]
  cases r.max? with
  | none => exact ⟨Nat.le_refl _, Nat.le_of_eq (Nat.one_mul _)⟩
  | some n =>
    refine ⟨Nat.le_max_left _ _, ?_⟩
    rcases Nat.le_total n 1 with hn | hn
    · rw [Option.elim_some, Nat.max_eq_left hn, Nat.one_mul]
      exact Nat.le_max_left _ _
    · rw [Option.elim_some, Nat.max_eq_right hn]
      exact Nat.le_max_right _ _

variable (I g)

mutual

theorem Choice.means_each : (c : Choice) → (∀ r ∈ c.repeaters, r.Ordered) →
    c.peak ≤ Number.exactLimit →
    Gives (MeansEach (fun ms => relationOfAny I (ms.map fun m => [m])) c.peak (c.relation g I))
      (c.each g)
  | .single s, hr, hk => by
    rw [Choice.repeaters] at hr
    rw [Choice.peak] at hk ⊢
    rw [Choice.each, Choice.relation]
    refine (gives_inSequence (Sequence.means_each s hr hk) s.peak_pos hk).andThen fun m hm =>
      gives_value ⟨by simpa using hm.regular, ?_⟩
    rw [List.map_singleton, relationOfAny_single, relationInRow_single, hm.relation_eq]
  | .either s _ c, hr, hk => by
    rw [Choice.repeaters, List.forall_mem_append] at hr
    rw [Choice.peak] at hk ⊢
    rw [Choice.each, Choice.relation]
    obtain ⟨hs, hc⟩ := Nat.max_le.1 hk
    refine (gives_inSequence (Sequence.means_each s hr.1 hs) s.peak_pos hs).andThen fun m hm => ?_
    refine (Choice.means_each c hr.2 hc).andThen fun ms hms => gives_value ⟨?_, ?_⟩
    · rw [List.forall_mem_cons]
      exact ⟨hm.regular.mono (Nat.le_max_left _ _), fun m' hm' =>
        (hms.regular m' hm').mono (Nat.le_max_right _ _)⟩
    · rw [List.map_cons, relationOfAny, relationInRow_single, hm.relation_eq, hms.meaning_eq]

theorem Sequence.means_each : (s : Sequence) → (∀ r ∈ s.repeaters, r.Ordered) →
    s.peak ≤ Number.exactLimit →
    Gives (MeansEach (relationInRow I) s.peak (s.relation g I)) (s.each g)
  | .single i, hr, hk => by
    rw [Sequence.repeaters] at hr
    rw [Sequence.peak] at hk ⊢
    rw [Sequence.each, Sequence.relation]
    refine (Item.means i hr hk).andThen fun m hm => gives_value ⟨by simpa using hm.regular, ?_⟩
    rw [relationInRow_single, hm.relation_eq]
  | .followed i s, hr, hk => by
    rw [Sequence.repeaters, List.forall_mem_append] at hr
    rw [Sequence.peak] at hk ⊢
    rw [Sequence.each, Sequence.relation]
    obtain ⟨hi, hs⟩ := Nat.max_le.1 hk
    refine (Item.means i hr.1 hi).andThen fun m hm => ?_
    refine (Sequence.means_each s hr.2 hs).andThen fun ms hms => gives_value ⟨?_, ?_⟩
    · rw [List.forall_mem_cons]
      exact ⟨hm.regular.mono (Nat.le_max_left _ _), fun m' hm' =>
        (hms.regular m' hm').mono (Nat.le_max_right _ _)⟩
    · rw [relationInRow, hm.relation_eq, hms.meaning_eq]

theorem Item.means : (i : Item) → (∀ r ∈ i.repeaters, r.Ordered) → i.peak ≤ Number.exactLimit →
    Gives (Means I i.peak (i.relation g I)) (i.matcher g)
  | .negated _ o, hr, hk => by
    rw [Item.repeaters] at hr
    rw [Item.peak] at hk ⊢
    rw [Item.matcher, Item.relation]
    refine (Operand.means o hr hk).andThen fun m hm => ?_
    refine (hm.finish hk).andThen fun inner hinner => ?_
    have hmeans : Means I o.peak (absent (o.relation g I)) (Matcher.negated inner none) := by
      refine ⟨.plain o.peak_pos (by rintro _ _ _ _ ⟨⟩), ?_⟩
      rw [Matcher.relation, hinner.relation_eq]
    exact hmeans.finish hk
  | .plain capture? o, hr, hk => by
    rw [Item.repeaters] at hr
    rw [Item.peak] at hk ⊢
    rw [Item.matcher, Item.relation]
    exact (Operand.means o hr hk).andThen fun m hm => hm.captured hk capture?
  | .repeated capture? b r, hr, hk => by
    rw [Item.repeaters, List.forall_mem_cons] at hr
    obtain ⟨hinside, hpeak⟩ := le_peak_repeated capture? b r
    have hb := Nat.le_trans hinside hk
    rw [Item.matcher, Item.relation]
    refine (Basic.means b hr.2 hb).andThen fun m hm => ?_
    have hrepeat : Gives (Means I (Item.repeated capture? b r).peak
        (repeated r.counts (b.relation g I))) (Grammar.repeatMatcher m r.trees) := by
      cases hbounds : r.bounds with
      | error e =>
        rw [Grammar.repeatMatcher, Repeater.boundsOf_trees, hbounds]
        exact gives_fail e
      | ok bounds =>
        obtain ⟨hascending, hcounts, hfactor⟩ := Repeater.ascending_bounds hr.1 hbounds
        rw [← repeated_congr hcounts]
        rw [← hfactor] at hpeak
        exact (hm.repeatMatcher hb (r.boundsOf_trees.trans hbounds) hascending).mono fun m' hm' =>
          hm'.mono hpeak
    exact hrepeat.andThen fun m' hm' => hm'.captured hk capture?

theorem Operand.means : (o : Operand) → (∀ r ∈ o.repeaters, r.Ordered) →
    o.peak ≤ Number.exactLimit → Gives (Means I o.peak (o.relation g I)) (o.matcher g)
  | .optional _ c _, hr, hk => by
    rw [Operand.repeaters] at hr
    rw [Operand.peak] at hk ⊢
    rw [Operand.matcher, Operand.relation, ← repeated_zero_one]
    refine (gives_oneOf (Choice.means_each c hr hk) c.peak_pos hk).andThen fun m hm => ?_
    refine (hm.repeating (ascending_int (Nat.zero_le 1))).mono fun m' hm' => hm'.mono ?_
    exact Nat.le_of_eq (Nat.one_mul _)
  | .basic b, hr, hk => by
    rw [Operand.repeaters] at hr
    rw [Operand.peak] at hk ⊢
    rw [Operand.matcher, Operand.relation]
    exact Basic.means b hr hk

theorem Basic.means : (b : Basic) → (∀ r ∈ b.repeaters, r.Ordered) →
    b.peak ≤ Number.exactLimit → Gives (Means I b.peak (b.relation g I)) (b.matcher g)
  | .literal w, _, _ => by
    rw [Basic.peak, Basic.matcher, Basic.relation]
    exact means_literalMatcher w
  | .name w, _, _ => by
    rw [Basic.peak, Basic.matcher, Basic.relation]
    exact means_nameMatcher w
  | .detailed w _ c _, hr, hk => by
    rw [Basic.repeaters] at hr
    rw [Basic.peak] at hk ⊢
    rw [Basic.matcher, Basic.relation]
    exact means_detailedMatcher w c.peak_pos
      (gives_oneOf (Choice.means_each c hr hk) c.peak_pos hk)
  | .group _ c _, hr, hk => by
    rw [Basic.repeaters] at hr
    rw [Basic.peak] at hk ⊢
    rw [Basic.matcher, Basic.relation]
    exact gives_oneOf (Choice.means_each c hr hk) c.peak_pos hk

end

variable {g}

/-- A text whose bounds in braces are in order, and whose nested finite bounds multiply to at most
the largest bound, compiles to a matcher that means what its tree means. -/
theorem relation_matcherOf {source : Text} {c : Choice} {m : Matcher}
    (hparse : parse source = .ok c.pattern) (hm : g.matcherOf source = .ok m)
    (hordered : ∀ r ∈ c.repeaters, r.Ordered) (hpeak : c.peak ≤ boundLimit) :
    m.relation I = c.relation g I := by
  have hk : c.peak ≤ Number.exactLimit := Nat.le_trans hpeak (by decide)
  have hresult : (c.matcher g).result = .ok m := by
    rw [Grammar.matcherOf, Grammar.matcherOfText, hparse] at hm
    dsimp only at hm
    rw [matcherOfTree_pattern, Outcome.bind_eq_andThen, Outcome.andThen] at hm
    cases hc : (c.matcher g).result with
    | error e =>
      rw [hc] at hm
      cases hm
    | ok m' =>
      rw [hc] at hm
      cases hm
      rfl
  rw [Choice.matcher] at hresult
  exact (gives_oneOf (c.means_each I g hordered hk) c.peak_pos hk m hresult).relation_eq

/-- A word on the first line. -/
def Word.onFirstLine (t : Text) (offset : Nat) : Word := ⟨t, ⟨1, offset + 1⟩, offset⟩

/-- A repeater for up to three times around one for up to twice. -/
def nestedRepeaters : Choice :=
  .single (.single (.repeated none
    (.group (.onFirstLine "(" 0)
      (.single (.single (.repeated none (.name (.onFirstLine "NAME" 1))
        (.between (.onFirstLine "\x7b" 5) (.onFirstLine "0" 6) (.onFirstLine "," 7)
          (.onFirstLine "2" 8) (.onFirstLine "\x7d" 9)))))
      (.onFirstLine ")" 10))
    (.between (.onFirstLine "\x7b" 11) (.onFirstLine "1" 12) (.onFirstLine "," 13)
      (.onFirstLine "3" 14) (.onFirstLine "\x7d" 15))))

/-- Nested bounds multiply: up to three times up to two names are up to six names. -/
theorem relation_matcherOf_nested :
    parse "(NAME\x7b0,2\x7d)\x7b1,3\x7d" = .ok nestedRepeaters.pattern ∧
      ∀ (P : Type) (I : Interpretation P),
        relation I (wildcard [[leaf (some (.int 1)) none none]] 0 6 none) =
          nestedRepeaters.relation Grammar.expression I := by
  have hparse : parse "(NAME\x7b0,2\x7d)\x7b1,3\x7d" = .ok nestedRepeaters.pattern :=
    parse_eq_ok_iff_choice.2 ⟨by decide +kernel, nestedRepeaters, by decide +kernel, rfl⟩
  have hm : Grammar.expression.matcherOf "(NAME\x7b0,2\x7d)\x7b1,3\x7d" =
      .ok (wildcard [[leaf (some (.int 1)) none none]] 0 6 none) :=
    eq_ok_of_toOption (by decide +kernel)
  have hordered : ∀ r ∈ nestedRepeaters.repeaters, r.Ordered := by
    rw [show nestedRepeaters.repeaters = [_, _] from rfl, List.forall_mem_cons,
      List.forall_mem_singleton]
    exact ⟨(by decide : Text.decimalValue "1" ≤ Text.decimalValue "3"),
      (by decide : Text.decimalValue "0" ≤ Text.decimalValue "2")⟩
  have hpeak : nestedRepeaters.peak = 6 := rfl
  exact ⟨hparse, fun P I => relation_matcherOf I hparse hm hordered (by rw [hpeak]; decide)⟩

end TreeMatcher
