import TreeMatcher.Proofs.Repeat.Units

/-!
# Repeaters whose bounds descend

A repeater such as `{5,2}` allows no count, and compiling it is warned of. The wildcard it compiles
to never matches, with one exception: `{1,0}` around a wildcard of the same name that may be left
out is merged with it, and the products are zero and zero, which matches the empty sequence.

* `Item.descent?` — the bounds of a unit whose repeater descends.
* `Outcome.Warns` — the descending bounds that an outcome warns of.
* `Matcher.Absorbs` — the exception.

## Main results

* `Choice.warns` and its companions — the warnings come from the units with descending repeaters, in
  order.
* `descending_units` — these warnings, and what such units compile to and match.
-/

namespace TreeMatcher

universe u

open Outcome Grammar Matcher

/-! ## Warnings -/

/-- The bounds that an event warns of. -/
def Event.descent? : Event → Option (Number × Number)
  | neverMatches min max => some (min, max)
  | _ => none

/-- The bounds of a repeater, if they descend. -/
def Repeater.descent? : Repeater → Option (Number × Number)
  | between _ n _ m _ =>
    if m.text.decimalValue < n.text.decimalValue then
      some (.int n.text.decimalValue, .int m.text.decimalValue)
    else none
  | _ => none

/-- The bounds of a unit's repeater, if they descend. -/
def Item.descent? : Item → Option (Number × Number)
  | .repeated _ _ r => r.descent?
  | _ => none

namespace Outcome

variable {α β : Type} {o : Outcome α} {f : α → Outcome β} {bs bs' : List (Number × Number)}

/-- Where the outcome gives a value, it warns of the given bounds, in order. -/
def Warns (bs : List (Number × Number)) (o : Outcome α) : Prop :=
  ∀ a, o.result = .ok a → o.events.filterMap Event.descent? = bs

private theorem events_quiet_andThen (ho : o.events = []) (hf : ∀ a, (f a).events = []) :
    (o.andThen f).events = [] := by
  unfold Outcome.andThen
  split
  · exact List.append_eq_nil_iff.2 ⟨ho, hf _⟩
  · exact ho

private theorem warns_of_quiet (h : o.events = []) : Warns [] o := by
  intro _ _
  rw [h, List.filterMap_nil]

private theorem warns_refuse (e : PatternError) : Warns bs (refuse e : Outcome α) := by
  rintro _ ⟨⟩

private theorem Warns.andThen (h : Warns bs o) (hf : ∀ a, o.result = .ok a → Warns bs' (f a)) :
    Warns (bs ++ bs') (o.andThen f) := by
  intro b hb
  obtain ⟨a, ha, hb⟩ := exists_of_andThen hb
  rw [Outcome.andThen, ha]
  dsimp only
  rw [List.filterMap_append, h a ha, hf a ha b hb]

private theorem Warns.then_quiet (h : Warns bs o) (hf : ∀ a, (f a).events = []) :
    Warns bs (o.andThen f) := by
  have hboth := h.andThen fun a _ => warns_of_quiet (hf a)
  rwa [List.append_nil] at hboth

private theorem Warns.of_quiet (ho : o.events = []) (hf : ∀ a, Warns bs (f a)) :
    Warns bs (o.andThen f) :=
  (warns_of_quiet ho).andThen fun a _ => hf a

end Outcome

/-! ## Steps without warnings -/

namespace Matcher

private theorem events_finish (m : Matcher) : m.finish.events = [] := by
  unfold finish
  split <;> rfl

private theorem events_repeating (as : List (List Matcher)) (min max : Number) :
    (repeating as min max).events = [] := by
  unfold repeating
  split <;> rfl

private theorem events_captured (m : Matcher) (capture? : Option Capture) :
    (m.captured capture?).events = [] := by
  cases capture? <;> exact events_finish _

private theorem events_group (as : List (List Matcher)) :
    ((repeating as 1 1).andThen finish).events = [] :=
  events_quiet_andThen (events_repeating as 1 1) events_finish

private theorem events_inSequence (ms : List Matcher) : (inSequence ms).events = [] := by
  unfold inSequence
  split
  · rfl
  · exact events_group _

private theorem events_oneOf (ms : List Matcher) : (oneOf ms).events = [] := by
  unfold oneOf
  split
  · rfl
  · exact events_group _

end Matcher

section

variable {g : Grammar}

private theorem events_symbolOf (l : Leaf) : (g.symbolOf l).events = [] := by
  unfold symbolOf
  split
  · rfl
  · split <;> rfl

private theorem warns_literalMatcher (l : Leaf) : Warns [] (g.literalMatcher l) := by
  unfold literalMatcher
  split
  · exact warns_refuse _
  · next value _ =>
    have hkind : Warns [] (g.literalKind value) := by
      intro k _
      unfold literalKind
      split
      · rfl
      · split <;> rfl
    exact hkind.then_quiet fun _ => rfl

private theorem warns_nameMatcher (l : Leaf) : Warns [] (g.nameMatcher l) := by
  unfold nameMatcher
  split
  · unfold tokenMatcher
    split
    · exact warns_refuse _
    · exact warns_of_quiet rfl
  · exact .of_quiet (events_symbolOf l) fun _ => warns_of_quiet rfl

private theorem warns_detailedMatcher {l : Leaf} {content : Outcome Matcher}
    {bs : List (Number × Number)}
    (h : Warns bs content) : Warns bs (g.detailedMatcher l content) := by
  unfold detailedMatcher
  split
  · split <;> exact warns_refuse _
  · exact .of_quiet (events_symbolOf l) fun _ => h.then_quiet fun _ => rfl

end

/-! ## Repeaters -/

theorem events_repeatMatcher {m : Matcher} {children : List Tree} {min max : Number}
    (hb : boundsOf children = .ok (min, max)) :
    (repeatMatcher m children).events =
      if max.lt min then [.neverMatches min max] else [] := by
  have hrest : (if min = 1 ∧ max = 1 then Outcome.value m
      else m.finish.andThen fun inner => repeating [[inner]] min max).events = [] := by
    split
    · rfl
    · exact events_quiet_andThen (events_finish m) fun inner => events_repeating ..
  rw [repeatMatcher, hb, events_bind]
  simp only [Outcome.ofExcept, List.nil_append]
  split
  · rw [events_bind]
    exact congrArg (Event.neverMatches min max :: ·) hrest
  · exact hrest

/-- The bounds of a repeater descend where the upper one is less than the lower one. -/
private theorem Repeater.descent?_eq {r : Repeater} {min max : Number}
    (h : r.bounds = .ok (min, max)) :
    r.descent? = if max.lt min then some (min, max) else none := by
  cases r with
  | star w =>
    cases h
    rfl
  | plus w =>
    cases h
    rfl
  | exactly l n r =>
    obtain ⟨a, -, h⟩ := eq_ok_of_bind h
    cases h
    simp [descent?]
  | between l n c m r =>
    obtain ⟨a, hn, h⟩ := eq_ok_of_bind h
    obtain ⟨b, hm, h⟩ := eq_ok_of_bind h
    cases h
    obtain rfl := boundOf_leaf_eq_ok hn
    obtain rfl := boundOf_leaf_eq_ok hm
    simp [descent?]

theorem Repeater.warns (r : Repeater) (m : Matcher) :
    Warns r.descent?.toList (repeatMatcher m r.trees) := by
  intro w hw
  cases hbounds : r.bounds with
  | error e =>
    rw [repeatMatcher, r.boundsOf_trees, hbounds] at hw
    cases hw
  | ok bs =>
    obtain ⟨min, max⟩ := bs
    rw [events_repeatMatcher (r.boundsOf_trees.trans hbounds), descent?_eq hbounds]
    split <;> rfl

/-! ## Warnings of a phrase -/

variable (g : Grammar)

mutual

theorem Choice.warns : (c : Choice) → Warns (c.items.filterMap Item.descent?) (c.each g)
  | .single s => by
    rw [Choice.items, Choice.each]
    exact ((Sequence.warns s).then_quiet events_inSequence).then_quiet fun _ => rfl
  | .either s bar c => by
    rw [Choice.items, Choice.each, List.filterMap_append]
    refine ((Sequence.warns s).then_quiet events_inSequence).andThen fun m _ => ?_
    exact (Choice.warns c).then_quiet fun _ => rfl

theorem Sequence.warns : (s : Sequence) → Warns (s.items.filterMap Item.descent?) (s.each g)
  | .single i => by
    rw [Sequence.items, Sequence.each]
    exact (Item.warns i).then_quiet fun _ => rfl
  | .followed i s => by
    rw [Sequence.items, Sequence.each, List.filterMap_append]
    exact (Item.warns i).andThen fun m _ => (Sequence.warns s).then_quiet fun _ => rfl

theorem Item.warns : (i : Item) → Warns (i.items.filterMap Item.descent?) (i.matcher g)
  | .negated bang o => by
    rw [Item.items, Item.matcher, List.filterMap_append]
    exact (Operand.warns o).andThen fun m _ => warns_of_quiet
      (events_quiet_andThen (events_finish m) fun inner => events_finish _)
  | .plain capture? o => by
    rw [Item.items, Item.matcher, List.filterMap_append]
    exact (Operand.warns o).andThen fun m _ => warns_of_quiet (events_captured m capture?)
  | .repeated capture? b r => by
    rw [Item.items, Item.matcher, List.filterMap_append]
    refine (Basic.warns b).andThen fun m _ => ?_
    have hself : [Item.repeated capture? b r].filterMap Item.descent? = r.descent?.toList := by
      simp only [List.filterMap_cons, List.filterMap_nil, Item.descent?]
      cases r.descent? <;> rfl
    rw [hself]
    exact (r.warns m).then_quiet fun w => events_captured w capture?

theorem Operand.warns : (o : Operand) → Warns (o.items.filterMap Item.descent?) (o.matcher g)
  | .optional l c r => by
    rw [Operand.items, Operand.matcher]
    exact ((Choice.warns c).then_quiet events_oneOf).then_quiet fun m => events_repeating ..
  | .basic b => by
    rw [Operand.items, Operand.matcher]
    exact Basic.warns b

theorem Basic.warns : (b : Basic) → Warns (b.items.filterMap Item.descent?) (b.matcher g)
  | .literal w => by
    rw [Basic.items, Basic.matcher]
    exact warns_literalMatcher _
  | .name w => by
    rw [Basic.items, Basic.matcher]
    exact warns_nameMatcher _
  | .detailed w l c r => by
    rw [Basic.items, Basic.matcher]
    exact warns_detailedMatcher ((Choice.warns c).then_quiet events_oneOf)
  | .group l c r => by
    rw [Basic.items, Basic.matcher]
    exact (Choice.warns c).then_quiet events_oneOf

end

variable {g}

/-- A text that compiles is warned of by the units whose repeaters descend, in order. -/
private theorem Choice.events_of_matcherOf {source : Text} {c : Choice} {m : Matcher}
    (hparse : parse source = .ok c.pattern) (hm : g.matcherOf source = .ok m) :
    (g.matcherOfText source).events.filterMap Event.descent? =
      c.items.filterMap Item.descent? := by
  have hresult := Choice.result_of_matcherOf hparse hm
  have hwarns : Warns (c.items.filterMap Item.descent?) (c.matcher g) :=
    (c.warns g).then_quiet events_oneOf
  rw [matcherOfText_eq g hparse, Outcome.andThen, hresult]
  dsimp only
  rw [List.filterMap_append, hwarns m hresult]
  exact List.append_nil _

/-! ## What a descending repeater compiles to -/

/-- A wildcard that may be left out, of a given name, under the lower bound one: if the upper bound
is zero, the two are merged and both products are zero. -/
def Matcher.Absorbs (lower : Nat) (name? : Option Text) (inner : Matcher) : Prop :=
  lower = 1 ∧ ∃ as max, inner = wildcard as 0 max name?

/-- Around a shaped matcher, descending bounds stay as they are, unless they are absorbed. -/
private theorem around_descending {inner : Matcher} {n k : Nat} (hinner : Shaped g inner)
    (hlt : k < n) (name? : Option Text) :
    ∃ as min max, inner.around (.int n) (.int k) name? = wildcard as min max name? ∧
      (¬inner.Absorbs n name? → min = .int n ∧ max = .int k) ∧
      (inner.Absorbs n name? → min = 0 ∧ max = 0) := by
  by_cases hmerge : Merges (.int n) name? inner
  · cases inner with
    | wildcard as min' max' name'? =>
      obtain ⟨hle, hle', rfl⟩ := hmerge
      obtain ⟨a, rfl⟩ := Number.isNat_iff.1 hinner.valid.1
      -- Two wildcards merge only where both lower bounds are at most one: the repeater is `{1,0}`.
      have hn : n ≤ 1 := Number.le_one_iff.1 hle
      have ha : a ≤ 1 := Number.le_one_iff.1 hle'
      obtain rfl : n = 1 := by omega
      obtain rfl : k = 0 := by omega
      refine ⟨as, _, _, around_of_merges hle hle', ?_⟩
      rw [Number.mul_of_le_one hn ha, Nat.one_mul]
      obtain rfl | rfl : a = 0 ∨ a = 1 := by omega
      · exact ⟨fun h => absurd ⟨rfl, as, max', rfl⟩ h, fun _ => ⟨rfl, rfl⟩⟩
      · refine ⟨fun _ => ⟨rfl, rfl⟩, ?_⟩
        rintro ⟨-, as', max, heq⟩
        cases heq
    | _ => exact absurd hmerge fun h => h
  · refine ⟨_, _, _, around_of_not_merges hmerge, fun _ => ⟨rfl, rfl⟩, ?_⟩
    rintro ⟨rfl, as, max, rfl⟩
    exact absurd ⟨rfl, rfl, rfl⟩ hmerge

private theorem relation_descending {P : Type u} (I : Interpretation P) (as : List (List Matcher))
    {n k : Nat} (hlt : k < n) (name? : Option Text) (p q : P) :
    ¬(wildcard as (.int n) (.int k) name?).relation I p q := by
  rw [relation]
  rintro ⟨j, hj, -⟩
  rw [counts_int] at hj
  omega

/-- To repeat not at all is to stay. -/
private theorem relation_zero {P : Type u} (I : Interpretation P) (as : List (List Matcher))
    (name? : Option Text) (p q : P) : (wildcard as 0 0 name?).relation I p q ↔ p = q := by
  have hcounts : ∀ k, Counts 0 0 k ↔ k = 0 := by
    intro k
    rw [show (0 : Number) = .int (0 : Nat) from rfl, counts_int]
    omega
  rw [relation]
  simp [repeated, hcounts]

/-- The warnings of a text that compiles are those of its units whose repeaters descend, in order.
Such a unit compiles to a wildcard with these bounds, which matches nothing at all; only where what
it repeats absorbs them are the bounds zero and zero, which matches the empty sequence. -/
theorem descending_units {source : Text} {c : Choice} {m : Matcher}
    (hparse : parse source = .ok c.pattern) (hm : g.matcherOf source = .ok m) :
    (g.matcherOfText source).events.filterMap Event.descent? = c.items.filterMap Item.descent? ∧
      ∀ (capture? : Option Capture) (b : Basic) (l n comma k r : Word),
        .repeated capture? b (.between l n comma k r) ∈ c.items →
          k.text.decimalValue < n.text.decimalValue →
            ∃ inner as min max,
              (basicMatcher g true (b.trees.map (part g))).result = .ok inner ∧
              (matcherOfTree g (Item.repeated capture? b (.between l n comma k r)).tree).result =
                .ok (wildcard as min max (captureName? capture?)) ∧
              (¬inner.Absorbs n.text.decimalValue (captureName? capture?) →
                min = .int n.text.decimalValue ∧ max = .int k.text.decimalValue) ∧
              (inner.Absorbs n.text.decimalValue (captureName? capture?) → min = 0 ∧ max = 0) ∧
              ∀ {P : Type u} (I : Interpretation P) (p q : P),
                (wildcard as min max (captureName? capture?)).relation I p q ↔
                  inner.Absorbs n.text.decimalValue (captureName? capture?) ∧ p = q := by
  refine ⟨Choice.events_of_matcherOf hparse hm, fun capture? b l n comma k r hi hlt => ?_⟩
  obtain ⟨inner, min, max, hb, hshaped, hbounds, -, hresult, -⟩ :=
    (Choice.compiles hparse hm _ hi).exists_repeated
  obtain ⟨a, hn, hbounds⟩ := eq_ok_of_bind hbounds
  obtain ⟨a', hk, hbounds⟩ := eq_ok_of_bind hbounds
  obtain rfl := boundOf_leaf_eq_ok hn
  obtain rfl := boundOf_leaf_eq_ok hk
  cases hbounds
  have hone : ¬(Number.int n.text.decimalValue = 1 ∧ Number.int k.text.decimalValue = 1) := by
    intro ⟨hn, hk⟩
    have hn' : n.text.decimalValue = 1 := Int.ofNat.inj (Number.int.inj hn)
    have hk' : k.text.decimalValue = 1 := Int.ofNat.inj (Number.int.inj hk)
    omega
  obtain ⟨as, min, max, haround, hkept, habsorbed⟩ :=
    around_descending hshaped hlt (captureName? capture?)
  refine ⟨inner, as, min, max, ?_, ?_, hkept, habsorbed, fun I p q => ?_⟩
  · rw [b.basicMatcher_trees, hb]
  · rw [Item.matcherOfTree_tree, hresult hone, haround]
  · by_cases hab : inner.Absorbs n.text.decimalValue (captureName? capture?)
    · obtain ⟨rfl, rfl⟩ := habsorbed hab
      rw [relation_zero, and_iff_right hab]
    · obtain ⟨rfl, rfl⟩ := hkept hab
      exact iff_of_false (relation_descending I as hlt _ p q) fun h => hab h.1

/-- What stands in parentheses in `(NAME*)`. -/
def starredName : Basic :=
  .group (.onFirstLine "(" 0)
    (.single (.single (.repeated none (.name (.onFirstLine "NAME" 1))
      (.star (.onFirstLine "*" 5)))))
    (.onFirstLine ")" 6)

/-- It repeated `{1,0}` times. -/
def absorbedRepeat : Item :=
  .repeated none starredName (.between (.onFirstLine "\x7b" 7) (.onFirstLine "1" 8)
    (.onFirstLine "," 9) (.onFirstLine "0" 10) (.onFirstLine "\x7d" 11))

/-- The bounds one and zero are absorbed by a star. -/
theorem descending_units_star :
    parse "(NAME*)\x7b1,0\x7d" = .ok (Choice.single (.single absorbedRepeat)).pattern ∧
      (∃ m, Grammar.expression.matcherOf "(NAME*)\x7b1,0\x7d" = .ok m) ∧
        ∃ as, (matcherOfTree Grammar.expression absorbedRepeat.tree).result =
          .ok (wildcard as 0 0 none) := by
  have hparse : parse "(NAME*)\x7b1,0\x7d" = .ok (Choice.single (.single absorbedRepeat)).pattern :=
    parse_eq_ok_iff_choice.2 ⟨by decide +kernel, _, by decide +kernel, rfl⟩
  have hm : Grammar.expression.matcherOf "(NAME*)\x7b1,0\x7d" =
      .ok (wildcard [[leaf (some (.int 1)) none none]] 0 0 none) :=
    eq_ok_of_toOption (by decide +kernel)
  have hinner : (basicMatcher Grammar.expression true
      (starredName.trees.map (part Grammar.expression))).result =
        .ok (wildcard [[leaf (some (.int 1)) none none]] 0 .infinity none) :=
    eq_ok_of_toOption (by decide +kernel)
  obtain ⟨-, hunits⟩ := descending_units.{0} hparse hm
  obtain ⟨inner, as, min, max, hb, hunit, -, habsorbed, -⟩ :=
    hunits none starredName _ _ _ _ _ (List.mem_append_right _ (List.mem_singleton_self _))
      (by decide)
  obtain rfl := Except.ok.inj (hinner.symm.trans hb)
  obtain ⟨rfl, rfl⟩ := habsorbed ⟨by decide, _, _, rfl⟩
  exact ⟨hparse, ⟨_, hm⟩, as, hunit⟩

end TreeMatcher
