import TreeMatcher.Proofs.Compile.Phrases
import TreeMatcher.Proofs.Matcher.Normal
import TreeMatcher.Proofs.Pattern.Scan

/-!
# The shape of compiled matchers

What a pattern compiles to is far from an arbitrary matcher. A wildcard stands around a single
matcher that it neither equals nor merges with, around one sequence of at least two, or around at
least two alternatives of one matcher each; in the last two cases its lower bound is at most one.
The content of a node is a single matcher. Names are names of the pattern language, and kinds are
those that the grammar gives to literals, token names and symbols.

* `Matcher.Repeats` — bounds as repeaters and their merges have them.
* `Matcher.Shaped` — the shape, at every depth.
* `Matcher.around` — a wildcard around a matcher, or merged with it.
* `Matcher.titled` — a matcher under a capture name.
* `Matcher.sequenceOf`, `Matcher.choiceOf` — what a sequence and a choice compile to.

## Main results

* `Shaped.settled` — nothing is redundant at the top of a shaped matcher.
* `finish_around` — how a wildcard around a shaped matcher finishes.
* `exists_finish_repeated` — a wildcard around a shaped matcher finishes as a shaped matcher.
* `Unfinished.exists_captured` — so does what a repeater leaves behind, under a name or none.
-/

namespace TreeMatcher

/-! ## Names and bounds -/

namespace Matcher

/-- A capture name, if there is one, is a name. -/
def Named (name? : Option Text) : Prop := ∀ n ∈ name?, n.isName

theorem named_none : Named none := by simp [Named]

theorem named_some {n : Text} (h : n.isName) : Named (some n) := by
  intro n' hn'
  cases hn'
  exact h

/-- Bounds as repeaters and their merges have them. -/
def Repeats (min max : Number) : Prop :=
  ∃ a : Nat, min = .int a ∧ a ≤ boundLimit ∧
    (max = .infinity ∧ a ≤ 1 ∨ ∃ b : Nat, max = .int b)

theorem Repeats.valid {min max : Number} (h : Repeats min max) : ValidBounds min max := by
  obtain ⟨a, rfl, -, ⟨rfl, -⟩ | ⟨b, rfl⟩⟩ := h
  · exact ⟨Number.isNat_int a, .inl rfl⟩
  · exact ⟨Number.isNat_int a, .inr (Number.isNat_int b)⟩

theorem Repeats.of_valid {min max : Number} (h : ValidBounds min max) (hle : min.le 1) :
    Repeats min max := by
  obtain ⟨hmin, hmax⟩ := h
  obtain ⟨a, rfl⟩ := Number.isNat_iff.1 hmin
  have ha : a ≤ 1 := Number.le_one_iff.1 hle
  refine ⟨a, rfl, Nat.le_trans ha (by decide), ?_⟩
  rcases hmax with rfl | hmax
  · exact .inl ⟨rfl, ha⟩
  · exact .inr (Number.isNat_iff.1 hmax)

theorem repeats_int (a b : Nat) (ha : a ≤ boundLimit) : Repeats (.int a) (.int b) :=
  ⟨a, rfl, ha, .inr ⟨b, rfl⟩⟩

theorem repeats_infinity (a : Nat) (ha : a ≤ 1) : Repeats (.int a) .infinity :=
  ⟨a, rfl, Nat.le_trans ha (by decide), .inl ⟨rfl, ha⟩⟩

theorem repeats_zero_one : Repeats 0 1 := repeats_int 0 1 (by decide)

theorem repeats_one_one : Repeats 1 1 := repeats_int 1 1 (by decide)

/-- Lower bounds of at most one have a product of at most one. -/
theorem Repeats.mul {min max min' max' : Number} (h : Repeats min max) (h' : Repeats min' max')
    (hle : min.le 1) (hle' : min'.le 1) :
    ValidBounds (min.mul min') (max.mulMax max') ∧ (min.mul min').le 1 := by
  have hmax := Number.isNat_or_infinity_mulMax h.valid.2 h'.valid.2
  obtain ⟨a, rfl, -⟩ := h
  obtain ⟨b, rfl, -⟩ := h'
  have ha : a ≤ 1 := Number.le_one_iff.1 hle
  have hb : b ≤ 1 := Number.le_one_iff.1 hle'
  rw [Number.mul_of_le_one ha hb]
  exact ⟨⟨Number.isNat_int _, hmax⟩, Number.le_one_iff.2 (Nat.mul_le_mul ha hb)⟩

/-- A product of bounds is one and one only when both factors are. -/
theorem Repeats.one_of_mul {min max min' max' : Number} (h : Repeats min max)
    (h' : Repeats min' max') (hle : min.le 1) (hle' : min'.le 1) (hmin : min.mul min' = 1)
    (hmax : max.mulMax max' = 1) : min = 1 ∧ max = 1 := by
  refine ⟨?_, (Number.eq_one_of_mulMax h.valid.2 h'.valid.2 hmax).1⟩
  obtain ⟨a, rfl, -⟩ := h
  obtain ⟨b, rfl, -⟩ := h'
  rw [Number.mul_of_le_one (Number.le_one_iff.1 hle) (Number.le_one_iff.1 hle')] at hmin
  have hprod : a * b = 1 := Int.ofNat.inj (Number.int.inj hmin)
  rw [Nat.eq_one_of_mul_eq_one_right hprod]
  rfl

end Matcher

/-! ## Kinds that the grammar gives -/

namespace Grammar

variable (g : Grammar)

/-- The kind of a leaf with a given text, or without one: that of a literal or of a token name. -/
def GivesToken (value? : Option Text) (token? : Option Number) : Prop :=
  match value? with
  | some v => (g.literalKind v).result = .ok token?
  | none => ∃ t, (t, token?) ∈ g.tokenNames

/-- The kind of a node: any, or that of a symbol which a name without details stands for. -/
def GivesSymbol (symbol? : Option Number) : Prop :=
  symbol? = none ∨ ∃ s k, s.isName ∧ s.isUpperCase = false ∧ s ≠ anySymbol ∧
    s.head? ≠ some CodeUnit.underscore ∧ g.symbolKind? s = some k ∧ symbol? = some (.int k)

end Grammar

/-! ## The shape -/

namespace Matcher

variable {g : Grammar}

/-- The shape of what a pattern compiles to. -/
inductive Shaped (g : Grammar) : Matcher → Prop where
  | leaf {token? : Option Number} {value? name? : Option Text} (ht : g.GivesToken value? token?)
      (hn : Named name?) : Shaped g (leaf token? value? name?)
  | bare {symbol? : Option Number} {name? : Option Text} (hs : g.GivesSymbol symbol?)
      (hn : Named name?) : Shaped g (node symbol? none name?)
  | node {symbol? : Option Number} {content : Matcher} {name? : Option Text}
      (hs : g.GivesSymbol symbol?) (hn : Named name?) (hc : Shaped g content) :
      Shaped g (node symbol? (some [content]) name?)
  | negated {inner : Matcher} {name? : Option Text} (hn : Named name?) (hi : Shaped g inner) :
      Shaped g (negated inner name?)
  | repeated {m : Matcher} {min max : Number} {name? : Option Text} (hn : Named name?)
      (hb : Repeats min max) (hone : ¬(min = 1 ∧ max = 1)) (hmerge : ¬Merges min name? m)
      (hm : Shaped g m) : Shaped g (wildcard [[m]] min max name?)
  | sequence {ms : List Matcher} {min max : Number} {name? : Option Text} (hn : Named name?)
      (hb : ValidBounds min max) (hle : min.le 1) (htwo : 2 ≤ ms.length)
      (hms : ∀ m ∈ ms, Shaped g m) : Shaped g (wildcard [ms] min max name?)
  | choice {ms : List Matcher} {min max : Number} {name? : Option Text} (hn : Named name?)
      (hb : ValidBounds min max) (hle : min.le 1) (htwo : 2 ≤ ms.length)
      (hms : ∀ m ∈ ms, Shaped g m) : Shaped g (wildcard (ms.map fun m => [m]) min max name?)

theorem singles_ne {ms : List Matcher} (h : 2 ≤ ms.length) (m : Matcher) :
    (ms.map fun m => [m]) ≠ [[m]] := by
  intro heq
  have hlen := congrArg List.length heq
  rw [List.length_map] at hlen
  simp only [List.length_cons, List.length_nil] at hlen
  omega

theorem sequence_ne {ms : List Matcher} (h : 2 ≤ ms.length) (m : Matcher) : [ms] ≠ [[m]] := by
  intro heq
  cases heq
  simp at h

/-- Nothing is redundant at the top of a shaped matcher. -/
theorem Shaped.settled {m : Matcher} (h : Shaped g m) : Settled m := by
  cases h with
  | leaf => exact settled_leaf _ _ _
  | bare => exact settled_node _ _ _
  | node => exact settled_node _ _ _
  | negated => exact settled_negated _ _
  | repeated _ _ hone hmerge =>
    exact settled_wildcard_single (fun hc => hone ⟨hc.1, hc.2.1⟩) hmerge
  | sequence _ _ _ htwo => exact settled_wildcard_of_ne (sequence_ne htwo) _ _ _
  | choice _ _ _ htwo => exact settled_wildcard_of_ne (singles_ne htwo) _ _ _

theorem finish_of_settled {m : Matcher} (h : Settled m) : m.finish = .value m := by
  rw [finish, normalize_of_settled h]

private theorem finish_step {m m' : Matcher} (h : collapse m = .ok (some m')) :
    m.finish = m'.finish := by
  rw [finish, finish, normalize_step h]

theorem Shaped.valid {as : List (List Matcher)} {min max : Number} {n : Option Text}
    (h : Shaped g (wildcard as min max n)) : ValidBounds min max := by
  cases h with
  | repeated _ hb => exact hb.valid
  | sequence _ hb => exact hb
  | choice _ hb => exact hb

/-- Where a wildcard around a shaped matcher merges with it, the merged wildcard is shaped. -/
private theorem Shaped.merged {as : List (List Matcher)} {min max min' max' : Number}
    {n : Option Text}
    (h : Shaped g (wildcard as min' max' n)) (hb : Repeats min max) (hle : min.le 1)
    (hle' : min'.le 1) (hone : ¬(min = 1 ∧ max = 1)) :
    Shaped g (wildcard as (min.mul min') (max.mulMax max') n) := by
  cases h with
  | @repeated m _ _ _ hn hb' hone' hmerge hm =>
    have hprod := hb.mul hb' hle hle'
    refine .repeated hn (.of_valid hprod.1 hprod.2) ?_ ?_ hm
    · exact fun hc => hone (hb.one_of_mul hb' hle hle' hc.1 hc.2)
    · intro hc
      cases m with
      | wildcard as' a b n' => exact hmerge ⟨hle', hc.2⟩
      | _ => exact hc
  | sequence hn hb' _ htwo hms =>
    have hprod := hb.mul (.of_valid hb' hle') hle hle'
    exact .sequence hn hprod.1 hprod.2 htwo hms
  | choice hn hb' _ htwo hms =>
    have hprod := hb.mul (.of_valid hb' hle') hle hle'
    exact .choice hn hprod.1 hprod.2 htwo hms

/-- A wildcard around a matcher, merged with it where it is a wildcard of the same name and both
lower bounds are at most one. -/
def around (m : Matcher) (min max : Number) (name? : Option Text) : Matcher :=
  match m with
  | wildcard as min' max' name'? =>
    if min.le 1 ∧ min'.le 1 ∧ name'? = name? then
      wildcard as (min.mul min') (max.mulMax max') name?
    else wildcard [[wildcard as min' max' name'?]] min max name?
  | m => wildcard [[m]] min max name?

theorem around_of_merges {as : List (List Matcher)} {min max min' max' : Number}
    {name? : Option Text} (hle : min.le 1) (hle' : min'.le 1) :
    (wildcard as min' max' name?).around min max name? =
      wildcard as (min.mul min') (max.mulMax max') name? :=
  if_pos ⟨hle, hle', rfl⟩

theorem around_of_not_merges {m : Matcher} {min max : Number} {name? : Option Text}
    (h : ¬Merges min name? m) : m.around min max name? = wildcard [[m]] min max name? := by
  cases m with
  | wildcard as min' max' name'? => exact if_neg h
  | _ => rfl

/-- A wildcard around a shaped matcher finishes merged with it, or as it is. -/
theorem finish_around {m : Matcher} {min max : Number} {name? : Option Text} (hm : Shaped g m)
    (hb : Repeats min max) (hone : ¬(min = 1 ∧ max = 1)) :
    (wildcard [[m]] min max name?).finish = .value (m.around min max name?) := by
  by_cases hmerge : Merges min name? m
  · cases m with
    | wildcard as min' max' name'? =>
      obtain ⟨hle, hle', rfl⟩ := hmerge
      have hvalid := (hb.mul (.of_valid hm.valid hle') hle hle').1
      rw [around_of_merges hle hle', finish_step (collapse_of_merges hone hle hle' hvalid),
        finish_of_settled (hm.merged hb hle hle' hone).settled]
    | _ => exact absurd hmerge (fun h => h)
  · rw [around_of_not_merges hmerge]
    exact finish_of_settled (settled_wildcard_single (fun hc => hone ⟨hc.1, hc.2.1⟩) hmerge)

theorem Shaped.around {m : Matcher} {min max : Number} {name? : Option Text} (hm : Shaped g m)
    (hn : Named name?) (hb : Repeats min max) (hone : ¬(min = 1 ∧ max = 1)) :
    Shaped g (m.around min max name?) := by
  by_cases hmerge : Merges min name? m
  · cases m with
    | wildcard as min' max' name'? =>
      obtain ⟨hle, hle', rfl⟩ := hmerge
      rw [around_of_merges hle hle']
      exact hm.merged hb hle hle' hone
    | _ => exact absurd hmerge (fun h => h)
  · rw [around_of_not_merges hmerge]
    exact .repeated hn hb hone hmerge hm

/-- A wildcard around a shaped matcher finishes as a shaped matcher. -/
theorem exists_finish_repeated {m : Matcher} {min max : Number} {name? : Option Text}
    (hm : Shaped g m) (hn : Named name?) (hb : Repeats min max) (hone : ¬(min = 1 ∧ max = 1)) :
    ∃ m', (wildcard [[m]] min max name?).finish = .value m' ∧ Shaped g m' :=
  ⟨_, finish_around hm hb hone, hm.around hn hb hone⟩

/-- A shaped matcher, or a wildcard around one that may still be redundant. -/
inductive Unfinished (g : Grammar) : Matcher → Prop where
  | shaped {m : Matcher} (hm : Shaped g m) : Unfinished g m
  | repeated {m : Matcher} {min max : Number} (hb : Repeats min max)
      (hone : ¬(min = 1 ∧ max = 1)) (hm : Shaped g m) :
      Unfinished g (wildcard [[m]] min max none)

theorem Unfinished.exists_finish {m : Matcher} (h : Unfinished g m) :
    ∃ m', m.finish = .value m' ∧ Shaped g m' := by
  cases h with
  | shaped hm => exact ⟨m, finish_of_settled hm.settled, hm⟩
  | repeated hb hone hm => exact exists_finish_repeated hm named_none hb hone

/-- A matcher under a capture name. The name may make a wildcard merge with what it is around. -/
def titled (n : Text) : Matcher → Matcher
  | wildcard [[m]] min max _ => m.around min max (some n)
  | m => m.withName n

theorem titled_of_ne {as : List (List Matcher)} {min max : Number} {name? : Option Text}
    (h : ∀ m, as ≠ [[m]]) (n : Text) :
    titled n (wildcard as min max name?) = wildcard as min max (some n) := by
  unfold titled
  split
  · next heq =>
    cases heq
    exact absurd rfl (h _)
  · rfl

theorem Shaped.finish_withName {m : Matcher} (h : Shaped g m) (n : Text) :
    (m.withName n).finish = .value (m.titled n) := by
  cases h with
  | leaf => exact finish_of_settled (settled_leaf _ _ _)
  | bare => exact finish_of_settled (settled_node _ _ _)
  | node => exact finish_of_settled (settled_node _ _ _)
  | negated => exact finish_of_settled (settled_negated _ _)
  | repeated _ hb hone _ hm => exact finish_around hm hb hone
  | sequence _ _ _ htwo =>
    rw [titled_of_ne (sequence_ne htwo)]
    exact finish_of_settled (settled_wildcard_of_ne (sequence_ne htwo) _ _ _)
  | choice _ _ _ htwo =>
    rw [titled_of_ne (singles_ne htwo)]
    exact finish_of_settled (settled_wildcard_of_ne (singles_ne htwo) _ _ _)

theorem Shaped.titled {m : Matcher} (h : Shaped g m) {n : Text} (hn : n.isName) :
    Shaped g (m.titled n) := by
  have hname : Named (some n) := named_some hn
  cases h with
  | leaf ht => exact .leaf ht hname
  | bare hs => exact .bare hs hname
  | node hs _ hc => exact .node hs hname hc
  | negated _ hi => exact .negated hname hi
  | repeated _ hb hone _ hm => exact hm.around hname hb hone
  | sequence _ hb hle htwo hms =>
    rw [titled_of_ne (sequence_ne htwo)]
    exact .sequence hname hb hle htwo hms
  | choice _ hb hle htwo hms =>
    rw [titled_of_ne (singles_ne htwo)]
    exact .choice hname hb hle htwo hms

private theorem Shaped.exists_finish_withName {m : Matcher} (h : Shaped g m) {n : Text}
    (hn : n.isName) :
    ∃ m', (m.withName n).finish = .value m' ∧ Shaped g m' :=
  ⟨_, h.finish_withName n, h.titled hn⟩

/-- Under a capture name, or under none, an unfinished matcher finishes as a shaped one. -/
theorem Unfinished.exists_captured {m : Matcher} (h : Unfinished g m) {capture? : Option Capture}
    (hc : ∀ c ∈ capture?, c.name.text.isName) :
    ∃ m', m.captured capture? = .value m' ∧ Shaped g m' := by
  cases capture? with
  | none => exact h.exists_finish
  | some c =>
    have hn : c.name.text.isName := hc c rfl
    cases h with
    | shaped hm => exact hm.exists_finish_withName hn
    | repeated hb hone hm => exact exists_finish_repeated hm (named_some hn) hb hone

/-! ## Sequences and choices -/

theorem repeating_of_valid {as : List (List Matcher)} {min max : Number}
    (h : ValidBounds min max) : repeating as min max = .value (wildcard as min max none) := by
  rw [repeating, wildcard?_eq_ok_iff.2 h]

theorem inSequence_of_two {ms : List Matcher} (h : 2 ≤ ms.length) :
    inSequence ms = .value (wildcard [ms] 1 1 none) := by
  rw [inSequence, repeating_of_valid repeats_one_one.valid, Outcome.bind_eq_andThen,
    Outcome.value_andThen, finish_of_settled (settled_wildcard_of_ne (sequence_ne h) _ _ _)]
  rintro m rfl
  simp at h

theorem oneOf_of_two {ms : List Matcher} (h : 2 ≤ ms.length) :
    oneOf ms = .value (wildcard (ms.map fun m => [m]) 1 1 none) := by
  rw [oneOf, repeating_of_valid repeats_one_one.valid, Outcome.bind_eq_andThen,
    Outcome.value_andThen, finish_of_settled (settled_wildcard_of_ne (singles_ne h) _ _ _)]
  rintro m rfl
  simp at h

/-- A settled matcher under a repeater; repeated exactly once it stays as it is. -/
theorem result_repeatMatcher {m : Matcher} {children : List Tree} {min max : Number}
    (hm : Settled m) (hb : boundsOf children = .ok (min, max)) (hv : ValidBounds min max) :
    (Grammar.repeatMatcher m children).result =
      .ok (if min = 1 ∧ max = 1 then m else wildcard [[m]] min max none) := by
  rw [Grammar.result_repeatMatcher_of_bounds hb]
  split
  · rfl
  · rw [finish_of_settled hm, Outcome.value_andThen, repeating_of_valid hv]
    rfl

/-- What a sequence compiles to on its own. -/
def sequenceOf (ms : List Matcher) : Matcher :=
  match ms with
  | [m] => m
  | ms => wildcard [ms] 1 1 none

theorem inSequence_eq {ms : List Matcher} (h : ms ≠ []) :
    inSequence ms = .value (sequenceOf ms) := by
  match ms, h with
  | [m], _ => rfl
  | m :: m' :: ms, _ => exact inSequence_of_two (by simp)

theorem Shaped.sequenceOf {ms : List Matcher} (hne : ms ≠ []) (hms : ∀ m ∈ ms, Shaped g m) :
    Shaped g (sequenceOf ms) := by
  match ms, hne with
  | [m], _ => exact hms m (by simp)
  | m :: m' :: ms, _ => exact .sequence named_none repeats_one_one.valid rfl (by simp) hms

theorem exists_inSequence {ms : List Matcher} (hne : ms ≠ []) (hms : ∀ m ∈ ms, Shaped g m) :
    ∃ m, inSequence ms = .value m ∧ Shaped g m :=
  ⟨_, inSequence_eq hne, .sequenceOf hne hms⟩

/-- What a choice between matchers compiles to. -/
def choiceOf (ms : List Matcher) : Matcher :=
  match ms with
  | [m] => m
  | ms => wildcard (ms.map fun m => [m]) 1 1 none

theorem oneOf_eq {ms : List Matcher} (h : ms ≠ []) : oneOf ms = .value (choiceOf ms) := by
  match ms, h with
  | [m], _ => rfl
  | m :: m' :: ms, _ => exact oneOf_of_two (by simp)

theorem Shaped.choiceOf {ms : List Matcher} (hne : ms ≠ []) (hms : ∀ m ∈ ms, Shaped g m) :
    Shaped g (choiceOf ms) := by
  match ms, hne with
  | [m], _ => exact hms m (by simp)
  | m :: m' :: ms, _ => exact .choice named_none repeats_one_one.valid rfl (by simp) hms

theorem exists_oneOf {ms : List Matcher} (hne : ms ≠ []) (hms : ∀ m ∈ ms, Shaped g m) :
    ∃ m, oneOf ms = .value m ∧ Shaped g m :=
  ⟨_, oneOf_eq hne, .choiceOf hne hms⟩

end Matcher

end TreeMatcher
