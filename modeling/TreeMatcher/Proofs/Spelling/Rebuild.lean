import TreeMatcher.Proofs.Spelling.Regroup
import TreeMatcher.Proofs.Spelling.Repeater

/-!
# What a spelling compiles to

A matcher that is put together by hand may have any shape, while patterns compile to some shapes
only. Spelled and compiled again, matchers in a row in a node or among others in a choice are a
wildcard of their own, a wildcard that stands exactly once gives way to what is in it, and wildcards
around each other are merged.

* `Writable g m` — the matcher is written with names, literals and bounds that stand for it.
* `Matcher.rebuild` — what the spelling of a writable matcher compiles to.

## Main results

* `Writable.shaped_rebuild` — what a writable matcher is rebuilt as has the shape of what patterns
  compile to.
* `Shaped.rebuild_eq_regroup` — a compiled matcher is rebuilt as it is regrouped.
-/

namespace TreeMatcher

open Grammar

/-! ## Bounds -/

namespace Matcher

theorem isBeyond_iff {as : List (List Matcher)} {a : Nat} {b? : Option Nat} {n : Option Text} :
    IsBeyond (wildcard as (.int a) (upperBound b?) n) ↔
      boundLimit < a ∨ ∃ b ∈ b?, boundLimit < b := by
  constructor
  · rintro ⟨k, hk, hmin | hmax⟩
    · rw [int_eq_iff.1 hmin]
      exact .inl hk
    · cases b? with
      | none => cases hmax
      | some b => exact .inr ⟨b, rfl, by rwa [int_eq_iff.1 hmax]⟩
  · rintro (ha | ⟨b, rfl, hb⟩)
    · exact ⟨a, ha, .inl rfl⟩
    · exact ⟨b, hb, .inr rfl⟩

theorem upperBound_eq_one_iff {b? : Option Nat} : upperBound b? = 1 ↔ b? = some 1 := by
  cases b? with
  | none => simp [upperBound]
  | some b => exact int_eq_iff.trans (by simp)

theorem bounds_eq_one_iff {a : Nat} {b? : Option Nat} :
    (Number.int a = 1 ∧ upperBound b? = 1) ↔ (a = 1 ∧ b? = some 1) :=
  and_congr int_eq_iff upperBound_eq_one_iff

theorem repeats_upperBound {a : Nat} {b? : Option Nat} (hinf : b? = none → a ≤ 1)
    (ha : a ≤ boundLimit) : Repeats (.int a) (upperBound b?) := by
  cases b? with
  | none => exact repeats_infinity a (hinf rfl)
  | some b => exact repeats_int a b ha

/-- Bounds as repeaters have them, as numbers that a repeater is written for. -/
private theorem Repeats.exists_bounds {min max : Number} (h : Repeats min max) :
    ∃ (a : Nat) (b? : Option Nat), min = .int a ∧ max = upperBound b? ∧ (b? = none → a ≤ 1) := by
  obtain ⟨a, hmin, -, ⟨hmax, hle⟩ | ⟨b, hmax⟩⟩ := h
  · exact ⟨a, none, hmin, hmax, fun _ => hle⟩
  · exact ⟨a, some b, hmin, hmax, by simp⟩

/-- Bounds that are written and read again. -/
private theorem Repeats.mul_one {min max : Number} (h : Repeats min max) (hle : min.le 1)
    (hb : ∀ n : Nat, max = .int n → n ≤ boundLimit) :
    min.mul 1 = min ∧ max.mulMax 1 = max := by
  obtain ⟨a, rfl, -, hmax⟩ := h
  constructor
  · have := Number.mul_of_le_one (Number.le_one_iff.1 hle) (Nat.le_refl 1)
    rwa [Nat.mul_one] at this
  · refine Number.mulMax_one ?_
    rcases hmax with ⟨rfl, -⟩ | ⟨b, rfl⟩
    · exact .inl rfl
    · exact .inr ⟨b, rfl, Nat.le_trans (hb b rfl) (by decide)⟩

/-! ## Rebuilding -/

/-- What a wildcard compiles to whose body compiles to a given matcher. -/
def wrapped (m : Matcher) (min max : Number) (name? : Option Text) : Matcher :=
  if min = 1 ∧ max = 1 then
    match name? with
    | none => m
    | some n => m.titled n
  else m.around min max name?

theorem wrapped_of_ne {m : Matcher} {min max : Number} {name? : Option Text}
    (hone : ¬(min = 1 ∧ max = 1)) : m.wrapped min max name? = m.around min max name? := if_neg hone

mutual

/-- What the spelling of a matcher compiles to. -/
def rebuild : Matcher → Matcher
  | leaf token? value? name? => leaf token? value? name?
  | node symbol? none name? => node symbol? none name?
  | node symbol? (some content) name? =>
    node symbol? (some [sequenceOf (rebuildAll content)]) name?
  | wildcard as min max name? => (choiceOf (rebuildEach as)).wrapped min max name?
  | negated inner name? => negated (rebuild inner) name?

/-- What the spellings of the matchers of a sequence compile to. -/
def rebuildAll : List Matcher → List Matcher
  | [] => []
  | m :: ms => rebuild m :: rebuildAll ms

/-- What the spellings of alternatives compile to. -/
def rebuildEach : List (List Matcher) → List Matcher
  | [] => []
  | s :: as => sequenceOf (rebuildAll s) :: rebuildEach as

end

/-- What the alternatives of a wildcard compile to. -/
def bodyOf (as : List (List Matcher)) : Matcher :=
  choiceOf (as.map fun s => sequenceOf (s.map rebuild))

private theorem rebuildAll_eq_map (ms : List Matcher) : rebuildAll ms = ms.map rebuild := by
  induction ms with
  | nil => rfl
  | cons m ms ih => rw [rebuildAll, ih, List.map_cons]

private theorem rebuildEach_eq_map (as : List (List Matcher)) :
    rebuildEach as = as.map fun s => sequenceOf (s.map rebuild) := by
  induction as with
  | nil => rfl
  | cons s as ih => rw [rebuildEach, ih, rebuildAll_eq_map, List.map_cons]

theorem rebuild_node (symbol? : Option Number) (content : List Matcher) (name? : Option Text) :
    (node symbol? (some content) name?).rebuild =
      node symbol? (some [sequenceOf (content.map rebuild)]) name? := by
  rw [rebuild, rebuildAll_eq_map]

theorem rebuild_wildcard (as : List (List Matcher)) (min max : Number) (name? : Option Text) :
    (wildcard as min max name?).rebuild = (bodyOf as).wrapped min max name? := by
  rw [rebuild, rebuildEach_eq_map, bodyOf]

/-! ## Writable matchers -/

variable {g : Grammar}

/-- A matcher that is written with what a pattern has for it: names, kinds that literals and names
stand for, at least one matcher in a row and one alternative, and bounds of repeaters. -/
inductive Writable (g : Grammar) : Matcher → Prop where
  | leaf {token? : Option Number} {value? name? : Option Text} (ht : g.GivesToken value? token?)
      (hn : Named name?) : Writable g (leaf token? value? name?)
  | bare {symbol? : Option Number} {name? : Option Text} (hs : g.GivesSymbol symbol?)
      (hn : Named name?) : Writable g (node symbol? none name?)
  | node {symbol? : Option Number} {content : List Matcher} {name? : Option Text}
      (hs : g.GivesSymbol symbol?) (hn : Named name?) (hne : content ≠ [])
      (hc : ∀ m ∈ content, Writable g m) : Writable g (node symbol? (some content) name?)
  | negated {inner : Matcher} (hi : Writable g inner) : Writable g (negated inner none)
  | wildcard {as : List (List Matcher)} {a : Nat} {b? : Option Nat} {name? : Option Text}
      (hn : Named name?) (hinf : b? = none → a ≤ 1) (hne : as ≠ []) (hnes : ∀ s ∈ as, s ≠ [])
      (has : ∀ s ∈ as, ∀ m ∈ s, Writable g m) :
      Writable g (wildcard as (.int a) (upperBound b?) name?)

private theorem Shaped.wrapped {m : Matcher} {min max : Number} {name? : Option Text}
    (hm : Shaped g m)
    (hn : Named name?) (hb : Repeats min max) : Shaped g (m.wrapped min max name?) := by
  by_cases hone : min = 1 ∧ max = 1
  · obtain ⟨rfl, rfl⟩ := hone
    cases name? with
    | none => exact hm
    | some n => exact hm.titled (hn n rfl)
  · rw [wrapped_of_ne hone]
    exact hm.around hn hb hone

/-- Alternatives of shaped matchers have a shaped body. -/
theorem Shaped.bodyOf {as : List (List Matcher)} (hne : as ≠ []) (hnes : ∀ s ∈ as, s ≠ [])
    (has : ∀ s ∈ as, ∀ m ∈ s, Shaped g m.rebuild) : Shaped g (bodyOf as) := by
  refine .choiceOf (by simpa using hne) ?_
  rw [List.forall_mem_map]
  intro s hs
  refine .sequenceOf (by simpa using hnes s hs) ?_
  rw [List.forall_mem_map]
  exact has s hs

/-- What a writable matcher is rebuilt as has the shape of what patterns compile to. -/
theorem Writable.shaped_rebuild {m : Matcher} (h : Writable g m) (hb : ¬Contains IsBeyond m) :
    Shaped g m.rebuild := by
  induction h with
  | leaf ht hn => exact .leaf ht hn
  | bare hs hn => exact .bare hs hn
  | @node symbol? content name? hs hn hne hc ih =>
    rw [contains_node, not_or] at hb
    rw [rebuild_node]
    refine .node hs hn (.sequenceOf (by simpa using hne) ?_)
    rw [List.forall_mem_map]
    exact fun m hm => ih m hm fun hc => hb.2 ⟨m, hm, hc⟩
  | negated hi ih =>
    rw [contains_negated, not_or] at hb
    exact .negated named_none (ih hb.2)
  | @wildcard as a b? name? hn hinf hne hnes has ih =>
    rw [contains_wildcard, isBeyond_iff, not_or, not_or] at hb
    rw [rebuild_wildcard]
    refine .wrapped (.bodyOf hne hnes fun s hs m hm => ?_) hn
      (repeats_upperBound hinf (Nat.le_of_not_lt hb.1.1))
    exact ih s hs m hm fun hc => hb.2 ⟨s, hs, m, hm, hc⟩

/-! ## Compiled matchers -/

/-- A group of more than a single matcher is a wildcard of its own only under a repeater with a
name. -/
private theorem wrapped_group {as : List (List Matcher)} {min max : Number} {name? : Option Text}
    (hsole : isSole as = false) (hb : ValidBounds min max) (hle : min.le 1)
    (hlimit : ∀ n : Nat, max = .int n → n ≤ boundLimit) :
    (wildcard as 1 1 none).wrapped min max name? =
      if name?.isSome ∧ ¬(min = 1 ∧ max = 1) then wildcard [[wildcard as 1 1 none]] min max name?
      else wildcard as min max name? := by
  by_cases hone : min = 1 ∧ max = 1
  · obtain ⟨rfl, rfl⟩ := hone
    rw [if_neg (by simp)]
    cases name? with
    | none => rfl
    | some n => exact titled_of_ne (isSole_eq_false_iff.1 hsole) n
  · rw [wrapped_of_ne hone]
    cases name? with
    | none =>
      obtain ⟨hmin, hmax⟩ := (Repeats.of_valid hb hle).mul_one hle hlimit
      rw [around_of_merges hle rfl, hmin, hmax, if_neg (by simp)]
    | some n => rw [around_of_not_merges (by simp [Merges]), if_pos ⟨rfl, hone⟩]

private theorem Shaped.repeats {as : List (List Matcher)} {min max : Number} {name? : Option Text}
    (h : Shaped g (wildcard as min max name?)) : Repeats min max := by
  cases h with
  | repeated _ hb => exact hb
  | sequence _ hb hle => exact .of_valid hb hle
  | choice _ hb hle => exact .of_valid hb hle

private theorem Shaped.named {m : Matcher} (h : Shaped g m) : Named m.name? := by
  cases h <;> assumption

private theorem Shaped.alternatives_ne_nil {as : List (List Matcher)} {min max : Number}
    {n : Option Text} (h : Shaped g (wildcard as min max n)) : as ≠ [] ∧ ∀ ms ∈ as, ms ≠ [] := by
  cases h with
  | repeated => simp
  | sequence _ _ _ htwo =>
    refine ⟨by simp, ?_⟩
    intro ms hms
    rw [List.mem_singleton] at hms
    exact List.ne_nil_of_length_pos (by rw [hms]; omega)
  | choice _ _ _ htwo =>
    refine ⟨fun hnil => ?_, by simp⟩
    rw [List.map_eq_nil_iff] at hnil
    simp [hnil] at htwo

/-- A shaped wildcard around writable matchers is writable. -/
private theorem Shaped.writable_wildcard {as : List (List Matcher)} {min max : Number}
    {name? : Option Text} (h : Shaped g (wildcard as min max name?))
    (has : ∀ s ∈ as, ∀ m ∈ s, Writable g m) : Writable g (wildcard as min max name?) := by
  obtain ⟨hne, hnes⟩ := h.alternatives_ne_nil
  have hn := h.named
  obtain ⟨a, b?, rfl, rfl, hinf⟩ := h.repeats.exists_bounds
  exact .wildcard hn hinf hne hnes has

/-- A compiled matcher is writable, but for negations with a name. -/
theorem Shaped.writable {m : Matcher} (h : Shaped g m) (hneg : ¬Contains IsNamedNegation m) :
    Writable g m := by
  induction h with
  | leaf ht hn => exact .leaf ht hn
  | bare hs hn => exact .bare hs hn
  | node hs hn _ ih =>
    rw [contains_node, not_or] at hneg
    exact .node hs hn (by simp) (by simpa using ih fun hc => hneg.2 ⟨_, by simp, hc⟩)
  | negated hn hi ih =>
    rw [contains_negated, not_or] at hneg
    obtain rfl : _ = none := Option.not_isSome_iff_eq_none.1 hneg.1
    exact .negated (ih hneg.2)
  | repeated hn hb hone hmerge hm ih =>
    rw [contains_wildcard, not_or] at hneg
    refine (Shaped.repeated hn hb hone hmerge hm).writable_wildcard ?_
    simpa using ih fun hc =>
      hneg.2 ⟨_, List.mem_singleton_self _, _, List.mem_singleton_self _, hc⟩
  | sequence hn hb hle htwo hms ih =>
    rw [contains_wildcard, not_or] at hneg
    refine (Shaped.sequence hn hb hle htwo hms).writable_wildcard ?_
    simpa using fun m hm => ih m hm fun hc => hneg.2 ⟨_, by simp, m, hm, hc⟩
  | choice hn hb hle htwo hms ih =>
    rw [contains_wildcard, not_or] at hneg
    refine (Shaped.choice hn hb hle htwo hms).writable_wildcard ?_
    simpa using fun m hm => ih m hm fun hc => hneg.2 ⟨[m], by simpa using hm, m, by simp, hc⟩

private theorem sequenceOf_of_two {ms : List Matcher} (h : 2 ≤ ms.length) :
    sequenceOf ms = wildcard [ms] 1 1 none := by
  match ms, h with
  | _ :: _ :: _, _ => rfl

private theorem choiceOf_of_two {ms : List Matcher} (h : 2 ≤ ms.length) :
    choiceOf ms = wildcard (ms.map fun m => [m]) 1 1 none := by
  match ms, h with
  | _ :: _ :: _, _ => rfl

/-- A shaped group is regrouped as its body is wrapped. -/
private theorem rebuild_eq_regroup_of_group {as : List (List Matcher)} {min max : Number}
    {name? : Option Text} (hbody : bodyOf as = wildcard (regroupEach as) 1 1 none)
    (hsole : isSole as = false) (hb : ValidBounds min max) (hle : min.le 1)
    (hbeyond : ¬IsBeyond (wildcard as min max name?)) :
    (wildcard as min max name?).rebuild = (wildcard as min max name?).regroup := by
  have hsole' : isSole (regroupEach as) = false := (isSole_regroupEach as).trans hsole
  have hlimit : ∀ n : Nat, max = .int n → n ≤ boundLimit := fun n hn =>
    Nat.le_of_not_lt fun hlt => hbeyond ⟨n, hlt, .inr hn⟩
  rw [rebuild_wildcard, hbody, wrapped_group hsole' hb hle hlimit, regroup]
  simp only [hsole, and_true]

/-- A compiled matcher is rebuilt as it is regrouped. -/
theorem Shaped.rebuild_eq_regroup {m : Matcher} (h : Shaped g m) (hb : ¬Contains IsBeyond m) :
    m.rebuild = m.regroup := by
  induction h with
  | leaf => rw [rebuild, regroup]
  | bare => rw [rebuild, regroup]
  | @node symbol? content name? hs hn hc ih =>
    rw [contains_node, not_or] at hb
    have hcontent := ih fun hc => hb.2 ⟨_, by simp, hc⟩
    rw [rebuild_node, regroup, regroupAll_eq_map, List.map_singleton, List.map_singleton,
      hcontent]
    rfl
  | negated hn hi ih =>
    rw [contains_negated, not_or] at hb
    rw [rebuild, regroup, ih hb.2]
  | @repeated m min max name? hn hbounds hone hmerge hm ih =>
    rw [contains_wildcard, not_or] at hb
    have hinner := ih fun hc =>
      hb.2 ⟨_, List.mem_singleton_self _, _, List.mem_singleton_self _, hc⟩
    have hbody : Matcher.bodyOf [[m]] = m.regroup := hinner
    rw [rebuild_wildcard, hbody, wrapped_of_ne hone,
      around_of_not_merges (mt merges_regroup.1 hmerge), regroup, if_neg (by simp [isSole])]
    rfl
  | @sequence ms min max name? hn hbounds hle htwo hms ih =>
    rw [contains_wildcard, not_or] at hb
    have heach : ms.map rebuild = ms.map regroup := List.map_congr_left fun m hm =>
      ih m hm fun hc => hb.2 ⟨ms, by simp, m, hm, hc⟩
    refine rebuild_eq_regroup_of_group ?_ (isSole_eq_false_iff.2 (sequence_ne htwo)) hbounds hle
      hb.1
    rw [Matcher.bodyOf, List.map_singleton, heach, sequenceOf_of_two (by rwa [List.length_map]),
      regroupEach_eq_map]
    rfl
  | @choice ms min max name? hn hbounds hle htwo hms ih =>
    rw [contains_wildcard, not_or] at hb
    have heach : ms.map rebuild = ms.map regroup := List.map_congr_left fun m hm =>
      ih m hm fun hc => hb.2 ⟨[m], by simpa using hm, m, by simp, hc⟩
    have hsingles : (ms.map fun m => [m]).map (fun s => Matcher.sequenceOf (s.map rebuild)) =
        ms.map regroup := by
      rw [← heach, List.map_map]
      rfl
    refine rebuild_eq_regroup_of_group ?_ (isSole_eq_false_iff.2 (singles_ne htwo)) hbounds hle
      hb.1
    rw [Matcher.bodyOf, hsingles, choiceOf_of_two (by rwa [List.length_map]), regroupEach_eq_map,
      List.map_map, List.map_map]
    rfl

end Matcher

end TreeMatcher
