import Mathlib.Data.List.Basic
import TreeMatcher.Proofs.Compile.Faults

/-!
# Compiling trees built by hand

A tree that was built by hand may have any shape, and compiling it looks up children by position.
Each look-up comes behind a check that the child is there, but for one: the second child of a
details clause. So compiling gives a matcher, a fault of the pattern or a fault in the shape of the
tree, unless it comes to a details clause without a second child.

* `Grammar.asked g k ts` — the children that a phrase compiles, in order, where they are there.
* `Grammar.Stumbles g t` — compiling `t` comes to a child that is missing.

## Main results

* `asks_phraseMatcher` — a phrase is guarded if all children asked for compile, and fails as the
  first one fails that does not.
* `Stumbles.result_eq`, `guarded_of_not_stumbles` — what compiling gives in either case.
* `matcherOfTree_guarded` — both, for every tree.
-/

namespace TreeMatcher

open Outcome Matcher

/-! ## The children that are compiled -/

namespace Grammar

variable (g : Grammar)

/-- What a child compiles to; a child that is missing is no fault that is guarded against. -/
def matcherOfChild (t? : Option Tree) : Outcome Matcher :=
  t?.elim (.fail .missingNode) g.matcherOfTree

/-- The child between the brackets of a group. -/
def askedBrackets : List Tree → List (Option Tree)
  | [_, t, _] => [some t]
  | _ => []

/-- The children of a details clause. -/
def detailsOf? : Tree → Option (List Tree)
  | .branch (.phrase .details) ts => some ts
  | _ => none

/-- The second child of a details clause behind a symbol of the grammar, if there is such a clause,
whether or not the child is there. -/
def askedDetails (l : Leaf) (t? : Option Tree) : List (Option Tree) :=
  match t?.bind detailsOf? with
  | some ts => if (g.symbolOf l).result.isOk then [ts[1]?] else []
  | none => []

/-- The children that a basic pattern compiles; `repeats` tells whether a repeater follows. -/
def askedBasic (repeats : Bool) (ts : List Tree) : List (Option Tree) :=
  match ts with
  | .leaf l :: rest =>
    match l.label with
    | .token .name => if l.value.isUpperCase then [] else g.askedDetails l rest.head?
    | .token .lpar => askedBrackets ts
    | .token .lsqb => if repeats then [] else askedBrackets ts
    | _ => []
  | _ => []

/-- The children that a unit compiles. -/
def askedUnit (ps : List Part) : List (Option Tree) :=
  match (takeCapture ps).result with
  | .ok (_, ps) => g.askedBasic (takeRepeater ps).1.isSome ((takeRepeater ps).2.map Part.tree)
  | .error _ => []

/-- The children that a phrase compiles, in order, where they are there. -/
def asked (k : Label) (ts : List Tree) : List (Option Tree) :=
  match k with
  | .phrase .matcher => ts.head?.toList.map some
  | .phrase .alternatives => ((everyOther (ts.map g.part)).map Part.tree).map some
  | .phrase .alternative => ts.map some
  | .phrase .negatedUnit => g.askedBasic false ts.tail
  | .phrase .unit => g.askedUnit (ts.map g.part)
  | _ => []

/-- A child compiles. -/
def Compiles (t? : Option Tree) : Prop := ∃ m, (g.matcherOfChild t?).result = .ok m

/-- A phrase comes to a child: the children that it compiles in front of that one compile. -/
def ComesTo (t? : Option Tree) (k : Label) (ts : List Tree) : Prop :=
  ∃ before after, g.asked k ts = before ++ t? :: after ∧ ∀ u? ∈ before, g.Compiles u?

/-- Compiling a tree comes to a child that is missing. -/
inductive Stumbles : Tree → Prop where
  | missing {k : Label} {ts : List Tree} (h : g.ComesTo none k ts) : Stumbles (.branch k ts)
  | inside {k : Label} {ts : List Tree} {t : Tree} (h : g.ComesTo (some t) k ts)
      (ht : Stumbles t) : Stumbles (.branch k ts)

/-! ## What a phrase owes to its children -/

/-- An outcome is guarded if all children asked for compile to valid matchers, and fails as the
first one fails that does not compile. -/
structure Asks {α : Type} (xs : List (Option Tree)) (P : α → Prop) (o : Outcome α) : Prop where
  guarded : (∀ x ∈ xs, ∃ m, (g.matcherOfChild x).result = .ok m ∧ m.Valid) → Guarded P o
  error : ∀ before x after e, xs = before ++ x :: after → (∀ y ∈ before, g.Compiles y) →
    (g.matcherOfChild x).result = .error e → o.result = .error e

section Asks

variable {g} {α β : Type} {P : α → Prop} {Q : β → Prop} {xs : List (Option Tree)}

/-- Without a child asked for, an outcome is guarded. -/
private theorem asks_nil {o : Outcome α} (h : Guarded P o) : g.Asks [] P o where
  guarded := fun _ => h
  error := by
    intro before x after e hsplit
    simp at hsplit

private theorem asks_child (x : Option Tree) : g.Asks [x] Valid (g.matcherOfChild x) where
  guarded := by
    intro h
    obtain ⟨m, hm, hvalid⟩ := h x List.mem_cons_self
    rw [Guarded, hm]
    exact hvalid
  error := by
    intro before y after e hsplit _ he
    obtain ⟨rfl, rfl, -⟩ := List.append_eq_singleton_iff.1 hsplit.symm |>.resolve_right (by simp)
    exact he

/-- A guarded step asks for nothing more. -/
private theorem Asks.andThen {o : Outcome α} {f : α → Outcome β} (h : g.Asks xs P o)
    (hf : ∀ a, P a → Guarded Q (f a)) : g.Asks xs Q (o.andThen f) where
  guarded := fun hxs => (h.guarded hxs).andThen hf
  error := by
    intro before x after e hsplit hbefore he
    have ho := h.error before x after e hsplit hbefore he
    rw [Outcome.andThen, ho]

/-- All children of a row are asked for. -/
private theorem asks_matchersOf (ts : List Tree) :
    g.Asks (ts.map some) (fun ms => ∀ m ∈ ms, Valid m) (matchersOf (ts.map g.part)) := by
  induction ts with
  | nil => exact asks_nil (by simp [matchersOf, Guarded, value])
  | cons t ts ih =>
    rw [List.map_cons, List.map_cons, matchersOf, bind_eq_andThen]
    show g.Asks _ _ ((g.matcherOfChild (some t)).andThen _)
    constructor
    · intro hxs
      rw [List.forall_mem_cons] at hxs
      obtain ⟨⟨m, hm, hvalid⟩, hrest⟩ := hxs
      rw [Guarded, result_andThen_of_ok hm]
      apply (ih.guarded hrest).andThen
      intro ms hms
      exact guarded_value (List.forall_mem_cons.2 ⟨hvalid, hms⟩)
    · intro before x after e hsplit hbefore he
      cases before with
      | nil =>
        obtain rfl := (List.cons.inj hsplit).1
        rw [Outcome.andThen, he]
      | cons y before =>
        obtain ⟨rfl, htail⟩ := List.cons.inj hsplit
        rw [List.forall_mem_cons] at hbefore
        obtain ⟨⟨m, hm⟩, hbefore⟩ := hbefore
        have hrest := ih.error before x after e htail hbefore he
        rw [result_andThen_of_ok hm, bind_eq_andThen, Outcome.andThen, hrest]

/-! ## Basic patterns -/

private theorem symbolOf_cases (l : Leaf) :
    (∃ s, g.symbolOf l = .value s) ∨ ∃ e, g.symbolOf l = .refuse e := by
  unfold symbolOf
  split
  · exact .inl ⟨none, rfl⟩
  · split
    · next k _ => exact .inl ⟨some (.int k), rfl⟩
    · exact .inr ⟨_, rfl⟩

private theorem detailsOf?_eq_some_iff {t : Tree} {ts : List Tree} :
    detailsOf? t = some ts ↔ t = .branch (.phrase .details) ts := by
  unfold detailsOf?
  split
  · simp
  · next h =>
    simp only [reduceCtorEq, false_iff]
    exact h ts

/-- The content of a details clause is its second child. -/
private theorem contentOf_details (ts : List Tree) :
    contentOf (g.part (.branch (.phrase .details) ts)) = g.matcherOfChild ts[1]? := by
  rw [contentOf, tree_part]
  show (g.part (.branch (.phrase .details) ts)).enclosed?.getD _ = _
  rw [enclosed?_part]
  cases ts[1]? <;> rfl

private theorem contentOf_of_not_details {t : Tree} (h : detailsOf? t = none) :
    contentOf (g.part t) = .misshapen .detailsExpected := by
  rw [contentOf, tree_part]
  split
  · cases h
  · rfl

private theorem asks_symbolMatcher (l : Leaf) (t? : Option Tree) :
    g.Asks (g.askedDetails l t?) Valid (g.symbolMatcher l (t?.map g.part)) := by
  rw [askedDetails, symbolMatcher]
  rcases symbolOf_cases (g := g) l with ⟨s, hs⟩ | ⟨e, he⟩
  · rw [hs, bind_eq_andThen, value_andThen]
    cases t? with
    | none => exact asks_nil (guarded_value (valid_bare s none))
    | some t =>
      dsimp only [Option.map_some, Option.bind_some]
      cases hdetails : detailsOf? t with
      | none =>
        rw [contentOf_of_not_details hdetails]
        exact asks_nil (guarded_misshapen _)
      | some ts =>
        obtain rfl := detailsOf?_eq_some_iff.1 hdetails
        rw [contentOf_details]
        apply (asks_child ts[1]?).andThen
        intro m hm
        exact guarded_value (hm.node s none)
  · rw [he]
    cases t?.bind detailsOf? with
    | none => exact asks_nil (guarded_refuse e)
    | some ts => exact asks_nil (guarded_refuse e)

private theorem askedBrackets_of_length_ne {ts : List Tree} (h : ts.length ≠ 3) :
    askedBrackets ts = [] := by
  unfold askedBrackets
  split
  · exact absurd rfl h
  · rfl

private theorem groupMatcher_of_length_ne {ps : List Part} (h : ps.length ≠ 3) :
    groupMatcher ps = .misshapen .malformedGroup := by
  unfold groupMatcher
  split
  · exact absurd rfl h
  · rfl

private theorem optionalMatcher_of_length_ne {ps : List Part} (h : ps.length ≠ 3) :
    optionalMatcher false ps = .misshapen .malformedOptional := by
  unfold optionalMatcher
  rw [if_neg Bool.false_ne_true]
  split
  · exact absurd rfl h
  · rfl

private theorem asks_groupMatcher (ts : List Tree) :
    g.Asks (askedBrackets ts) Valid (groupMatcher (ts.map g.part)) := by
  by_cases hlength : ts.length = 3
  · obtain ⟨l, t, r, rfl⟩ := List.length_eq_three.1 hlength
    exact asks_child (some t)
  · rw [askedBrackets_of_length_ne hlength, groupMatcher_of_length_ne (by simpa using hlength)]
    exact asks_nil (guarded_misshapen _)

private theorem asks_optionalMatcher (repeats : Bool) (ts : List Tree) :
    g.Asks (if repeats then [] else askedBrackets ts) Valid
      (optionalMatcher repeats (ts.map g.part)) := by
  cases repeats with
  | true => exact asks_nil (guarded_misshapen _)
  | false =>
    show g.Asks (askedBrackets ts) Valid (optionalMatcher false (ts.map g.part))
    by_cases hlength : ts.length = 3
    · obtain ⟨l, t, r, rfl⟩ := List.length_eq_three.1 hlength
      show g.Asks [some t] Valid ((g.matcherOfChild (some t)).andThen _)
      apply (asks_child (some t)).andThen
      intro m hm
      exact guarded_repeating (by simpa using hm) repeats_zero_one.valid
    · rw [askedBrackets_of_length_ne hlength,
        optionalMatcher_of_length_ne (by simpa using hlength)]
      exact asks_nil (guarded_misshapen _)

/-- A basic pattern asks for at most one child. -/
private theorem asks_basicMatcher (repeats : Bool) (ts : List Tree) :
    g.Asks (g.askedBasic repeats ts) Valid (g.basicMatcher repeats (ts.map g.part)) := by
  cases ts with
  | nil => exact asks_nil (guarded_misshapen _)
  | cons t rest =>
    cases t with
    | branch k us => exact asks_nil (guarded_misshapen _)
    | leaf l =>
      have hhead : (rest.map g.part).head? = rest.head?.map g.part := List.head?_map
      rw [askedBasic, List.map_cons, basicMatcher, tree_part]
      dsimp only
      cases l.label with
      | token kind =>
        cases kind with
        | string => exact asks_nil (guarded_literalMatcher g l)
        | name =>
          dsimp only
          by_cases hupper : l.value.isUpperCase
          · rw [if_pos hupper, if_pos hupper]
            exact asks_nil (guarded_tokenMatcher g l _)
          · rw [if_neg hupper, if_neg hupper, hhead]
            exact asks_symbolMatcher l rest.head?
        | lpar => exact asks_groupMatcher (.leaf l :: rest)
        | lsqb => exact asks_optionalMatcher repeats (.leaf l :: rest)
        | _ => exact asks_nil (guarded_misshapen _)
      | phrase p => exact asks_nil (guarded_misshapen _)
      | other t => exact asks_nil (guarded_misshapen _)

/-! ## Units -/

/-- Splitting off a capture name leaves some of the parts, or there is a fault. -/
private theorem takeCapture_cases (ps : List Part) :
    takeCapture ps = .misshapen .captureNotToken ∨
      ∃ name? qs, takeCapture ps = .value (name?, qs) ∧ qs ⊆ ps := by
  unfold takeCapture
  split
  · next p q r rest =>
    by_cases hequal : q.label = .token .equal
    · rw [if_pos hequal]
      split
      · exact .inr ⟨_, _, rfl, fun x hx => List.mem_cons_of_mem p (List.mem_cons_of_mem q hx)⟩
      · exact .inl rfl
    · rw [if_neg hequal]
      exact .inr ⟨_, _, rfl, List.Subset.refl _⟩
  · exact .inr ⟨_, _, rfl, List.Subset.refl _⟩

private theorem takeRepeater_subset (ps : List Part) : (takeRepeater ps).2 ⊆ ps := by
  unfold takeRepeater
  split
  · exact List.Subset.refl _
  · exact List.Subset.refl _
  · split
    · exact List.dropLast_subset _
    · exact List.Subset.refl _

/-- Parts that are among those of some trees are the parts of their trees. -/
private theorem map_part_of_subset {ps : List Part} {ts : List Tree} (h : ps ⊆ ts.map g.part) :
    (ps.map Part.tree).map g.part = ps := by
  have hpart : ∀ p ∈ ps, (g.part ∘ Part.tree) p = p := by
    intro p hp
    obtain ⟨t, -, rfl⟩ := List.mem_map.1 (h hp)
    show g.part (g.part t).tree = g.part t
    rw [tree_part]
  rw [List.map_map, List.map_congr_left hpart, List.map_id']

private theorem asks_unitMatcher (ts : List Tree) :
    g.Asks (g.askedUnit (ts.map g.part)) Valid (g.unitMatcher (ts.map g.part)) := by
  rw [askedUnit, unitMatcher]
  rcases takeCapture_cases (ts.map g.part) with hfault | ⟨name?, ps, hcapture, hps⟩
  · rw [hfault]
    exact asks_nil (guarded_misshapen _)
  · obtain ⟨repeater?, qs, hrepeater⟩ : ∃ r qs, takeRepeater ps = (r, qs) := ⟨_, _, rfl⟩
    have hqs : qs ⊆ ts.map g.part := by
      have hsubset := takeRepeater_subset ps
      rw [hrepeater] at hsubset
      exact List.Subset.trans hsubset hps
    have hbasic := asks_basicMatcher (g := g) repeater?.isSome (qs.map Part.tree)
    rw [map_part_of_subset hqs] at hbasic
    rw [hcapture]
    show g.Asks (g.askedBasic (takeRepeater ps).1.isSome ((takeRepeater ps).2.map Part.tree)) _ _
    simp only [bind_eq_andThen, value_andThen, hrepeater]
    apply hbasic.andThen
    intro m hm
    cases repeater? with
    | none => exact hm.guarded_named name?
    | some us =>
      apply (guarded_repeatMatcher hm us).andThen
      intro m hm
      exact hm.guarded_named name?

private theorem asks_negatedMatcher (ts : List Tree) :
    g.Asks (g.askedBasic false ts.tail) Valid (g.negatedMatcher (ts.map g.part)) := by
  rw [negatedMatcher, ← List.map_tail]
  apply (asks_basicMatcher false ts.tail).andThen
  intro m hm
  apply hm.guarded_finish.andThen
  intro inner hinner
  exact (hinner.negated none).guarded_finish

/-! ## Rows -/

private theorem everyOther_subset : (ps : List Part) → everyOther ps ⊆ ps
  | [] => List.Subset.refl _
  | [p] => List.Subset.refl _
  | p :: q :: ps => by
    rw [everyOther]
    exact List.cons_subset_cons p (List.subset_cons_of_subset q (everyOther_subset ps))

private theorem asks_sequenceMatcher (ts : List Tree) :
    g.Asks (ts.map some) Valid (sequenceMatcher (ts.map g.part)) := by
  rw [sequenceMatcher_eq]
  exact (asks_matchersOf ts).andThen fun _ => guarded_inSequence

private theorem asks_choiceMatcher (ts : List Tree) :
    g.Asks (((everyOther (ts.map g.part)).map Part.tree).map some) Valid
      (choiceMatcher (ts.map g.part)) := by
  have hrow := asks_matchersOf (g := g) ((everyOther (ts.map g.part)).map Part.tree)
  rw [map_part_of_subset (everyOther_subset _)] at hrow
  rw [choiceMatcher_eq]
  exact hrow.andThen fun _ => guarded_oneOf

/-- A phrase is guarded if the children that it asks for compile, and fails as the first of them
fails that does not. -/
theorem asks_phraseMatcher (k : Label) (ts : List Tree) :
    g.Asks (g.asked k ts) Valid (g.phraseMatcher k (ts.map g.part)) := by
  cases k with
  | phrase p =>
    cases p with
    | matcher =>
      cases ts with
      | nil => exact asks_nil (guarded_misshapen _)
      | cons t ts => exact asks_child (some t)
    | alternatives => exact asks_choiceMatcher ts
    | alternative => exact asks_sequenceMatcher ts
    | negatedUnit => exact asks_negatedMatcher ts
    | unit => exact asks_unitMatcher ts
    | repeater => exact asks_nil (guarded_misshapen _)
    | details => exact asks_nil (guarded_misshapen _)
  | token kind => exact asks_nil (guarded_misshapen _)
  | other t => exact asks_nil (guarded_misshapen _)

/-! ## The children are smaller -/

/-- A tree stands below others: it is one of them or a child of one of them. -/
def Below (t : Tree) (ts : List Tree) : Prop := t ∈ ts ∨ ∃ k us, .branch k us ∈ ts ∧ t ∈ us

private theorem Below.mono {t : Tree} {ts us : List Tree} (h : Below t ts) (hsub : ts ⊆ us) :
    Below t us := by
  rcases h with h | ⟨k, vs, hvs, h⟩
  · exact .inl (hsub h)
  · exact .inr ⟨k, vs, hsub hvs, h⟩

private theorem Below.sizeOf_lt {t : Tree} {ts : List Tree} (h : Below t ts) (k : Label) :
    sizeOf t < sizeOf (Tree.branch k ts) := by
  have hbranch : ∀ (k : Label) (us : List Tree), sizeOf us < sizeOf (Tree.branch k us) := by
    intro k us
    rw [Tree.branch.sizeOf_spec]
    omega
  have hts := hbranch k ts
  rcases h with h | ⟨k', us, hus, h⟩
  · have ht := List.sizeOf_lt_of_mem h
    omega
  · have ht := List.sizeOf_lt_of_mem h
    have hus := List.sizeOf_lt_of_mem hus
    have := hbranch k' us
    omega

private theorem below_of_askedBrackets {t : Tree} {ts : List Tree} (h : some t ∈ askedBrackets ts) :
    Below t ts := by
  unfold askedBrackets at h
  split at h
  · left
    simp_all
  · cases h

private theorem below_of_askedDetails {l : Leaf} {t : Tree} {u? : Option Tree}
    (h : some t ∈ g.askedDetails l u?) : Below t u?.toList := by
  unfold askedDetails at h
  split at h
  · next us hus =>
    obtain ⟨u, rfl, hu⟩ := Option.bind_eq_some_iff.1 hus
    obtain rfl := detailsOf?_eq_some_iff.1 hu
    split at h
    · have ht : us[1]? = some t := (List.mem_singleton.1 h).symm
      exact .inr ⟨_, us, List.mem_singleton_self _, List.mem_of_getElem? ht⟩
    · cases h
  · cases h

private theorem below_of_askedBasic {repeats : Bool} {t : Tree} {ts : List Tree}
    (h : some t ∈ g.askedBasic repeats ts) : Below t ts := by
  unfold askedBasic at h
  split at h
  · next l rest =>
    have hhead : rest.head?.toList ⊆ .leaf l :: rest := by
      intro u hu
      exact List.mem_cons_of_mem _ (List.mem_of_mem_head? (Option.mem_toList.1 hu))
    split at h
    · split at h
      · cases h
      · exact (below_of_askedDetails h).mono hhead
    · exact below_of_askedBrackets h
    · split at h
      · cases h
      · exact below_of_askedBrackets h
    · cases h
  · cases h

private theorem map_tree_subset {ps : List Part} {ts : List Tree} (h : ps ⊆ ts.map g.part) :
    ps.map Part.tree ⊆ ts := by
  intro t ht
  obtain ⟨p, hp, rfl⟩ := List.mem_map.1 ht
  obtain ⟨u, hu, rfl⟩ := List.mem_map.1 (h hp)
  rw [tree_part]
  exact hu

private theorem below_of_askedUnit {t : Tree} {ts : List Tree}
    (h : some t ∈ g.askedUnit (ts.map g.part)) : Below t ts := by
  rw [askedUnit] at h
  rcases takeCapture_cases (ts.map g.part) with hfault | ⟨name?, ps, hcapture, hps⟩
  · rw [hfault] at h
    cases h
  · rw [hcapture] at h
    have hsubset := List.Subset.trans (takeRepeater_subset ps) hps
    exact (below_of_askedBasic h).mono (map_tree_subset hsubset)

/-- What is asked for stands below the children. -/
private theorem below_of_asked {k : Label} {t : Tree} {ts : List Tree} (h : some t ∈ g.asked k ts) :
    Below t ts := by
  unfold asked at h
  split at h
  · left
    simp only [List.mem_map, Option.mem_toList, Option.some.injEq, exists_eq_right] at h
    exact List.mem_of_mem_head? h
  · left
    simp only [List.mem_map, Option.some.injEq, exists_eq_right] at h
    obtain ⟨p, hp, rfl⟩ := h
    exact map_tree_subset (everyOther_subset _) (List.mem_map_of_mem hp)
  · left
    simpa using h
  · exact (below_of_askedBasic h).mono (List.tail_sublist ts).subset
  · exact below_of_askedUnit h
  · cases h

/-! ## All trees -/

/-- Compiling a tree that comes to a missing child fails on it. -/
theorem Stumbles.result_eq {t : Tree} (h : g.Stumbles t) :
    (g.matcherOfTree t).result = .error .missingNode := by
  induction h with
  | @missing k ts h =>
    obtain ⟨before, after, hasked, hbefore⟩ := h
    rw [matcherOfTree_branch]
    exact (asks_phraseMatcher k ts).error before none after _ hasked hbefore rfl
  | @inside k ts t h _ ih =>
    obtain ⟨before, after, hasked, hbefore⟩ := h
    rw [matcherOfTree_branch]
    exact (asks_phraseMatcher k ts).error before (some t) after _ hasked hbefore ih

/-- Either all of some children compile, or one of them is the first that does not. -/
private theorem exists_first_failing (xs : List (Option Tree)) :
    (∀ x ∈ xs, g.Compiles x) ∨ ∃ before x after, xs = before ++ x :: after ∧
      (∀ y ∈ before, g.Compiles y) ∧ ¬g.Compiles x := by
  induction xs with
  | nil => exact .inl (by simp)
  | cons x xs ih =>
    by_cases hx : g.Compiles x
    · rcases ih with hall | ⟨before, y, after, rfl, hbefore, hy⟩
      · exact .inl (List.forall_mem_cons.2 ⟨hx, hall⟩)
      · exact .inr ⟨x :: before, y, after, rfl, List.forall_mem_cons.2 ⟨hx, hbefore⟩, hy⟩
    · exact .inr ⟨[], x, xs, rfl, by simp, hx⟩

/-- Compiling a tree that comes to no missing child is guarded. -/
theorem guarded_of_not_stumbles :
    (t : Tree) → ¬g.Stumbles t → Guarded Valid (g.matcherOfTree t)
  | .leaf l, _ => by
    rw [matcherOfTree_leaf]
    exact guarded_misshapen _
  | .branch k ts, h => by
    have hasks := asks_phraseMatcher (g := g) k ts
    rw [matcherOfTree_branch]
    have hchild : ∀ before x after, g.asked k ts = before ++ x :: after →
        (∀ y ∈ before, g.Compiles y) → Guarded Valid (g.matcherOfChild x) := by
      intro before x after hasked hbefore
      cases x with
      | none => exact absurd (.missing ⟨before, after, hasked, hbefore⟩) h
      | some u =>
        have hu : some u ∈ g.asked k ts := hasked ▸ by simp
        exact guarded_of_not_stumbles u fun hu => h (.inside ⟨before, after, hasked, hbefore⟩ hu)
    rcases exists_first_failing (g := g) (g.asked k ts) with
      hall | ⟨before, x, after, hasked, hbefore, hx⟩
    · apply hasks.guarded
      intro x hx
      obtain ⟨before, after, hasked⟩ := List.append_of_mem hx
      obtain ⟨m, hm⟩ := hall x hx
      have hbefore : ∀ y ∈ before, g.Compiles y :=
        fun y hy => hall y (hasked ▸ List.mem_append_left _ hy)
      exact ⟨m, hm, (hchild before x after hasked hbefore).of_ok hm⟩
    · cases hresult : (g.matcherOfChild x).result with
      | ok m => exact absurd ⟨m, hresult⟩ hx
      | error e =>
        have hfault := (hchild before x after hasked hbefore).of_error hresult
        exact guarded_of_error hfault (hasks.error before x after e hasked hbefore hresult)
termination_by t => sizeOf t
decreasing_by exact (below_of_asked hu).sizeOf_lt k

end Asks

/-- Compiling a tree, whatever its shape and its leaves are, gives a matcher, a fault of the pattern
or a fault in the shape of the tree, unless it comes to a details clause without a second child;
then it fails on the child that is missing. -/
theorem matcherOfTree_guarded (g : Grammar) (t : Tree) :
    ((g.matcherOfTree t).result = .error .missingNode ↔ g.Stumbles t) ∧
      ((∃ m, (g.matcherOfTree t).result = .ok m) ∨
        (∃ e, (g.matcherOfTree t).result = .error (.pattern e)) ∨
        (∃ e, (g.matcherOfTree t).result = .error (.shape e)) ∨ g.Stumbles t) := by
  by_cases h : g.Stumbles t
  · exact ⟨⟨fun _ => h, fun _ => h.result_eq⟩, .inr (.inr (.inr h))⟩
  · have hguarded := guarded_of_not_stumbles t h
    constructor
    · constructor
      · intro hmissing
        exact (hguarded.of_error hmissing).elim
      · intro hstumbles
        exact absurd hstumbles h
    · rcases hguarded.cases with hm | he | he
      · exact .inl hm
      · exact .inr (.inl he)
      · exact .inr (.inr (.inl he))

/-- The unit `any`, put together by hand with a details clause without children. -/
def emptyDetails : Tree :=
  .branch (.phrase .unit)
    [.leaf ⟨.token .name, "any", 1, 1, 0⟩, .branch (.phrase .details) []]

example : expression.Stumbles emptyDetails := .missing ⟨[], [], rfl, by simp⟩

end Grammar

end TreeMatcher
