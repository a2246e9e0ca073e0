import TreeMatcher.Proofs.Matcher.Names
import TreeMatcher.Proofs.Repeat.Units

/-!
# What becomes of capture names

A capture name is put on the matcher of its unit, whatever that is. Where the unit is a group and
the matcher in it has a name of its own, the new name takes its place: compiled, `a=(b=NAME)` is a
leaf called `a`, and `b` is lost. Under a repeater that repeats exactly once it is the same, since
such a repeater adds no wildcard. Everything else keeps the names: optional groups, other repeaters,
negations and details put a matcher inside another one, and a redundant wildcard goes only where
what remains has the same name.

* `namesBeforeEqual` — the names in front of an equals sign, read off the tokens.
* `Labels` — the name on top of a phrase, the names inside, and those that others take the place of.
* `Choice.labelling` — the labels of a phrase.
* `Matcher.Labelled l m` — the matcher `m` carries the names that the labels `l` tell.

## Main results

* `Choice.labelled_each` and its companions — a phrase compiles to a matcher with its labels.
* `names_of_matcherOf` — a compiled text carries the names written in it, but for those that others
  take the place of.
-/

namespace TreeMatcher

open Outcome Grammar Matcher TreeMatcher.Parser

/-! ## Names as they are written -/

/-- The texts of the tokens in front of an equals sign. -/
def namesBeforeEqual : List Token → List Text
  | [] => []
  | t :: ts =>
    if nextIn [.equal] ts then t.text :: namesBeforeEqual ts else namesBeforeEqual ts

mutual

/-- The capture names in alternatives, one that is in front of others first. -/
def Choice.captures : Choice → List Text
  | .single s => s.captures
  | .either s _ c => s.captures ++ c.captures

/-- The capture names in an alternative. -/
def Sequence.captures : Sequence → List Text
  | .single i => i.captures
  | .followed i s => i.captures ++ s.captures

/-- The capture names in a unit. -/
def Item.captures : Item → List Text
  | .negated _ o => o.captures
  | .plain capture? o => (captureName? capture?).toList ++ o.captures
  | .repeated capture? b _ => (captureName? capture?).toList ++ b.captures

/-- The capture names in an operand. -/
def Operand.captures : Operand → List Text
  | .optional _ c _ => c.captures
  | .basic b => b.captures

/-- The capture names in a basic pattern. -/
def Basic.captures : Basic → List Text
  | .literal _ => []
  | .name _ => []
  | .detailed _ _ c _ => c.captures
  | .group _ c _ => c.captures

end

/-! ### The two agree

An equals sign stands nowhere but behind a capture name. So no phrase begins with one, and what a
phrase is followed by has to begin with something else. -/

section

variable {ts : List Token}

private theorem namesBeforeEqual_skip (t : Token) (h : nextIn [.equal] ts = false) :
    namesBeforeEqual (t :: ts) = namesBeforeEqual ts := by
  rw [namesBeforeEqual, if_neg (by simp [h])]

private theorem nextIn_equal_of_starts (h : nextIn unitStarts ts = true) :
    nextIn [.equal] ts = false :=
  nextIn_of_subset (nextIn_itemStops_of_starts h) (by decide)

private theorem Basic.no_equal (b : Basic) (rest : List Token) :
    nextIn [.equal] (b.tokens ++ rest) = false := by
  cases b <;> rfl

private theorem Operand.no_equal (o : Operand) (rest : List Token) :
    nextIn [.equal] (o.tokens ++ rest) = false := by
  cases o with
  | optional l c r => rfl
  | basic b => exact b.no_equal rest

private theorem Choice.no_equal (c : Choice) (rest : List Token) :
    nextIn [.equal] (c.tokens ++ rest) = false := by
  cases c with
  | single s => exact nextIn_equal_of_starts (s.starts rest)
  | either s bar c =>
    rw [Choice.tokens, List.append_assoc]
    exact nextIn_equal_of_starts (s.starts _)

private theorem namesBeforeEqual_capture (capture? : Option Capture)
    (h : nextIn [.equal] ts = false) :
    namesBeforeEqual (captureTokens capture? ++ ts) =
      (captureName? capture?).toList ++ namesBeforeEqual ts := by
  cases capture? with
  | none => rfl
  | some c =>
    have hequal : nextIn [.equal] (c.equal.token .equal :: ts) = true := rfl
    rw [captureTokens, List.cons_append, List.singleton_append, namesBeforeEqual, if_pos hequal,
      namesBeforeEqual_skip _ h]
    rfl

private theorem Repeater.namesBeforeEqual_tokens (r : Repeater) (h : nextIn [.equal] ts = false) :
    namesBeforeEqual (r.tokens ++ ts) = namesBeforeEqual ts := by
  cases r <;> simp [Repeater.tokens, namesBeforeEqual_skip, h]

mutual

private theorem Choice.namesBeforeEqual_tokens : (c : Choice) → {rest : List Token} →
    nextIn [.equal] rest = false →
    namesBeforeEqual (c.tokens ++ rest) = c.captures ++ namesBeforeEqual rest
  | .single s, _, h => by
    rw [Choice.tokens, Choice.captures]
    exact Sequence.namesBeforeEqual_tokens s h
  | .either s bar c, _, h => by
    rw [Choice.tokens, Choice.captures, List.append_assoc, List.cons_append,
      Sequence.namesBeforeEqual_tokens s rfl, namesBeforeEqual_skip _ (c.no_equal _),
      Choice.namesBeforeEqual_tokens c h, List.append_assoc]

private theorem Sequence.namesBeforeEqual_tokens : (s : Sequence) → {rest : List Token} →
    nextIn [.equal] rest = false →
    namesBeforeEqual (s.tokens ++ rest) = s.captures ++ namesBeforeEqual rest
  | .single i, _, h => by
    rw [Sequence.tokens, Sequence.captures]
    exact Item.namesBeforeEqual_tokens i h
  | .followed i s, _, h => by
    rw [Sequence.tokens, Sequence.captures, List.append_assoc,
      Item.namesBeforeEqual_tokens i (nextIn_equal_of_starts (s.starts _)),
      Sequence.namesBeforeEqual_tokens s h, List.append_assoc]

private theorem Item.namesBeforeEqual_tokens : (i : Item) → {rest : List Token} →
    nextIn [.equal] rest = false →
    namesBeforeEqual (i.tokens ++ rest) = i.captures ++ namesBeforeEqual rest
  | .negated bang o, _, h => by
    rw [Item.tokens, Item.captures, List.cons_append, namesBeforeEqual_skip _ (o.no_equal _),
      Operand.namesBeforeEqual_tokens o h]
  | .plain capture? o, _, h => by
    rw [Item.tokens, Item.captures, List.append_assoc,
      namesBeforeEqual_capture capture? (o.no_equal _), Operand.namesBeforeEqual_tokens o h,
      List.append_assoc]
  | .repeated capture? b r, rest, h => by
    have hr : nextIn [.equal] (r.tokens ++ rest) = false :=
      (nextIn_of_repeaterStarts (r.starts rest)).1
    rw [Item.tokens, Item.captures, List.append_assoc, List.append_assoc,
      namesBeforeEqual_capture capture? (b.no_equal _), Basic.namesBeforeEqual_tokens b hr,
      r.namesBeforeEqual_tokens h, List.append_assoc]

private theorem Operand.namesBeforeEqual_tokens : (o : Operand) → {rest : List Token} →
    nextIn [.equal] rest = false →
    namesBeforeEqual (o.tokens ++ rest) = o.captures ++ namesBeforeEqual rest
  | .optional l c r, _, h => by
    rw [Operand.tokens, Operand.captures, List.cons_append, List.append_assoc,
      namesBeforeEqual_skip _ (c.no_equal _), Choice.namesBeforeEqual_tokens c rfl,
      List.singleton_append, namesBeforeEqual_skip _ h]
  | .basic b, _, h => by
    rw [Operand.tokens, Operand.captures]
    exact Basic.namesBeforeEqual_tokens b h

private theorem Basic.namesBeforeEqual_tokens : (b : Basic) → {rest : List Token} →
    nextIn [.equal] rest = false →
    namesBeforeEqual (b.tokens ++ rest) = b.captures ++ namesBeforeEqual rest
  | .literal w, _, h => by
    rw [Basic.tokens, Basic.captures, List.singleton_append, namesBeforeEqual_skip _ h]
    rfl
  | .name w, _, h => by
    rw [Basic.tokens, Basic.captures, List.singleton_append, namesBeforeEqual_skip _ h]
    rfl
  | .detailed w l c r, _, h => by
    rw [Basic.tokens, Basic.captures, List.cons_append, List.cons_append, List.append_assoc,
      namesBeforeEqual_skip _ rfl, namesBeforeEqual_skip _ (c.no_equal _),
      Choice.namesBeforeEqual_tokens c rfl, List.singleton_append, namesBeforeEqual_skip _ h]
  | .group l c r, _, h => by
    rw [Basic.tokens, Basic.captures, List.cons_append, List.append_assoc,
      namesBeforeEqual_skip _ (c.no_equal _), Choice.namesBeforeEqual_tokens c rfl,
      List.singleton_append, namesBeforeEqual_skip _ h]

end

end

/-! ## Names as they are put on matchers -/

/-- Names of a phrase by what becomes of them. -/
structure Labels where
  /-- The name on top of the matcher. -/
  top? : Option Text
  /-- The names in the matcher. -/
  inside : List Text
  /-- The names that others take the place of. -/
  replaced : List Text

namespace Labels

/-- No names. -/
def empty : Labels := ⟨none, [], []⟩

/-- The names on top and inside. -/
def all (l : Labels) : List Text := l.top?.toList ++ l.inside

/-- The labels of a matcher without a name around another one. -/
def within (l : Labels) : Labels := ⟨none, l.all, l.replaced⟩

/-- The labels of a matcher without a name around others. -/
def beside (l l' : Labels) : Labels := ⟨none, l.all ++ l'.all, l.replaced ++ l'.replaced⟩

/-- The labels under an optional capture name, which takes the place of another name on top. -/
def under (name? : Option Text) (l : Labels) : Labels :=
  match name? with
  | none => l
  | some name =>
    ⟨some name, l.inside, (l.top?.toList.filter fun top => top ≠ name) ++ l.replaced⟩

private theorem within_of_top?_eq_none {l : Labels} (h : l.top? = none) : l.within = l := by
  rcases l with ⟨_ | _, inside, replaced⟩
  · rfl
  · cases h

end Labels

/-- A repeater repeats exactly once. -/
def Repeater.once (r : Repeater) : Bool := r.bounds.toOption = some (1, 1)

mutual

/-- The labels of alternatives. -/
def Choice.labelling : Choice → Labels
  | .single s => s.labelling
  | .either s _ c => s.labelling.beside c.labelling

/-- The labels of an alternative. -/
def Sequence.labelling : Sequence → Labels
  | .single i => i.labelling
  | .followed i s => i.labelling.beside s.labelling

/-- The labels of a unit. -/
def Item.labelling : Item → Labels
  | .negated _ o => o.labelling.within
  | .plain capture? o => o.labelling.under (captureName? capture?)
  | .repeated capture? b r =>
    (if r.once then b.labelling else b.labelling.within).under (captureName? capture?)

/-- The labels of an operand. -/
def Operand.labelling : Operand → Labels
  | .optional _ c _ => c.labelling.within
  | .basic b => b.labelling

/-- The labels of a basic pattern. -/
def Basic.labelling : Basic → Labels
  | .literal _ => .empty
  | .name _ => .empty
  | .detailed _ _ c _ => c.labelling.within
  | .group _ c _ => c.labelling

end

/-! ### Every name written has its label -/

/-- Labels for some written names: each of them has a label, and no more labels than it is written
times. -/
structure Labels.AccountsFor (l : Labels) (written : List Text) : Prop where
  mem : ∀ n ∈ written, n ∈ l.all ∨ n ∈ l.replaced
  count_le : ∀ n, l.all.count n + l.replaced.count n ≤ written.count n

namespace Labels.AccountsFor

variable {l l' : Labels} {ns ns' : List Text}

private theorem empty : Labels.empty.AccountsFor [] := ⟨by simp, by simp [Labels.empty, all]⟩

private theorem within (h : l.AccountsFor ns) : l.within.AccountsFor ns := ⟨h.mem, h.count_le⟩

private theorem beside (h : l.AccountsFor ns) (h' : l'.AccountsFor ns') :
    (l.beside l').AccountsFor (ns ++ ns') := by
  refine ⟨fun n hn => ?_, fun n => ?_⟩
  · simp only [Labels.beside, all, Option.toList_none, List.nil_append, List.mem_append]
    rcases List.mem_append.1 hn with hn | hn
    · rcases h.mem n hn with hn | hn
      · exact .inl (.inl (List.mem_append.1 hn))
      · exact .inr (.inl hn)
    · rcases h'.mem n hn with hn | hn
      · exact .inl (.inr (List.mem_append.1 hn))
      · exact .inr (.inr hn)
  · have hl := h.count_le n
    have hl' := h'.count_le n
    simp only [Labels.beside, all, Option.toList_none, List.nil_append, List.count_append] at *
    omega

private theorem under (h : l.AccountsFor ns) (name? : Option Text) :
    (l.under name?).AccountsFor (name?.toList ++ ns) := by
  cases name? with
  | none => exact h
  | some name =>
    refine ⟨fun n hn => ?_, fun n => ?_⟩
    · simp only [Labels.under, all, Option.toList_some, List.singleton_append, List.mem_cons,
        List.mem_append, List.mem_filter, decide_eq_true_eq] at hn ⊢
      by_cases hname : n = name
      · exact .inl (.inl hname)
      · rcases h.mem n (hn.resolve_left hname) with hn | hn
        · rcases List.mem_append.1 hn with hn | hn
          · exact .inr (.inl ⟨hn, hname⟩)
          · exact .inl (.inr hn)
        · exact .inr (.inr hn)
    · have hkept : (l.top?.toList.filter fun top => top ≠ name).count n ≤ l.top?.toList.count n :=
        List.filter_sublist.count_le n
      have hcount := h.count_le n
      simp only [Labels.under, all, Option.toList_some, List.count_append] at hcount ⊢
      omega

end Labels.AccountsFor

mutual

private theorem Choice.accountsFor : (c : Choice) → c.labelling.AccountsFor c.captures
  | .single s => by
    rw [Choice.labelling, Choice.captures]
    exact Sequence.accountsFor s
  | .either s _ c => by
    rw [Choice.labelling, Choice.captures]
    exact (Sequence.accountsFor s).beside (Choice.accountsFor c)

private theorem Sequence.accountsFor : (s : Sequence) → s.labelling.AccountsFor s.captures
  | .single i => by
    rw [Sequence.labelling, Sequence.captures]
    exact Item.accountsFor i
  | .followed i s => by
    rw [Sequence.labelling, Sequence.captures]
    exact (Item.accountsFor i).beside (Sequence.accountsFor s)

private theorem Item.accountsFor : (i : Item) → i.labelling.AccountsFor i.captures
  | .negated _ o => by
    rw [Item.labelling, Item.captures]
    exact (Operand.accountsFor o).within
  | .plain capture? o => by
    rw [Item.labelling, Item.captures]
    exact (Operand.accountsFor o).under _
  | .repeated capture? b r => by
    rw [Item.labelling, Item.captures]
    split
    · exact (Basic.accountsFor b).under _
    · exact (Basic.accountsFor b).within.under _

private theorem Operand.accountsFor : (o : Operand) → o.labelling.AccountsFor o.captures
  | .optional _ c _ => by
    rw [Operand.labelling, Operand.captures]
    exact (Choice.accountsFor c).within
  | .basic b => by
    rw [Operand.labelling, Operand.captures]
    exact Basic.accountsFor b

private theorem Basic.accountsFor : (b : Basic) → b.labelling.AccountsFor b.captures
  | .literal _ => .empty
  | .name _ => .empty
  | .detailed _ _ c _ => by
    rw [Basic.labelling, Basic.captures]
    exact (Choice.accountsFor c).within
  | .group _ c _ => by
    rw [Basic.labelling, Basic.captures]
    exact Choice.accountsFor c

end

/-! ## Matchers with given labels -/

/-- A matcher has the name on top, has no names inside but those of its labels, and carries all of
these that are not replaced somewhere. -/
structure Matcher.Labelled (l : Labels) (m : Matcher) : Prop where
  name?_eq : m.name? = l.top?
  of_inside : ∀ n, CarriesInside n m → n ∈ l.inside
  carries : ∀ n ∈ l.inside, n ∉ l.replaced → Carries n m

/-- Some matchers carry together no names but those of their labels, and all of these that are not
replaced somewhere. The name on top is that of one alone. -/
inductive Matcher.LabelledEach : Labels → List Matcher → Prop where
  | single {l : Labels} {m : Matcher} (h : Labelled l m) : LabelledEach l [m]
  | several {l : Labels} {ms : List Matcher} (htwo : 2 ≤ ms.length) (htop : l.top? = none)
      (of_carries : ∀ n, ∀ m ∈ ms, Carries n m → n ∈ l.inside)
      (carries : ∀ n ∈ l.inside, n ∉ l.replaced → ∃ m ∈ ms, Carries n m) : LabelledEach l ms

namespace Matcher

variable {l l' : Labels} {m : Matcher} {ms : List Matcher}

namespace Labelled

private theorem mem_all (h : Labelled l m) {n : Text} (hn : Carries n m) : n ∈ l.all := by
  rw [Labels.all, List.mem_append, Option.mem_toList]
  exact (carries_iff.1 hn).imp h.name?_eq.symm.trans (h.of_inside n)

private theorem carries_of_mem_all (h : Labelled l m) {n : Text} (hn : n ∈ l.all)
    (hkept : n ∉ l.replaced) :
    Carries n m := by
  rw [Labels.all, List.mem_append, Option.mem_toList] at hn
  rcases hn with hn | hn
  · exact carries_iff.2 (.inl (h.name?_eq.trans hn))
  · exact h.carries n hn hkept

private theorem sameNames {m' : Matcher} (h : Labelled l m) (hsame : SameNames m m') :
    Labelled l m' :=
  ⟨hsame.name?_eq.trans h.name?_eq, fun n hn => h.of_inside n (hsame.inside n hn),
    fun n hn hkept => hsame.carries n (h.carries n hn hkept)⟩

private theorem finish (h : Labelled l m) : Gives (Labelled l) m.finish :=
  fun _ hm' => h.sameNames (sameNames_finish hm')

/-- A capture name takes the place of another one on top. The names inside stay. -/
private theorem withName (h : Labelled l m) (name : Text) :
    Labelled (l.under (some name)) (m.withName name) := by
  refine ⟨name?_withName name m, fun n hn => ?_, fun n hn hkept => ?_⟩
  · exact h.of_inside n ((carriesInside_withName name).1 hn)
  · simp only [Labels.under, List.mem_append, List.mem_filter, Option.mem_toList,
      decide_eq_true_eq, not_or, not_and, not_not] at hkept
    rw [carries_iff, name?_withName, carriesInside_withName]
    -- A name that stood on top, and was not replaced, is the new name.
    rcases carries_iff.1 (h.carries n hn hkept.2) with htop | hinside
    · exact .inl (congrArg some (hkept.1 (h.name?_eq.symm.trans htop)).symm)
    · exact .inr hinside

private theorem captured (h : Labelled l m) (capture? : Option Capture) :
    Gives (Labelled (l.under (captureName? capture?))) (m.captured capture?) := by
  cases capture? with
  | none => exact h.finish
  | some c => exact (h.withName c.name.text).finish

end Labelled

private theorem labelled_empty (hparts : m.parts = []) (hname : m.name? = none) :
    Labelled .empty m := by
  refine ⟨hname, fun n ⟨x, hx, _⟩ => ?_, fun n hn => by cases hn⟩
  rw [hparts] at hx
  cases hx

namespace LabelledEach

private theorem mem_all (h : LabelledEach l ms) {n : Text} (hm : m ∈ ms) (hn : Carries n m) :
    n ∈ l.all := by
  cases h with
  | single h => exact h.mem_all (List.mem_singleton.1 hm ▸ hn)
  | several _ _ of_carries => exact List.mem_append_right _ (of_carries n m hm hn)

private theorem exists_of_mem_all (h : LabelledEach l ms) {n : Text} (hn : n ∈ l.all)
    (hkept : n ∉ l.replaced) : ∃ m ∈ ms, Carries n m := by
  cases h with
  | single h => exact ⟨_, List.mem_singleton_self _, h.carries_of_mem_all hn hkept⟩
  | several _ htop _ carries =>
    rw [Labels.all, htop] at hn
    exact carries n hn hkept

/-- A matcher without a name around others. -/
private theorem around (h : LabelledEach l ms) (hparts : m.parts = ms) (hname : m.name? = none) :
    Labelled l.within m := by
  refine ⟨hname, fun n ⟨x, hx, hn⟩ => ?_, fun n hn hkept => ?_⟩
  · exact h.mem_all (hparts ▸ hx) hn
  · obtain ⟨x, hx, hn⟩ := h.exists_of_mem_all hn hkept
    exact carries_iff.2 (.inr ⟨x, hparts ▸ hx, hn⟩)

private theorem ne_nil (h : LabelledEach l ms) : ms ≠ [] := by
  cases h with
  | single => simp
  | several htwo => exact List.ne_nil_of_length_pos (by omega)

private theorem cons (h : Labelled l m) (h' : LabelledEach l' ms) :
    LabelledEach (l.beside l') (m :: ms) := by
  have hpos := List.length_pos_iff.2 h'.ne_nil
  refine .several (by simp; omega) rfl (fun n x hx hn => ?_) (fun n hn hkept => ?_)
  · rcases List.mem_cons.1 hx with rfl | hx
    · exact List.mem_append_left _ (h.mem_all hn)
    · exact List.mem_append_right _ (h'.mem_all hx hn)
  · rw [Labels.beside, List.mem_append, not_or] at hkept
    rcases List.mem_append.1 hn with hn | hn
    · exact ⟨m, List.mem_cons_self .., h.carries_of_mem_all hn hkept.1⟩
    · obtain ⟨x, hx, hn⟩ := h'.exists_of_mem_all hn hkept.2
      exact ⟨x, List.mem_cons_of_mem _ hx, hn⟩

private theorem inSequence (h : LabelledEach l ms) :
    Gives (Labelled l) (Matcher.inSequence ms) := by
  cases h with
  | single h => exact gives_value h
  | several htwo htop of_carries carries =>
    rw [inSequence_of_two htwo, ← Labels.within_of_top?_eq_none htop]
    have hparts : [ms].flatten = ms := by simp
    exact gives_value ((several htwo htop of_carries carries).around hparts rfl)

private theorem oneOf (h : LabelledEach l ms) : Gives (Labelled l) (Matcher.oneOf ms) := by
  cases h with
  | single h => exact gives_value h
  | several htwo htop of_carries carries =>
    rw [oneOf_of_two htwo, ← Labels.within_of_top?_eq_none htop]
    have hparts : (ms.map fun m => [m]).flatten = ms := by
      rw [← List.flatMap_def, List.flatMap_singleton']
    exact gives_value ((several htwo htop of_carries carries).around hparts rfl)

end LabelledEach

private theorem Labelled.repeating (h : Labelled l m) (min max : Number) :
    Gives (Labelled l.within) (Matcher.repeating [[m]] min max) := by
  intro m' hm'
  obtain rfl := eq_of_repeating hm'
  exact (LabelledEach.single h).around rfl rfl

/-- A repeater for exactly once leaves the matcher as it is. -/
private theorem Labelled.repeatMatcher (h : Labelled l m) (r : Repeater) :
    Gives (Labelled (if r.once then l else l.within)) (Grammar.repeatMatcher m r.trees) := by
  cases hbounds : r.bounds with
  | error e =>
    rw [Grammar.repeatMatcher, Repeater.boundsOf_trees, hbounds]
    exact gives_fail e
  | ok bounds =>
    obtain ⟨min, max⟩ := bounds
    have honce : r.once ↔ min = 1 ∧ max = 1 := by
      simp [Repeater.once, hbounds, Except.toOption]
    intro m' hm'
    rw [Grammar.result_repeatMatcher_of_bounds (r.boundsOf_trees.trans hbounds)] at hm'
    by_cases hone : min = 1 ∧ max = 1
    · rw [if_pos hone] at hm'
      rw [if_pos (honce.2 hone)]
      cases hm'
      exact h
    · rw [if_neg hone] at hm'
      rw [if_neg (mt honce.1 hone)]
      exact h.finish.andThen (fun inner hinner => hinner.repeating min max) m' hm'

end Matcher

/-! ## Phrases compile to matchers with their labels -/

section

variable {g : Grammar}

private theorem labelled_literalMatcher (l : Leaf) :
    Gives (Labelled .empty) (g.literalMatcher l) := by
  unfold literalMatcher
  split
  · exact gives_fail _
  · exact (gives_any _).andThen fun k _ => gives_value (labelled_empty rfl rfl)

private theorem labelled_nameMatcher (l : Leaf) : Gives (Labelled .empty) (g.nameMatcher l) := by
  unfold nameMatcher
  split
  · unfold tokenMatcher
    split
    · exact gives_fail _
    · exact gives_value (labelled_empty rfl rfl)
  · exact (gives_any _).andThen fun s _ => gives_value (labelled_empty rfl rfl)

private theorem labelled_detailedMatcher (l : Leaf) {content : Outcome Matcher} {labels : Labels}
    (h : Gives (Labelled labels) content) :
    Gives (Labelled labels.within) (g.detailedMatcher l content) := by
  unfold detailedMatcher
  split
  · split <;> exact gives_fail _
  · refine (gives_any _).andThen fun s _ => h.andThen fun m hm => gives_value ?_
    exact (LabelledEach.single hm).around rfl rfl

variable (g)

mutual

theorem Choice.labelled_each : (c : Choice) → Gives (LabelledEach c.labelling) (c.each g)
  | .single s => by
    rw [Choice.each, Choice.labelling]
    refine ((Sequence.labelled_each s).andThen fun ms hms => hms.inSequence).andThen ?_
    exact fun m hm => gives_value (.single hm)
  | .either s _ c => by
    rw [Choice.each, Choice.labelling]
    refine ((Sequence.labelled_each s).andThen fun ms hms => hms.inSequence).andThen ?_
    exact fun m hm => (Choice.labelled_each c).andThen fun ms hms => gives_value (hms.cons hm)

theorem Sequence.labelled_each : (s : Sequence) → Gives (LabelledEach s.labelling) (s.each g)
  | .single i => by
    rw [Sequence.each, Sequence.labelling]
    exact (Item.labelled i).andThen fun m hm => gives_value (.single hm)
  | .followed i s => by
    rw [Sequence.each, Sequence.labelling]
    refine (Item.labelled i).andThen fun m hm => ?_
    exact (Sequence.labelled_each s).andThen fun ms hms => gives_value (hms.cons hm)

theorem Item.labelled : (i : Item) → Gives (Labelled i.labelling) (i.matcher g)
  | .negated _ o => by
    rw [Item.matcher, Item.labelling]
    refine (Operand.labelled o).andThen fun m hm => hm.finish.andThen fun inner hinner => ?_
    have hlabelled : Labelled o.labelling.within (Matcher.negated inner none) :=
      (LabelledEach.single hinner).around rfl rfl
    exact hlabelled.finish
  | .plain capture? o => by
    rw [Item.matcher, Item.labelling]
    exact (Operand.labelled o).andThen fun m hm => hm.captured capture?
  | .repeated capture? b r => by
    rw [Item.matcher, Item.labelling]
    refine (Basic.labelled b).andThen fun m hm => (hm.repeatMatcher r).andThen fun m' hm' => ?_
    exact hm'.captured capture?

theorem Operand.labelled : (o : Operand) → Gives (Labelled o.labelling) (o.matcher g)
  | .optional _ c _ => by
    rw [Operand.matcher, Operand.labelling]
    refine ((Choice.labelled_each c).andThen fun ms hms => hms.oneOf).andThen fun m hm => ?_
    exact hm.repeating 0 1
  | .basic b => by
    rw [Operand.matcher, Operand.labelling]
    exact Basic.labelled b

theorem Basic.labelled : (b : Basic) → Gives (Labelled b.labelling) (b.matcher g)
  | .literal w => by
    rw [Basic.matcher, Basic.labelling]
    exact labelled_literalMatcher _
  | .name w => by
    rw [Basic.matcher, Basic.labelling]
    exact labelled_nameMatcher _
  | .detailed w _ c _ => by
    rw [Basic.matcher, Basic.labelling]
    exact labelled_detailedMatcher _ ((Choice.labelled_each c).andThen fun ms hms => hms.oneOf)
  | .group _ c _ => by
    rw [Basic.matcher, Basic.labelling]
    exact (Choice.labelled_each c).andThen fun ms hms => hms.oneOf

end

end

/-! ## The names of a compiled text -/

variable {g : Grammar} {source : Text} {c : Choice} {m : Matcher}

/-- The names that a text writes are the capture names of what it is parsed as. -/
private theorem namesBeforeEqual_of_parse (h : parse source = .ok c.pattern) :
    namesBeforeEqual (tokens source) = c.captures := by
  obtain ⟨-, c', htokens, hpattern⟩ := parse_eq_ok_iff_choice.1 h
  obtain rfl := Choice.pattern_injective hpattern
  have hnames := c.namesBeforeEqual_tokens nextIn_nil
  rw [List.append_nil, namesBeforeEqual, List.append_nil] at hnames
  rw [htokens, hnames]

/-- A compiled text carries no names but those written in it. It carries all of them that no other
name takes the place of. One that another name takes the place of is lost, unless it is written
twice. -/
theorem names_of_matcherOf (hparse : parse source = .ok c.pattern)
    (hm : g.matcherOf source = .ok m) :
    (∀ n, Carries n m → n ∈ namesBeforeEqual (tokens source)) ∧
      (∀ n ∈ namesBeforeEqual (tokens source), n ∉ c.labelling.replaced → Carries n m) ∧
      ∀ n ∈ c.labelling.replaced, (namesBeforeEqual (tokens source)).count n = 1 →
        ¬Carries n m := by
  have hresult := Choice.result_of_matcherOf hparse hm
  rw [Choice.matcher] at hresult
  have hlabelled : Labelled c.labelling m :=
    ((c.labelled_each g).andThen fun ms hms => hms.oneOf) m hresult
  obtain ⟨hmem, hcount⟩ := c.accountsFor
  rw [namesBeforeEqual_of_parse hparse]
  refine ⟨fun n hn => ?_, fun n hn hkept => ?_, fun n hn hone hcarries => ?_⟩
  · have hpos : 0 < c.labelling.all.count n := List.count_pos_iff.2 (hlabelled.mem_all hn)
    exact List.count_pos_iff.1 (Nat.lt_of_lt_of_le hpos (by have := hcount n; omega))
  · exact hlabelled.carries_of_mem_all ((hmem n hn).resolve_right hkept) hkept
  · -- Written once, the name has one label, and that is among the replaced ones.
    have hpos : 0 < c.labelling.all.count n := List.count_pos_iff.2 (hlabelled.mem_all hcarries)
    have hpos' : 0 < c.labelling.replaced.count n := List.count_pos_iff.2 hn
    have := hcount n
    omega

/-- A capture name in front of a group that has one inside. -/
def twiceNamed : Choice :=
  .single (.single (.plain (some ⟨.onFirstLine "a" 0, .onFirstLine "=" 1⟩) (.basic
    (.group (.onFirstLine "(" 2)
      (.single (.single (.plain (some ⟨.onFirstLine "b" 3, .onFirstLine "=" 4⟩)
        (.basic (.name (.onFirstLine "NAME" 5))))))
      (.onFirstLine ")" 9)))))

/-- Of two names for one matcher the inner one is lost. -/
theorem names_of_matcherOf_twiceNamed :
    parse "a=(b=NAME)" = .ok twiceNamed.pattern ∧
      ∃ m, Grammar.expression.matcherOf "a=(b=NAME)" = .ok m ∧ Carries "a" m ∧ ¬Carries "b" m := by
  have hparse : parse "a=(b=NAME)" = .ok twiceNamed.pattern :=
    parse_eq_ok_iff_choice.2 ⟨by decide +kernel, twiceNamed, by decide +kernel, rfl⟩
  have hm : Grammar.expression.matcherOf "a=(b=NAME)" =
      .ok (leaf (some (.int 1)) none (some "a")) := eq_ok_of_toOption (by decide +kernel)
  have hwritten : namesBeforeEqual (tokens "a=(b=NAME)") = ["a", "b"] := by decide +kernel
  have hreplaced : twiceNamed.labelling.replaced = ["b"] := by decide +kernel
  obtain ⟨-, hkept, hlost⟩ := names_of_matcherOf hparse hm
  rw [hwritten, hreplaced] at hkept hlost
  exact ⟨hparse, _, hm, hkept "a" (by decide) (by decide), hlost "b" (by decide) (by decide)⟩

end TreeMatcher
