import TreeMatcher.Compile.Basic
import TreeMatcher.Proofs.Matcher.Normal
import TreeMatcher.Proofs.Pattern.Derivation

/-!
# Compiling phrase by phrase

Compiling a pattern tree looks for capture names, repeaters and brackets by their position among the
children. On the tree of a phrase every position is known, so compiling it is one recursion over the
phrase, with one equation for each rule of the grammar.

* `Choice.each`, `Sequence.each` — the matchers of the alternatives and of the units, in order.
* `Item.matcher`, `Operand.matcher`, `Basic.matcher` — the matcher of a unit and of its parts.
* `Choice.matcher` — the matcher of a whole choice.

## Main results

* `matcherOfTree_pattern` — compiling the tree of a choice is compiling the choice.
* `matcherOfText_eq` — a text that is parsed compiles as the choice that it is.
-/

namespace TreeMatcher

/-- The leaf of a word, as data. -/
def Word.toLeaf (k : TokenKind) (w : Word) : Leaf := .ofToken (w.token k)

/-! ## Phrases as matchers -/

/-- The bounds that a repeater stands for. -/
def Repeater.bounds : Repeater → Except CompileError (Number × Number)
  | star _ => .ok (0, .infinity)
  | plus _ => .ok (1, .infinity)
  | exactly _ n _ => do
    let n ← boundOf (n.leaf .number)
    pure (.int n, .int n)
  | between _ n _ m _ => do
    let n ← boundOf (n.leaf .number)
    let m ← boundOf (m.leaf .number)
    pure (.int n, .int m)

namespace Matcher

/-- Matchers in a row; one alone is the sequence itself. -/
def inSequence : List Matcher → Outcome Matcher
  | [m] => pure m
  | ms => do
    let w ← repeating [ms] 1 1
    w.finish

/-- A choice between matchers; one alone is the choice itself. -/
def oneOf : List Matcher → Outcome Matcher
  | [m] => pure m
  | ms => do
    let w ← repeating (ms.map fun m => [m]) 1 1
    w.finish

/-- A matcher under an optional capture name, with redundant wildcards removed. -/
def captured (capture? : Option Capture) (m : Matcher) : Outcome Matcher :=
  match capture? with
  | some c => (m.withName c.name.text).finish
  | none => m.finish

end Matcher

section

variable (g : Grammar)

/-- A name without details. -/
def Grammar.nameMatcher (l : Leaf) : Outcome Matcher :=
  if l.value.isUpperCase then g.tokenMatcher l none else g.symbolMatcher l none

/-- A name with details; only symbols have some. -/
def Grammar.detailedMatcher (l : Leaf) (content : Outcome Matcher) : Outcome Matcher :=
  if l.value.isUpperCase then
    match g.tokenNames.lookup l.value with
    | none => .refuse (l.error (.unknownToken l.value))
    | some _ => .refuse (l.error (.detailsOfToken l.value))
  else do
    let symbol ← g.symbolOf l
    let content ← content
    pure (.node symbol (some [content]) none)

mutual

/-- The matchers of the alternatives of a choice. -/
def Choice.each : Choice → Outcome (List Matcher)
  | .single s => do
    let m ← s.each.andThen Matcher.inSequence
    pure [m]
  | .either s _ c => do
    let m ← s.each.andThen Matcher.inSequence
    let ms ← c.each
    pure (m :: ms)

/-- The matchers of the units of an alternative. -/
def Sequence.each : Sequence → Outcome (List Matcher)
  | .single i => do
    let m ← i.matcher
    pure [m]
  | .followed i s => do
    let m ← i.matcher
    let ms ← s.each
    pure (m :: ms)

/-- The matcher of a unit. -/
def Item.matcher : Item → Outcome Matcher
  | .negated _ o => do
    let m ← o.matcher
    let inner ← m.finish
    (Matcher.negated inner none).finish
  | .plain capture? o => do
    let m ← o.matcher
    m.captured capture?
  | .repeated capture? b r => do
    let m ← b.matcher
    let m ← Grammar.repeatMatcher m r.trees
    m.captured capture?

/-- The matcher of an operand. -/
def Operand.matcher : Operand → Outcome Matcher
  | .optional _ c _ => do
    let m ← c.each.andThen Matcher.oneOf
    Matcher.repeating [[m]] 0 1
  | .basic b => b.matcher

/-- The matcher of a basic pattern. -/
def Basic.matcher : Basic → Outcome Matcher
  | .literal w => g.literalMatcher (w.toLeaf .string)
  | .name w => g.nameMatcher (w.toLeaf .name)
  | .detailed w _ c _ => g.detailedMatcher (w.toLeaf .name) (c.each.andThen Matcher.oneOf)
  | .group _ c _ => c.each.andThen Matcher.oneOf

end

/-- The matcher of an alternative. -/
def Sequence.matcher (s : Sequence) : Outcome Matcher := (s.each g).andThen Matcher.inSequence

/-- The matcher of a choice. -/
def Choice.matcher (c : Choice) : Outcome Matcher := (c.each g).andThen Matcher.oneOf

end

/-! ## The parts of a unit stand where they are looked for -/

theorem Repeater.boundsOf_trees (r : Repeater) : boundsOf r.trees = r.bounds := by
  cases r <;> rfl

namespace Grammar

variable {g : Grammar}

theorem sequenceMatcher_eq (ps : List Part) :
    sequenceMatcher ps = (matchersOf ps).andThen Matcher.inSequence := by
  rw [sequenceMatcher, Outcome.bind_eq_andThen]
  congr 1

theorem choiceMatcher_eq (ps : List Part) :
    choiceMatcher ps = (matchersOf (everyOther ps)).andThen Matcher.oneOf := by
  rw [choiceMatcher, Outcome.bind_eq_andThen]
  congr 1

@[simp] theorem label_leaf (k : TokenKind) (w : Word) : (w.leaf k).label = .token k := rfl

@[simp] theorem label_phrase (p : Phrase) (ts : List Tree) :
    (Tree.phrase p ts).label = .phrase p := rfl

@[simp] theorem label_part (t : Tree) : (part g t).label = t.label := by
  rw [Part.label, tree_part]

/-- A capture name in front is split off. -/
private theorem takeCapture_captureTrees (capture? : Option Capture) {ps : List Part}
    (hne : ps ≠ []) (hnone : takeCapture ps = .value (none, ps)) :
    takeCapture ((captureTrees capture?).map (part g) ++ ps) =
      .value (capture?.map fun c => c.name.text, ps) := by
  cases capture? with
  | none => exact hnone
  | some c =>
    obtain ⟨p, ps, rfl⟩ := List.exists_cons_of_ne_nil hne
    simp only [captureTrees, List.map_cons, List.map_nil, List.cons_append, List.nil_append,
      takeCapture, label_part, label_leaf, tree_part, if_true]
    rfl

/-- What a basic pattern contributes begins with no capture name. -/
private theorem takeCapture_basic (b : Basic) (ps : List Part) (hps : ps.length ≤ 1) :
    takeCapture (b.trees.map (part g) ++ ps) = .value (none, b.trees.map (part g) ++ ps) := by
  rcases ps with _ | ⟨p, _ | ⟨q, ps⟩⟩
  · cases b <;> simp [Basic.trees, takeCapture]
  · cases b <;> simp [Basic.trees, takeCapture]
  · simp at hps

private theorem takeCapture_operand (o : Operand) :
    takeCapture (o.trees.map (part g)) = .value (none, o.trees.map (part g)) := by
  cases o with
  | optional l c r => simp [Operand.trees, takeCapture, Tree.phrase, Tree.label]
  | basic b => simpa [Operand.trees] using takeCapture_basic (g := g) b [] (by simp)

/-- What a basic pattern contributes does not end with a repeater. -/
private theorem takeRepeater_operand (o : Operand) :
    takeRepeater (o.trees.map (part g)) = (none, o.trees.map (part g)) := by
  rcases o with ⟨l, c, r⟩ | ⟨w⟩ | ⟨w⟩ | ⟨w, l, c, r⟩ | ⟨l, c, r⟩ <;>
    simp [Operand.trees, Basic.trees, takeRepeater, Word.leaf, Tree.ofToken, Tree.phrase,
      repeaterOf?]

private theorem takeRepeater_repeater (b : Basic) (r : Repeater) :
    takeRepeater (b.trees.map (part g) ++ [part g r.tree]) =
      (some r.trees, b.trees.map (part g)) := by
  rcases b with ⟨w⟩ | ⟨w⟩ | ⟨w, l, c, r⟩ | ⟨l, c, r⟩ <;>
    simp [Basic.trees, takeRepeater, Repeater.tree, Tree.phrase, repeaterOf?]

end Grammar

/-! ## Compiling the tree of a phrase -/

open Grammar

variable (g : Grammar)

private theorem Operand.trees_ne_nil (o : Operand) : o.trees ≠ [] := by
  rcases o with ⟨l, c, r⟩ | ⟨w⟩ | ⟨w⟩ | ⟨w, l, c, r⟩ | ⟨l, c, r⟩ <;>
    simp [Operand.trees, Basic.trees]

private theorem matcherOfTree_phrase (p : Phrase) (ts : List Tree) :
    matcherOfTree g (.phrase p ts) = phraseMatcher g (.phrase p) (ts.map (part g)) :=
  matcherOfTree_branch g _ ts

private theorem unitMatcher_plain (capture? : Option Capture) (o : Operand) :
    unitMatcher g ((captureTrees capture? ++ o.trees).map (part g)) =
      (basicMatcher g false (o.trees.map (part g))).andThen fun m => m.captured capture? := by
  rw [unitMatcher, List.map_append, takeCapture_captureTrees capture?
    (by simpa using o.trees_ne_nil) (takeCapture_operand o)]
  simp only [Outcome.bind_eq_andThen, Outcome.value_andThen, takeRepeater_operand]
  congr 1
  funext m
  cases capture? <;> simp [Matcher.captured]

private theorem unitMatcher_repeated (capture? : Option Capture) (b : Basic) (r : Repeater) :
    unitMatcher g ((captureTrees capture? ++ (b.trees ++ [r.tree])).map (part g)) =
      (basicMatcher g true (b.trees.map (part g))).andThen fun m =>
        (repeatMatcher m r.trees).andThen fun m => m.captured capture? := by
  rw [unitMatcher, List.map_append, takeCapture_captureTrees capture? (by simp)
    (by simpa using takeCapture_basic (g := g) b [part g r.tree] (by simp)), List.map_append]
  simp only [Outcome.bind_eq_andThen, Outcome.value_andThen, List.map_cons, List.map_nil,
    takeRepeater_repeater]
  congr 1
  funext m
  cases capture? <;> simp [Matcher.captured]

private theorem matchersOf_cons (p : Part) (ps : List Part) :
    matchersOf (p :: ps) = p.matcher.andThen fun m => (matchersOf ps).andThen fun ms =>
      .value (m :: ms) := by
  rw [matchersOf]
  rfl

private theorem matchersOf_single (p : Part) :
    matchersOf [p] = p.matcher.andThen fun m => .value [m] := by
  rw [matchersOf_cons]
  simp [matchersOf]

private theorem everyOther_cons_cons (p q : Part) {ps : List Part} :
    everyOther (p :: q :: ps) = p :: everyOther ps := by
  rw [everyOther]

theorem matcherOfTree_alternative (ts : List Tree) :
    matcherOfTree g (.phrase .alternative ts) =
      (matchersOf (ts.map (part g))).andThen Matcher.inSequence := by
  rw [matcherOfTree_phrase, phraseMatcher, sequenceMatcher_eq]

private theorem matcherOfTree_alternatives (ts : List Tree) :
    matcherOfTree g (.phrase .alternatives ts) =
      (matchersOf (everyOther (ts.map (part g)))).andThen Matcher.oneOf := by
  rw [matcherOfTree_phrase, phraseMatcher, choiceMatcher_eq]

private theorem basicMatcher_string (repeats : Bool) (w : Word) (ps : List Part) :
    basicMatcher g repeats (part g (w.leaf .string) :: ps) =
      literalMatcher g (w.toLeaf .string) := by
  simp [basicMatcher, Word.leaf, Tree.ofToken, Leaf.ofToken, Word.toLeaf]

private theorem basicMatcher_name (repeats : Bool) (w : Word) (ps : List Part) :
    basicMatcher g repeats (part g (w.leaf .name) :: ps) =
      if (w.toLeaf .name).value.isUpperCase then tokenMatcher g (w.toLeaf .name) ps.head?
      else symbolMatcher g (w.toLeaf .name) ps.head? := by
  rw [basicMatcher, tree_part]
  rfl

private theorem contentOf_details (open' close : Tree) (t : Tree) :
    contentOf (part g (.phrase .details [open', t, close])) = matcherOfTree g t := by
  rw [contentOf, tree_part, Tree.phrase, enclosed?_part]
  rfl

private theorem symbolMatcher_details (leaf : Leaf) (open' close t : Tree) :
    symbolMatcher g leaf (some (part g (.phrase .details [open', t, close]))) =
      (g.symbolOf leaf).andThen fun symbol => (matcherOfTree g t).andThen fun content =>
        .value (.node symbol (some [content]) none) := by
  rw [symbolMatcher]
  dsimp only
  rw [contentOf_details]
  rfl

mutual

theorem Choice.matchersOf_trees : (c : Choice) →
    matchersOf (everyOther (c.trees.map (part g))) = c.each g
  | .single s => by
    rw [Choice.trees, List.map_cons, List.map_nil, everyOther, matchersOf_single, matcher_part,
      matcherOfTree_alternative, Sequence.matchersOf_trees s, Choice.each]
    rfl
  | .either s bar c => by
    rw [Choice.trees, List.map_cons, List.map_cons, everyOther_cons_cons, matchersOf_cons,
      matcher_part, matcherOfTree_alternative, Sequence.matchersOf_trees s,
      Choice.matchersOf_trees c, Choice.each]
    rfl

theorem Sequence.matchersOf_trees : (s : Sequence) →
    matchersOf (s.trees.map (part g)) = s.each g
  | .single i => by
    rw [Sequence.trees, List.map_cons, List.map_nil, matchersOf_single, matcher_part,
      Item.matcherOfTree_tree i, Sequence.each]
    rfl
  | .followed i s => by
    rw [Sequence.trees, List.map_cons, matchersOf_cons, matcher_part,
      Item.matcherOfTree_tree i, Sequence.matchersOf_trees s, Sequence.each]
    rfl

theorem Item.matcherOfTree_tree : (i : Item) → matcherOfTree g i.tree = i.matcher g
  | .negated bang o => by
    rw [Item.tree, matcherOfTree_phrase, phraseMatcher, negatedMatcher, List.map_cons,
      List.tail_cons, Operand.basicMatcher_trees o, Item.matcher]
  | .plain capture? o => by
    rw [Item.tree, matcherOfTree_phrase, phraseMatcher, unitMatcher_plain,
      Operand.basicMatcher_trees o, Item.matcher]
    rfl
  | .repeated capture? b r => by
    rw [Item.tree, matcherOfTree_phrase, phraseMatcher, ← Repeater.tree, unitMatcher_repeated,
      Basic.basicMatcher_trees b, Item.matcher]
    rfl

theorem Operand.basicMatcher_trees : (o : Operand) →
    basicMatcher g false (o.trees.map (part g)) = o.matcher g
  | .optional l c r => by
    have hc : matcherOfTree g (.phrase .alternatives c.trees) =
        (c.each g).andThen Matcher.oneOf := by
      rw [matcherOfTree_alternatives, Choice.matchersOf_trees c]
    rw [Operand.matcher, ← hc]
    simp [Operand.trees, basicMatcher, Word.leaf, Tree.ofToken, Leaf.ofToken, optionalMatcher]
  | .basic b => by rw [Operand.trees, Basic.basicMatcher_trees b, Operand.matcher]

theorem Basic.basicMatcher_trees : (b : Basic) → (repeats : Bool) →
    basicMatcher g repeats (b.trees.map (part g)) = b.matcher g
  | .literal w, _ => by
    rw [Basic.trees, List.map_cons, List.map_nil, basicMatcher_string, Basic.matcher]
  | .name w, _ => by
    rw [Basic.trees, List.map_cons, List.map_nil, basicMatcher_name, Basic.matcher, nameMatcher]
    rfl
  | .detailed w l c r, _ => by
    have hc : matcherOfTree g (.phrase .alternatives c.trees) =
        (c.each g).andThen Matcher.oneOf := by
      rw [matcherOfTree_alternatives, Choice.matchersOf_trees c]
    rw [Basic.trees, List.map_cons, List.map_cons, List.map_nil, basicMatcher_name, Basic.matcher,
      ← hc, List.head?_cons, detailedMatcher, symbolMatcher_details]
    rfl
  | .group l c r, _ => by
    have hc : matcherOfTree g (.phrase .alternatives c.trees) =
        (c.each g).andThen Matcher.oneOf := by
      rw [matcherOfTree_alternatives, Choice.matchersOf_trees c]
    rw [Basic.matcher, ← hc]
    simp [Basic.trees, basicMatcher, Word.leaf, Tree.ofToken, Leaf.ofToken, groupMatcher]

end

/-! ## Repeating -/

theorem Matcher.eq_of_repeating {as : List (List Matcher)} {min max : Number} {m : Matcher}
    (h : (Matcher.repeating as min max).result = .ok m) : m = .wildcard as min max none := by
  unfold Matcher.repeating at h
  split at h
  · next hw =>
    cases h
    exact Matcher.eq_of_wildcard? hw
  · cases h

/-- A repeater with good bounds puts a wildcard around a matcher, unless it repeats exactly once. -/
theorem Grammar.result_repeatMatcher_of_bounds {m : Matcher} {children : List Tree}
    {min max : Number} (hb : boundsOf children = .ok (min, max)) :
    (repeatMatcher m children).result =
      (if min = 1 ∧ max = 1 then .value m
        else m.finish.andThen fun inner => Matcher.repeating [[inner]] min max).result := by
  rw [repeatMatcher, hb, Outcome.result_bind]
  simp only [Outcome.ofExcept, Except.bind]
  split
  · rw [Outcome.result_bind]
    split <;> rfl
  · split <;> rfl

/-! ## Compiling a whole pattern -/

theorem Choice.matcherOfTree_tree (c : Choice) : matcherOfTree g c.tree = c.matcher g := by
  rw [Choice.tree, matcherOfTree_alternatives, c.matchersOf_trees g, Choice.matcher]

/-- What the tree of a choice compiles to is what the choice compiles to. -/
theorem matcherOfTree_pattern (c : Choice) : matcherOfTree g c.pattern = c.matcher g := by
  rw [Choice.pattern, matcherOfTree_phrase, List.map_cons, List.map_nil, phraseMatcher,
    matcher_part, c.matcherOfTree_tree g]

/-- A text that is parsed compiles as the choice that it is. -/
theorem matcherOfText_eq {source : Text} {c : Choice} (h : parse source = .ok c.pattern) :
    matcherOfText g source = (c.matcher g).andThen fun m =>
      ⟨[.compiled source], .ok (c.pattern, m)⟩ := by
  rw [matcherOfText, h]
  dsimp only
  rw [matcherOfTree_pattern]
  rfl

end TreeMatcher
