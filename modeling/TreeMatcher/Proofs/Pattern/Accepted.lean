import Mathlib.Algebra.Ring.Parity
import TreeMatcher.Proofs.Pattern.Unambiguous

/-!
# What the parser accepts

A text that is lexed has a pattern tree exactly when its tokens can be derived from the rules. They
have one derivation then, and the tree is what the derivation contributes; regrouping the children
that a generated parser keeps under their names gives the same tree. The leaves of the tree are the
tokens, and the labels below a branch follow one another as the phrase wants.

* `Phrase.Lays` — the labels of the children of a phrase.
* `Tree.LaidOut` — every branch is a phrase with such children.

## Main results

* `Choice.laidOut_pattern` — the tree of a phrase is laid out.
* `exists_choice_iff_derives` — tokens make up a phrase when their kinds can be derived.
* `parse_eq_ok_iff_derives` — what the parser accepts, and the tree of it.
-/

namespace TreeMatcher

/-! ## Labels below a phrase -/

/-- The labels of the children that a basic pattern contributes to its unit. -/
inductive BasicLabels : List Label → Prop where
  | literal : BasicLabels [.token .string]
  | name : BasicLabels [.token .name]
  | detailed : BasicLabels [.token .name, .phrase .details]
  | group : BasicLabels [.token .lpar, .phrase .alternatives, .token .rpar]

/-- The labels of the children that an operand contributes to its unit. -/
inductive OperandLabels : List Label → Prop where
  | optional : OperandLabels [.token .lsqb, .phrase .alternatives, .token .rsqb]
  | basic {ks : List Label} (h : BasicLabels ks) : OperandLabels ks

/-- The labels of an optional capture name. -/
inductive CaptureLabels : List Label → Prop where
  | none : CaptureLabels []
  | some : CaptureLabels [.token .name, .token .equal]

/-- The labels of the children of a phrase, in order. -/
inductive Phrase.Lays : Phrase → List Label → Prop where
  | matcher : Lays .matcher [.phrase .alternatives]
  | alternatives {ks : List Label} (hodd : Odd ks.length)
      (hks : ∀ (i : Nat) (h : i < ks.length),
        ks[i] = if Odd i then .token .vbar else .phrase .alternative) : Lays .alternatives ks
  | alternative {ks : List Label} (hne : ks ≠ [])
      (hks : ∀ k ∈ ks, k = .phrase .negatedUnit ∨ k = .phrase .unit) : Lays .alternative ks
  | negatedUnit {ks : List Label} (h : OperandLabels ks) : Lays .negatedUnit (.token .bang :: ks)
  | unit {ks ks' : List Label} (hcapture : CaptureLabels ks) (h : OperandLabels ks') :
      Lays .unit (ks ++ ks')
  | repeated {ks ks' : List Label} (hcapture : CaptureLabels ks) (h : BasicLabels ks') :
      Lays .unit (ks ++ (ks' ++ [.phrase .repeater]))
  | details : Lays .details [.token .less, .phrase .alternatives, .token .greater]
  | star : Lays .repeater [.token .star]
  | plus : Lays .repeater [.token .plus]
  | exactly : Lays .repeater [.token .lbrace, .token .number, .token .rbrace]
  | between : Lays .repeater
      [.token .lbrace, .token .number, .token .comma, .token .number, .token .rbrace]

/-- Every branch of a tree is a phrase, with children labelled as the phrase wants. -/
inductive Tree.LaidOut : Tree → Prop where
  | leaf (l : Leaf) : LaidOut (.leaf l)
  | phrase (p : Phrase) {ts : List Tree} (hlays : p.Lays (ts.map Tree.label))
      (hts : ∀ t ∈ ts, t.LaidOut) : LaidOut (.phrase p ts)

private theorem Word.laidOut_leaf (k : TokenKind) (w : Word) : (w.leaf k).LaidOut := .leaf _

/-! ## The labels of a phrase -/

@[simp] theorem Word.label_leaf (k : TokenKind) (w : Word) : (w.leaf k).label = .token k := rfl

@[simp] theorem Tree.label_phrase (p : Phrase) (ts : List Tree) :
    (Tree.phrase p ts).label = .phrase p := rfl

private theorem captureLabels (capture? : Option Capture) :
    CaptureLabels ((captureTrees capture?).map Tree.label) := by
  cases capture? with
  | none => exact .none
  | some c => exact .some

private theorem Basic.labels (b : Basic) : BasicLabels (b.trees.map Tree.label) := by
  cases b with
  | literal w => exact .literal
  | name w => exact .name
  | detailed w l c r => exact .detailed
  | group l c r => exact .group

private theorem Operand.labels (o : Operand) : OperandLabels (o.trees.map Tree.label) := by
  cases o with
  | optional l c r => exact .optional
  | basic b => exact .basic b.labels

private theorem Item.label_tree (i : Item) :
    i.tree.label = .phrase .negatedUnit ∨ i.tree.label = .phrase .unit := by
  cases i with
  | negated bang o => exact .inl rfl
  | plain capture? o => exact .inr rfl
  | repeated capture? b r => exact .inr rfl

private theorem Sequence.labels (s : Sequence) : ∀ k ∈ s.trees.map Tree.label,
    k = .phrase .negatedUnit ∨ k = .phrase .unit := by
  cases s with
  | single i =>
    rw [trees, List.map_singleton, List.forall_mem_singleton]
    exact i.label_tree
  | followed i s =>
    rw [trees, List.map_cons, List.forall_mem_cons]
    exact ⟨i.label_tree, s.labels⟩

/-- Alternatives and bars stand in turn, an alternative first and last. -/
private theorem Choice.lays (c : Choice) : Phrase.Lays .alternatives (c.trees.map Tree.label) := by
  cases c with
  | single s =>
    refine .alternatives odd_one fun i h => ?_
    obtain rfl := Nat.lt_one_iff.1 h
    rfl
  | either s bar c =>
    rw [trees, List.map_cons, List.map_cons]
    cases c.lays with
    | alternatives hodd hks =>
      refine .alternatives (hodd.add_even even_two) fun i h => ?_
      rcases i with _ | _ | i
      · rfl
      · rfl
      · rw [List.getElem_cons_succ, List.getElem_cons_succ, hks i (by simpa using h)]
        simp only [Nat.odd_add_one, not_not]

/-! ## Trees of phrases are laid out -/

private theorem laidOut_captureTrees (capture? : Option Capture) :
    ∀ t ∈ captureTrees capture?, t.LaidOut := by
  cases capture? with
  | none => exact List.forall_mem_nil _
  | some c =>
    exact List.forall_mem_cons.2 ⟨c.name.laidOut_leaf _,
      List.forall_mem_singleton.2 (c.equal.laidOut_leaf _)⟩

private theorem Repeater.laidOut_tree (r : Repeater) : r.tree.LaidOut := by
  cases r with
  | star w => exact .phrase _ .star (by simp [trees, Word.laidOut_leaf])
  | plus w => exact .phrase _ .plus (by simp [trees, Word.laidOut_leaf])
  | exactly l n r => exact .phrase _ .exactly (by simp [trees, Word.laidOut_leaf])
  | between l n c m r => exact .phrase _ .between (by simp [trees, Word.laidOut_leaf])

private theorem laidOut_brackets {t : Tree} (h : t.LaidOut) (k k' : TokenKind) (l r : Word) :
    ∀ u ∈ [l.leaf k, t, r.leaf k'], u.LaidOut := by
  simp [Word.laidOut_leaf, h]

mutual

private theorem Choice.laidOut_trees : (c : Choice) → ∀ t ∈ c.trees, t.LaidOut
  | .single s => by
    rw [Choice.trees, List.forall_mem_singleton]
    exact s.laidOut_tree
  | .either s bar c => by
    rw [Choice.trees, List.forall_mem_cons, List.forall_mem_cons]
    exact ⟨s.laidOut_tree, bar.laidOut_leaf _, Choice.laidOut_trees c⟩

private theorem Choice.laidOut_tree (c : Choice) :
    c.tree.LaidOut := .phrase _ c.lays c.laidOut_trees

private theorem Sequence.laidOut_tree (s : Sequence) : (Tree.phrase .alternative s.trees).LaidOut :=
  .phrase _ (.alternative (by cases s <;> simp [Sequence.trees]) s.labels) s.laidOut_trees

private theorem Sequence.laidOut_trees : (s : Sequence) → ∀ t ∈ s.trees, t.LaidOut
  | .single i => by
    rw [Sequence.trees, List.forall_mem_singleton]
    exact Item.laidOut_tree i
  | .followed i s => by
    rw [Sequence.trees, List.forall_mem_cons]
    exact ⟨Item.laidOut_tree i, Sequence.laidOut_trees s⟩

private theorem Item.laidOut_tree : (i : Item) → i.tree.LaidOut
  | .negated bang o => by
    rw [Item.tree]
    exact .phrase _ (.negatedUnit o.labels)
      (List.forall_mem_cons.2 ⟨bang.laidOut_leaf _, Operand.laidOut_trees o⟩)
  | .plain capture? o => by
    refine .phrase _ ?_ (List.forall_mem_append.2 ⟨laidOut_captureTrees _, Operand.laidOut_trees o⟩)
    rw [List.map_append]
    exact .unit (captureLabels capture?) o.labels
  | .repeated capture? b r => by
    refine .phrase _ ?_ (List.forall_mem_append.2 ⟨laidOut_captureTrees _, List.forall_mem_append.2
      ⟨Basic.laidOut_trees b, List.forall_mem_singleton.2 r.laidOut_tree⟩⟩)
    rw [List.map_append, List.map_append]
    exact .repeated (captureLabels capture?) b.labels

private theorem Operand.laidOut_trees : (o : Operand) → ∀ t ∈ o.trees, t.LaidOut
  | .optional l c r => laidOut_brackets c.laidOut_tree _ _ l r
  | .basic b => Basic.laidOut_trees b

private theorem Basic.laidOut_trees : (b : Basic) → ∀ t ∈ b.trees, t.LaidOut
  | .literal w => List.forall_mem_singleton.2 (w.laidOut_leaf _)
  | .name w => List.forall_mem_singleton.2 (w.laidOut_leaf _)
  | .detailed w l c r =>
    List.forall_mem_cons.2 ⟨w.laidOut_leaf _, List.forall_mem_singleton.2
      (.phrase _ .details (laidOut_brackets c.laidOut_tree _ _ l r))⟩
  | .group l c r => laidOut_brackets c.laidOut_tree _ _ l r

end

/-- The tree of a pattern is laid out. -/
theorem Choice.laidOut_pattern (c : Choice) : c.pattern.LaidOut :=
  .phrase _ .matcher (List.forall_mem_singleton.2 c.laidOut_tree)

/-! ## Accepted texts -/

/-- Tokens make up a phrase when their kinds can be derived. -/
theorem exists_choice_iff_derives {ts : List Token} :
    (∃ c : Choice, ts = c.tokens) ↔ ∃ d, Derives id .matcher (ts.map Token.kind) d := by
  constructor
  · rintro ⟨c, rfl⟩
    exact ⟨_, c.derives.map id Token.kind⟩
  · rintro ⟨d, hd⟩
    obtain ⟨d', -, hd'⟩ := hd.exists_map
    obtain ⟨c, -, hc⟩ := hd'.exists_choice
    exact ⟨c, hc⟩

/-- A text that is lexed has a tree exactly when the kinds of its tokens can be derived from the
rules. There is one derivation then. The tree is that derivation with basic patterns and optional
groups inlined, which is also what regrouping the children of its element by their places gives; it
is laid out as the phrases want, and its leaves are the tokens. -/
theorem parse_eq_ok_iff_derives {t : Text} {ts : List Token} (hlex : lex t = .ok ts) :
    ((∃ tree, parse t = .ok tree) ↔ ∃ d, Derives id .matcher (ts.map Token.kind) d) ∧
      ∀ tree, parse t = .ok tree →
        (∃ d : Derivation Token, Derives Token.kind .matcher ts d ∧
          (∀ d', Derives id .matcher (ts.map Token.kind) d' ↔ d' = d.map Token.kind) ∧
          d.trees = [tree] ∧
          ∃ groups, d.element = .rule "matcher" groups ∧
            patternTree "matcher" groups = .ok tree) ∧
        tree.LaidOut ∧ tree.leaves = ts.map .ofToken := by
  obtain ⟨hu, rfl⟩ := lex_eq_ok_iff.1 hlex
  refine ⟨?_, fun tree htree => ?_⟩
  · rw [← exists_choice_iff_derives]
    simp only [parse_eq_ok_iff_choice, hu, true_and]
    exact ⟨fun ⟨_, c, hc, _⟩ => ⟨c, hc⟩, fun ⟨c, hc⟩ => ⟨_, c, hc, rfl⟩⟩
  · obtain ⟨-, c, hc, rfl⟩ := parse_eq_ok_iff_choice.1 htree
    have hd := c.derives
    have hdescribes := c.describes_whole
    have hkinds : Derives id .matcher (c.tokens.map Token.kind) (c.whole.map Token.kind) :=
      hd.map id Token.kind
    rw [hc]
    refine ⟨⟨c.whole, hd, fun d' => ⟨fun hd' => hd'.unique hkinds, ?_⟩, ?_, c.root, ?_, ?_⟩,
      c.laidOut_pattern, c.leaves_pattern⟩
    · rintro rfl
      exact hkinds
    · simpa using hdescribes.trees
    · simpa using hdescribes.elements
    · exact patternTree_root (hc ▸ inOrder_tokens t)

/-- An optional group around a name. -/
def optionalName : Choice :=
  .single (.single (.plain none (.optional ⟨"[", ⟨1, 1⟩, 0⟩
    (.single (.single (.plain none (.basic (.name ⟨"NAME", ⟨1, 2⟩, 1⟩))))) ⟨"]", ⟨1, 6⟩, 5⟩)))

/-- In the tree of an optional group the brackets stand below the unit. -/
theorem parse_optionalName :
    lex "[NAME]" = .ok optionalName.tokens ∧ parse "[NAME]" = .ok optionalName.pattern ∧
      (∃ d, Derives id .matcher [.lsqb, .name, .rsqb] d) ∧
      ∃ d : Derivation Token, Derives Token.kind .matcher optionalName.tokens d ∧
        d.trees = [optionalName.pattern] := by
  have hu : unrecognized "[NAME]" = [] := by decide +kernel
  have htokens : tokens "[NAME]" = optionalName.tokens := by decide +kernel
  have hlex : lex "[NAME]" = .ok optionalName.tokens := lex_eq_ok_iff.2 ⟨hu, htokens⟩
  have hparse : parse "[NAME]" = .ok optionalName.pattern :=
    parse_eq_ok_iff_choice.2 ⟨hu, optionalName, htokens, rfl⟩
  obtain ⟨haccepted, htree⟩ := parse_eq_ok_iff_derives hlex
  obtain ⟨⟨d, hd, -, htrees, -⟩, -, -⟩ := htree _ hparse
  exact ⟨hlex, hparse, haccepted.1 ⟨_, hparse⟩, d, hd, htrees⟩

end TreeMatcher
