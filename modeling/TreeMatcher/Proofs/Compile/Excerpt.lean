import TreeMatcher.Grammar.Expression
import TreeMatcher.Proofs.Compile.Places
import TreeMatcher.Proofs.Pattern.Excerpt
import TreeMatcher.Proofs.Pattern.Layout

/-!
# A part of a pattern compiles like its text alone

Below the tree of a pattern stand trees that can be compiled on their own: those of choices, of
alternatives and of units. The leaves of such a tree are consecutive tokens of the pattern, and by
themselves these tokens make up a choice, whose only alternative or only unit the tree is. The
excerpt of the text with these tokens is read as just this choice at another place, and places do
not matter for what a choice compiles to.

* `Phrase.standsAlone` — the phrases that can be compiled on their own.
* `ExcerptOf ts t` — the leaves of a tree are consecutive tokens that make up a choice, and the tree
  compiles as the choice.

## Main results

* `Choice.excerpts_pattern` — every such tree below the tree of a pattern is an excerpt.
* `compile_excerpt` — compiling such a tree and compiling the excerpt of the text agree.
-/

namespace TreeMatcher

open Grammar

/-- The phrases that can be compiled on their own. -/
def Phrase.standsAlone : Phrase → Bool
  | matcher | alternatives | alternative | negatedUnit | unit => true
  | repeater | details => false

/-! ## One unit, and one alternative, as a choice -/

/-- One matcher in a row is that matcher. -/
private theorem andThen_inSequence_single (o : Outcome Matcher) :
    (o.andThen fun m => .value [m]).andThen Matcher.inSequence = o := by
  rcases o with ⟨es, _ | m⟩ <;> simp [Outcome.andThen, Outcome.value, Matcher.inSequence]

/-- A choice of one matcher is that matcher. -/
private theorem andThen_oneOf_single (o : Outcome Matcher) :
    (o.andThen fun m => .value [m]).andThen Matcher.oneOf = o := by
  rcases o with ⟨es, _ | m⟩ <;> simp [Outcome.andThen, Outcome.value, Matcher.oneOf]

variable (g : Grammar)

theorem Sequence.matcher_single (i : Item) : (Sequence.single i).matcher g = i.matcher g := by
  rw [Sequence.matcher, Sequence.each]
  exact andThen_inSequence_single _

theorem Choice.matcher_single (s : Sequence) : (Choice.single s).matcher g = s.matcher g := by
  rw [Choice.matcher, Choice.each]
  exact andThen_oneOf_single _

private theorem Sequence.matcherOfTree_tree (s : Sequence) :
    matcherOfTree g s.tree = s.matcher g := by
  rw [Sequence.tree, matcherOfTree_alternative, s.matchersOf_trees g, Sequence.matcher]

/-! ## Excerpts -/

/-- The leaves of a tree are some consecutive ones of the given tokens. They make up a choice, and
the tree compiles as this choice. -/
def ExcerptOf (ts : List Token) (t : Tree) : Prop :=
  ∃ (before after : List Token) (c : Choice), ts = before ++ (c.tokens ++ after) ∧
    t.leaves = c.tokens.map .ofToken ∧ ∀ g : Grammar, matcherOfTree g t = c.matcher g

/-- Every tree at or below a given one that can be compiled on its own is an excerpt. -/
def HoldsExcerpts (ts : List Token) (t : Tree) : Prop :=
  ∀ path u p, t.descend? path = some u → u.label = .phrase p → p.standsAlone → ExcerptOf ts u

variable {ts : List Token} {t : Tree}

private theorem ExcerptOf.widen (h : ExcerptOf ts t) (us vs : List Token) :
    ExcerptOf (us ++ (ts ++ vs)) t := by
  obtain ⟨before, after, c, rfl, hleaves, hmatcher⟩ := h
  exact ⟨us ++ before, after ++ vs, c, by simp, hleaves, hmatcher⟩

private theorem HoldsExcerpts.widen (h : HoldsExcerpts ts t) (us vs : List Token) :
    HoldsExcerpts (us ++ (ts ++ vs)) t :=
  fun path u p hu hlabel hp => (h path u p hu hlabel hp).widen us vs

private theorem HoldsExcerpts.behind (h : HoldsExcerpts ts t) (us : List Token) :
    HoldsExcerpts (us ++ ts) t := by
  simpa using h.widen us []

private theorem HoldsExcerpts.before (h : HoldsExcerpts ts t) (vs : List Token) :
    HoldsExcerpts (ts ++ vs) t :=
  h.widen [] vs

/-- A leaf is no phrase. -/
private theorem holdsExcerpts_leaf (ts : List Token) (k : TokenKind) (w : Word) :
    HoldsExcerpts ts (w.leaf k) := by
  rintro (_ | ⟨i, path⟩) u p hu hlabel -
  · cases hu
    cases hlabel
  · cases hu

private theorem holdsExcerpts_phrase {p : Phrase} {children : List Tree}
    (hself : p.standsAlone → ExcerptOf ts (.phrase p children))
    (hchildren : ∀ t ∈ children, HoldsExcerpts ts t) : HoldsExcerpts ts (.phrase p children) := by
  rintro (_ | ⟨i, path⟩) u q hu hlabel hq
  · cases hu
    cases hlabel
    exact hself hq
  · rw [Tree.phrase, Tree.descend?] at hu
    split at hu
    · next t ht => exact hchildren t (List.mem_of_getElem? ht) path u q hu hlabel hq
    · cases hu

private theorem holdsExcerpts_capture (ts : List Token) (capture? : Option Capture) :
    ∀ t ∈ captureTrees capture?, HoldsExcerpts ts t := by
  cases capture? <;> simp [captureTrees, holdsExcerpts_leaf]

private theorem Repeater.holdsExcerpts_tree (ts : List Token) (r : Repeater) :
    HoldsExcerpts ts r.tree := by
  refine holdsExcerpts_phrase (by simp [Phrase.standsAlone]) ?_
  cases r <;> simp [trees, holdsExcerpts_leaf]

/-- A choice is an excerpt of its own tokens. -/
private theorem Choice.excerptOf_tree (c : Choice) : ExcerptOf c.tokens c.tree :=
  ⟨[], [], c, by simp, by rw [tree, leaves_phrase, c.leaves_trees], fun g => c.matcherOfTree_tree g⟩

private theorem Sequence.excerptOf_tree (s : Sequence) : ExcerptOf s.tokens s.tree :=
  ⟨[], [], .single s, by simp [Choice.tokens],
    by rw [tree, leaves_phrase, s.leaves_trees, Choice.tokens],
    fun g => by rw [s.matcherOfTree_tree, Choice.matcher_single]⟩

private theorem Item.excerptOf_tree (i : Item) : ExcerptOf i.tokens i.tree :=
  ⟨[], [], .single (.single i), by simp [Choice.tokens, Sequence.tokens],
    by rw [i.leaves_tree, Choice.tokens, Sequence.tokens],
    fun g => by rw [i.matcherOfTree_tree, Choice.matcher_single, Sequence.matcher_single]⟩

mutual

private theorem Choice.excerpts_trees : (c : Choice) → ∀ t ∈ c.trees, HoldsExcerpts c.tokens t
  | .single s => by
    rw [Choice.trees, Choice.tokens, List.forall_mem_singleton]
    exact Sequence.excerpts_tree s
  | .either s bar c => by
    rw [Choice.trees, Choice.tokens, List.forall_mem_cons, List.forall_mem_cons]
    refine ⟨(Sequence.excerpts_tree s).before _, holdsExcerpts_leaf _ _ _, fun t ht => ?_⟩
    have hc := (Choice.excerpts_trees c t ht).behind (s.tokens ++ [bar.token .vbar])
    rwa [List.append_assoc] at hc

private theorem Choice.excerpts_tree (c : Choice) : HoldsExcerpts c.tokens c.tree :=
  holdsExcerpts_phrase (fun _ => c.excerptOf_tree) (Choice.excerpts_trees c)

private theorem Sequence.excerpts_tree (s : Sequence) : HoldsExcerpts s.tokens s.tree :=
  holdsExcerpts_phrase (fun _ => s.excerptOf_tree) (Sequence.excerpts_trees s)

private theorem Sequence.excerpts_trees : (s : Sequence) → ∀ t ∈ s.trees, HoldsExcerpts s.tokens t
  | .single i => by
    rw [Sequence.trees, Sequence.tokens, List.forall_mem_singleton]
    exact Item.excerpts_tree i
  | .followed i s => by
    rw [Sequence.trees, Sequence.tokens, List.forall_mem_cons]
    exact ⟨(Item.excerpts_tree i).before _, fun t ht => (Sequence.excerpts_trees s t ht).behind _⟩

private theorem Item.excerpts_tree : (i : Item) → HoldsExcerpts i.tokens i.tree
  | .negated bang o => by
    have hself := (Item.negated bang o).excerptOf_tree
    rw [Item.tree, Item.tokens] at hself ⊢
    refine holdsExcerpts_phrase (fun _ => hself)
      (List.forall_mem_cons.2 ⟨holdsExcerpts_leaf _ _ _, fun t ht => ?_⟩)
    exact (Operand.excerpts_trees o t ht).behind [bang.token .bang]
  | .plain capture? o => by
    have hself := (Item.plain capture? o).excerptOf_tree
    rw [Item.tree, Item.tokens] at hself ⊢
    refine holdsExcerpts_phrase (fun _ => hself)
      (List.forall_mem_append.2 ⟨holdsExcerpts_capture _ _, fun t ht => ?_⟩)
    exact (Operand.excerpts_trees o t ht).behind _
  | .repeated capture? b r => by
    have hself := (Item.repeated capture? b r).excerptOf_tree
    rw [Item.tree, Item.tokens] at hself ⊢
    refine holdsExcerpts_phrase (fun _ => hself) (List.forall_mem_append.2
      ⟨holdsExcerpts_capture _ _, List.forall_mem_append.2 ⟨fun t ht => ?_,
        List.forall_mem_singleton.2 (r.holdsExcerpts_tree _)⟩⟩)
    exact (Basic.excerpts_trees b t ht).widen _ _

private theorem Operand.excerpts_trees : (o : Operand) → ∀ t ∈ o.trees, HoldsExcerpts o.tokens t
  | .optional l c r => by
    rw [Operand.trees, Operand.tokens, List.forall_mem_cons, List.forall_mem_cons,
      List.forall_mem_singleton]
    exact ⟨holdsExcerpts_leaf _ _ _, (Choice.excerpts_tree c).widen [l.token .lsqb] _,
      holdsExcerpts_leaf _ _ _⟩
  | .basic b => by
    rw [Operand.trees, Operand.tokens]
    exact Basic.excerpts_trees b

private theorem Basic.excerpts_trees : (b : Basic) → ∀ t ∈ b.trees, HoldsExcerpts b.tokens t
  | .literal w => by
    rw [Basic.trees, List.forall_mem_singleton]
    exact holdsExcerpts_leaf _ _ _
  | .name w => by
    rw [Basic.trees, List.forall_mem_singleton]
    exact holdsExcerpts_leaf _ _ _
  | .detailed w l c r => by
    rw [Basic.trees, Basic.tokens, List.forall_mem_cons, List.forall_mem_singleton]
    refine ⟨holdsExcerpts_leaf _ _ _, holdsExcerpts_phrase (by simp [Phrase.standsAlone]) ?_⟩
    rw [List.forall_mem_cons, List.forall_mem_cons, List.forall_mem_singleton]
    exact ⟨holdsExcerpts_leaf _ _ _,
      (Choice.excerpts_tree c).widen [w.token .name, l.token .less] _, holdsExcerpts_leaf _ _ _⟩
  | .group l c r => by
    rw [Basic.trees, Basic.tokens, List.forall_mem_cons, List.forall_mem_cons,
      List.forall_mem_singleton]
    exact ⟨holdsExcerpts_leaf _ _ _, (Choice.excerpts_tree c).widen [l.token .lpar] _,
      holdsExcerpts_leaf _ _ _⟩

end

/-- Below the tree of a pattern every tree that can be compiled on its own is an excerpt. -/
theorem Choice.excerpts_pattern (c : Choice) : HoldsExcerpts c.tokens c.pattern := by
  refine holdsExcerpts_phrase (fun _ => ⟨[], [], c, by simp, c.leaves_pattern, fun g => ?_⟩)
    (List.forall_mem_singleton.2 c.excerpts_tree)
  exact matcherOfTree_pattern g c

/-! ## Compiling an excerpt -/

/-- Outcomes that agree up to places have the same value, or errors that agree up to places. -/
theorem Outcome.results_of_unlocated {α : Type} {o o' : Outcome α}
    (h : o.unlocated = o'.unlocated) :
    (∃ a, o.result = .ok a ∧ o'.result = .ok a) ∨
      ∃ e e', o.result = .error e ∧ o'.result = .error e' ∧ e.unlocated = e'.unlocated := by
  have hr := congrArg Outcome.result h
  rcases o with ⟨es, e | a⟩ <;> rcases o' with ⟨es', e' | a'⟩
  · exact .inr ⟨e, e', rfl, rfl, Except.error.inj hr⟩
  · cases hr
  · cases hr
  · cases Except.ok.inj hr
    exact .inl ⟨a, rfl, rfl⟩

/-- The excerpt of a text with the tokens of a choice has the tree of a choice that differs from it
in places only. -/
private theorem parse_excerpt {source : Text} {before after : List Token} {c : Choice}
    {first last : Token} (hu : unrecognized source = [])
    (h : tokens source = before ++ (c.tokens ++ after)) (hfirst : first ∈ c.tokens.head?)
    (hlast : last ∈ c.tokens.getLast?) :
    ∃ c' : Choice, parse (source.excerpt first.offset (last.offset + last.text.length)) =
      .ok c'.pattern ∧ c'.erase = c.erase := by
  obtain ⟨hu', hbare⟩ := (scans_excerpt hu h hfirst hlast).lexed
  obtain ⟨c', htokens, herase⟩ := c.exists_of_bare _ hbare
  exact ⟨c', parse_eq_ok_iff_choice.2 ⟨hu', c', htokens.symm, rfl⟩, herase⟩

/-- Compiling is compositional in the text. Take any tree below the tree of a text that can be
compiled on its own, and the excerpt from its first leaf to its last. The excerpt is lexed and
parsed. What the tree compiles to, the excerpt compiles to as well, and where the tree is refused,
so is the excerpt, for the same cause. -/
theorem compile_excerpt {g : Grammar} {source : Text} {tree t : Tree} {path : List Nat} {p : Phrase}
    (hparse : parse source = .ok tree) (hsub : tree.descend? path = some t)
    (hlabel : t.label = .phrase p) (hp : p.standsAlone) :
    ∃ (first last : Leaf) (i j : Nat), t.leaves.head? = some first ∧ t.leaves.getLast? = some last ∧
      first.offset = .int i ∧ last.offset = .int j ∧
      (∃ ts, lex (source.excerpt i (j + last.value.length)) = .ok ts) ∧
      ∃ tree', parse (source.excerpt i (j + last.value.length)) = .ok tree' ∧
        ((∃ m, (g.matcherOfTree t).result = .ok m ∧
          (g.matcherOfText (source.excerpt i (j + last.value.length))).result = .ok (tree', m)) ∨
        ∃ e e', (g.matcherOfTree t).result = .error e ∧
          (g.matcherOfText (source.excerpt i (j + last.value.length))).result = .error e' ∧
          e.unlocated = e'.unlocated) := by
  obtain ⟨hu, c, htokens, rfl⟩ := parse_eq_ok_iff_choice.1 hparse
  obtain ⟨before, after, x, hx, hleaves, hmatcher⟩ :=
    c.excerpts_pattern path t p hsub hlabel hp
  have hne : x.tokens ≠ [] := x.tokens_ne_nil
  obtain ⟨c', hc', herase⟩ := parse_excerpt hu (htokens.trans hx)
    (List.head?_eq_some_head hne) (List.getLast?_eq_some_getLast hne)
  refine ⟨.ofToken (x.tokens.head hne), .ofToken (x.tokens.getLast hne),
    (x.tokens.head hne).offset, (x.tokens.getLast hne).offset, ?_, ?_, rfl, rfl,
    ⟨_, lex_eq_ok_iff.2 ⟨(parse_eq_ok_iff_choice.1 hc').1, rfl⟩⟩, c'.pattern, hc', ?_⟩
  · rw [hleaves, List.head?_map, List.head?_eq_some_head hne, Option.map_some]
  · rw [hleaves, List.getLast?_map, List.getLast?_eq_some_getLast hne, Option.map_some]
  · have hsame : (g.matcherOfTree t).unlocated = (c'.matcher g).unlocated := by
      rw [hmatcher, x.unlocated_matcher, c'.unlocated_matcher, herase]
    rw [show (Leaf.ofToken (x.tokens.getLast hne)).value = (x.tokens.getLast hne).text from rfl,
      matcherOfText_eq g hc']
    rcases Outcome.results_of_unlocated hsame with ⟨m, ht, hm⟩ | ⟨e, e', ht, he, hunlocated⟩
    · exact .inl ⟨m, ht, by rw [Outcome.andThen, hm]⟩
    · exact .inr ⟨e, e', ht, by rw [Outcome.andThen, he], hunlocated⟩

/-- A literal or a negated name. -/
def literalOrNot : Choice :=
  .either (.single (.plain none (.basic (.literal ⟨"'''a'''", ⟨1, 7⟩, 6⟩)))) ⟨"|", ⟨1, 15⟩, 14⟩
    (.single (.single (.negated ⟨"!", ⟨1, 17⟩, 16⟩ (.basic (.name ⟨"NAME", ⟨1, 18⟩, 17⟩)))))

/-- A name and a group. -/
def nameAndGroup : Choice :=
  .single (.followed (.plain none (.basic (.name ⟨"NAME", ⟨1, 1⟩, 0⟩)))
    (.single (.plain none
      (.basic (.group ⟨"(", ⟨1, 6⟩, 5⟩ literalOrNot ⟨")", ⟨1, 22⟩, 21⟩)))))

/-- What stands in the group is compiled like its text alone. -/
theorem compile_excerpt_group :
    parse "NAME ('''a''' | !NAME)" = .ok nameAndGroup.pattern ∧
      nameAndGroup.pattern.descend? [0, 0, 1, 1] = some literalOrNot.tree ∧
      ∃ tree m, parse "'''a''' | !NAME" = .ok tree ∧
        (expression.matcherOfTree literalOrNot.tree).result = .ok m ∧
        (expression.matcherOfText "'''a''' | !NAME").result = .ok (tree, m) := by
  have hparse : parse "NAME ('''a''' | !NAME)" = .ok nameAndGroup.pattern :=
    parse_eq_ok_iff_choice.2 ⟨by decide +kernel, nameAndGroup, by decide +kernel, rfl⟩
  have hsub : nameAndGroup.pattern.descend? [0, 0, 1, 1] = some literalOrNot.tree := rfl
  have hok : (expression.matcherOfTree literalOrNot.tree).result.toOption.isSome := by
    decide +kernel
  obtain ⟨first, last, i, j, hfirst, hlast, hi, hj, -, tree, htree, h⟩ :=
    compile_excerpt (g := expression) hparse hsub rfl rfl
  obtain rfl : _ = first := Option.some.inj hfirst
  obtain rfl : _ = last := Option.some.inj hlast
  cases hi
  cases hj
  refine ⟨hparse, hsub, tree, ?_⟩
  rcases h with ⟨m, ht, hs⟩ | ⟨e, e', ht, -⟩
  · exact ⟨m, htree, ht, hs⟩
  · rw [ht] at hok
    cases hok

end TreeMatcher
