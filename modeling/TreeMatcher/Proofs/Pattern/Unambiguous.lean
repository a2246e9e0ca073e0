import TreeMatcher.Proofs.Pattern.Elements
import TreeMatcher.Proofs.Pattern.Rules

/-!
# Tokens have one derivation

A phrase is a derivation, and every derivation is that of a phrase. The strict parser makes the same
tree for the same tokens, and a phrase can be read off its tree, although the nodes of basic
patterns and optional groups are left out there. So no tokens are derived in two ways.

* `Choice.derivations` and its companions — the derivation of a phrase.
* `Describes` — derivations in a row, with their leaves, their trees and their elements.

## Main results

* `Choice.describes` and its companions — the derivation of a phrase has its tokens and its tree.
* `Derivation.Valid.makes` — every derivation is that of a phrase.
* `Choice.trees_injective` — a phrase can be read off its tree.
* `Derives.unique` — tokens have one derivation.
-/

namespace TreeMatcher

/-! ## The derivation of a phrase -/

/-- The leaf of a word. -/
def Word.derivation (k : TokenKind) (w : Word) : Derivation Token := .token (w.token k)

/-- What a unit derives for an optional capture name. -/
def captureDerivations : Option Capture → List (Derivation Token)
  | none => []
  | some c => [c.name.derivation .name, c.equal.derivation .equal]

/-- What a repeater derives. -/
def Repeater.derivation (r : Repeater) : Derivation Token :=
  .rule .repeater <|
    match r with
    | star w => [w.derivation .star]
    | plus w => [w.derivation .plus]
    | exactly l n r => [l.derivation .lbrace, n.derivation .number, r.derivation .rbrace]
    | between l n c m r =>
      [l.derivation .lbrace, n.derivation .number, c.derivation .comma, m.derivation .number,
        r.derivation .rbrace]

mutual

/-- What alternatives derive. -/
def Choice.derivations : Choice → List (Derivation Token)
  | .single s => [.rule .alternative s.derivations]
  | .either s bar c => .rule .alternative s.derivations :: bar.derivation .vbar :: c.derivations

/-- What an alternative derives. -/
def Sequence.derivations : Sequence → List (Derivation Token)
  | .single i => [i.derivation]
  | .followed i s => i.derivation :: s.derivations

/-- The derivation of a unit. -/
def Item.derivation : Item → Derivation Token
  | .negated bang o => .rule .negatedUnit [bang.derivation .bang, o.derivation]
  | .plain capture? o => .rule .unit (captureDerivations capture? ++ [o.derivation])
  | .repeated capture? b r =>
    .rule .unit (captureDerivations capture? ++ [b.derivation, r.derivation])

/-- The derivation of an operand. -/
def Operand.derivation : Operand → Derivation Token
  | .optional l c r =>
    .rule .optional [l.derivation .lsqb, .rule .alternatives c.derivations, r.derivation .rsqb]
  | .basic b => b.derivation

/-- The derivation of a basic pattern. -/
def Basic.derivation : Basic → Derivation Token
  | .literal w => .rule .basic [w.derivation .string]
  | .name w => .rule .basic [w.derivation .name]
  | .detailed w l c r =>
    .rule .basic [w.derivation .name,
      .rule .details [l.derivation .less, .rule .alternatives c.derivations,
        r.derivation .greater]]
  | .group l c r =>
    .rule .basic [l.derivation .lpar, .rule .alternatives c.derivations, r.derivation .rpar]

end

/-- The derivation of alternatives. -/
def Choice.derivation (c : Choice) : Derivation Token := .rule .alternatives c.derivations

/-- The derivation of a whole pattern. -/
def Choice.whole (c : Choice) : Derivation Token := .rule .matcher [c.derivation]

/-! ## What the derivation of a phrase contributes -/

/-- Derivations in a row, with their leaves, the trees they contribute, and their elements. -/
structure Describes (ds : List (Derivation Token)) (ts : List Token) (trees : List Tree)
    (es : List Element) : Prop where
  leaves : ds.flatMap Derivation.leaves = ts
  trees : ds.flatMap Derivation.trees = trees
  elements : ds.map Derivation.element = es
  valid : ∀ d ∈ ds, d.Valid Token.kind

namespace Describes

variable {ds ds' : List (Derivation Token)} {ts ts' : List Token} {trees trees' : List Tree}
  {es es' : List Element}

private theorem nil : Describes [] [] [] [] := ⟨rfl, rfl, rfl, by simp⟩

private theorem append (h : Describes ds ts trees es) (h' : Describes ds' ts' trees' es') :
    Describes (ds ++ ds') (ts ++ ts') (trees ++ trees') (es ++ es') where
  leaves := by rw [List.flatMap_append, h.leaves, h'.leaves]
  trees := by rw [List.flatMap_append, h.trees, h'.trees]
  elements := by rw [List.map_append, h.elements, h'.elements]
  valid := List.forall_mem_append.2 ⟨h.valid, h'.valid⟩

private theorem word (k : TokenKind) (w : Word) (h : Describes ds ts trees es) :
    Describes (w.derivation k :: ds) (w.token k :: ts) (w.leaf k :: trees) (w.element k :: es) where
  leaves := by rw [List.flatMap_cons, h.leaves, Word.derivation, Derivation.leaves_token]; rfl
  trees := by rw [List.flatMap_cons, h.trees, Word.derivation, Derivation.trees_token]; rfl
  elements := by rw [List.map_cons, h.elements, Word.derivation, Derivation.element_token]; rfl
  valid := List.forall_mem_cons.2 ⟨.token _, h.valid⟩

/-- A rule with a node of its own. -/
private theorem phrase (h : Describes ds ts trees es) (r : Rule) {p : Phrase}
    (hp : r.phrase? = some p) (hbody : ds.map (Derivation.root Token.kind) ∈ r.body.matches') :
    Describes [.rule r ds] ts [.phrase p trees] [.of r.name es] where
  leaves := by simpa using h.leaves
  trees := by simp [hp, h.trees]
  elements := by simp [h.elements]
  valid := List.forall_mem_singleton.2 (.rule hbody h.valid)

/-- A rule whose children take its place. -/
private theorem inlined (h : Describes ds ts trees es) (r : Rule) (hr : r.phrase? = none)
    (hbody : ds.map (Derivation.root Token.kind) ∈ r.body.matches') :
    Describes [.rule r ds] ts trees [.of r.name es] where
  leaves := by simpa using h.leaves
  trees := by simp [hr, h.trees]
  elements := by simp [h.elements]
  valid := List.forall_mem_singleton.2 (.rule hbody h.valid)

end Describes

private theorem describes_capture (capture? : Option Capture) :
    Describes (captureDerivations capture?) (captureTokens capture?) (captureTrees capture?)
      (captureElements capture?) := by
  cases capture? with
  | none => exact .nil
  | some c => exact .word _ _ (.word _ _ .nil)

/-! ## The roots of the parts of a phrase -/

private theorem Item.root_derivation (i : Item) :
    i.derivation.root Token.kind = .rule .negatedUnit ∨
      i.derivation.root Token.kind = .rule .unit := by
  cases i with
  | negated => exact .inl rfl
  | plain => exact .inr rfl
  | repeated => exact .inr rfl

private theorem Basic.root_derivation (b : Basic) :
    b.derivation.root Token.kind = .rule .basic := by
  cases b <;> rfl

private theorem Operand.root_derivation (o : Operand) :
    o.derivation.root Token.kind = .rule .optional ∨
      o.derivation.root Token.kind = .rule .basic := by
  cases o with
  | optional => exact .inl rfl
  | basic b => exact .inr b.root_derivation

private theorem Choice.mem_body (c : Choice) :
    c.derivations.map (Derivation.root Token.kind) ∈ Rule.alternatives.body.matches' := by
  cases c with
  | single s => exact Rule.mem_body_alternatives.2 (.inl rfl)
  | either s bar c => exact Rule.mem_body_alternatives.2 (.inr ⟨_, c.mem_body, rfl⟩)

private theorem Sequence.mem_body (s : Sequence) :
    s.derivations.map (Derivation.root Token.kind) ∈ Rule.alternative.body.matches' := by
  cases s with
  | single i => exact Rule.mem_body_alternative.2 ⟨_, i.root_derivation, .inl rfl⟩
  | followed i s =>
    exact Rule.mem_body_alternative.2 ⟨_, i.root_derivation, .inr ⟨_, s.mem_body, rfl⟩⟩

/-- Behind a capture name or none, a unit goes on in one of three ways. -/
private theorem mem_body_unit_of (capture? : Option Capture) {ds : List (Derivation Token)}
    (h : ds.map (Derivation.root Token.kind) = [.rule .optional] ∨
      ds.map (Derivation.root Token.kind) = [.rule .basic] ∨
        ds.map (Derivation.root Token.kind) = [.rule .basic, .rule .repeater]) :
    (captureDerivations capture? ++ ds).map (Derivation.root Token.kind) ∈
      Rule.unit.body.matches' := by
  rw [List.map_append]
  refine Rule.mem_body_unit.2 ⟨_, _, ?_, h, rfl⟩
  cases capture? with
  | none => exact .inl rfl
  | some c => exact .inr rfl

/-! ## The derivation of a phrase has its tokens and its tree -/

theorem Repeater.describes (r : Repeater) :
    Describes [r.derivation] r.tokens [.phrase .repeater r.trees] [.of "repeater" r.elements] := by
  cases r with
  | star w =>
    exact (Describes.nil.word _ w).phrase .repeater rfl (Rule.mem_body_repeater.2 (.inl rfl))
  | plus w =>
    exact (Describes.nil.word _ w).phrase .repeater rfl (Rule.mem_body_repeater.2 (.inr (.inl rfl)))
  | exactly l n r =>
    exact (((Describes.nil.word _ r).word _ n).word _ l).phrase .repeater rfl
      (Rule.mem_body_repeater.2 (.inr (.inr (.inl rfl))))
  | between l n c m r =>
    exact (((((Describes.nil.word _ r).word _ m).word _ c).word _ n).word _ l).phrase .repeater rfl
      (Rule.mem_body_repeater.2 (.inr (.inr (.inr rfl))))

/-- Alternatives between brackets. -/
private theorem describes_brackets {c : Choice}
    (h : Describes c.derivations c.tokens c.trees c.elements) (k k' : TokenKind) (l r : Word) :
    Describes [l.derivation k, .rule .alternatives c.derivations, r.derivation k']
      (l.token k :: (c.tokens ++ [r.token k']))
      [l.leaf k, .phrase .alternatives c.trees, r.leaf k']
      [l.element k, .of "alternatives" c.elements, r.element k'] :=
  ((h.phrase .alternatives rfl c.mem_body).append (Describes.nil.word k' r)).word k l

mutual

theorem Choice.describes : (c : Choice) →
    Describes c.derivations c.tokens c.trees c.elements
  | .single s => by
    rw [Choice.derivations, Choice.tokens, Choice.trees, Choice.elements]
    exact (Sequence.describes s).phrase .alternative rfl s.mem_body
  | .either s bar c => by
    rw [Choice.derivations, Choice.tokens, Choice.trees, Choice.elements]
    exact ((Sequence.describes s).phrase .alternative rfl s.mem_body).append
      ((Choice.describes c).word _ bar)

theorem Sequence.describes : (s : Sequence) →
    Describes s.derivations s.tokens s.trees s.elements
  | .single i => by
    rw [Sequence.derivations, Sequence.tokens, Sequence.trees, Sequence.elements]
    exact Item.describes i
  | .followed i s => by
    rw [Sequence.derivations, Sequence.tokens, Sequence.trees, Sequence.elements]
    exact (Item.describes i).append (Sequence.describes s)

theorem Item.describes : (i : Item) → Describes [i.derivation] i.tokens [i.tree] [i.element]
  | .negated bang o => by
    rw [Item.derivation, Item.tokens, Item.tree, Item.element]
    refine ((Operand.describes o).word _ bang).phrase .negatedUnit rfl ?_
    have hbody {k : Constituent} : o.derivation.root Token.kind = k →
        [Constituent.token .bang, o.derivation.root Token.kind] = [.token .bang, k] :=
      congrArg fun k => [_, k]
    exact Rule.mem_body_negatedUnit.2 (o.root_derivation.imp hbody hbody)
  | .plain capture? o => by
    rw [Item.derivation, Item.tokens, Item.tree, Item.element]
    refine ((describes_capture capture?).append (Operand.describes o)).phrase .unit rfl ?_
    have hbody {k : Constituent} : o.derivation.root Token.kind = k →
        [o.derivation.root Token.kind] = [k] := congrArg fun k => [k]
    exact mem_body_unit_of capture? (o.root_derivation.imp hbody fun h => .inl (hbody h))
  | .repeated capture? b r => by
    rw [Item.derivation, Item.tokens, Item.tree, Item.element]
    refine ((describes_capture capture?).append
      ((Basic.describes b).append r.describes)).phrase .unit rfl ?_
    exact mem_body_unit_of capture? (.inr (.inr (congrArg (fun k => [k, _]) b.root_derivation)))

theorem Operand.describes : (o : Operand) → Describes [o.derivation] o.tokens o.trees [o.element]
  | .optional l c r => by
    rw [Operand.derivation, Operand.tokens, Operand.trees, Operand.element]
    exact (describes_brackets (Choice.describes c) _ _ l r).inlined .optional rfl
      (Rule.mem_body_optional.2 rfl)
  | .basic b => by
    rw [Operand.derivation, Operand.tokens, Operand.trees, Operand.element]
    exact Basic.describes b

theorem Basic.describes : (b : Basic) → Describes [b.derivation] b.tokens b.trees [b.element]
  | .literal w => by
    rw [Basic.derivation, Basic.tokens, Basic.trees, Basic.element]
    exact (Describes.nil.word _ w).inlined .basic rfl (Rule.mem_body_basic.2 (.inl rfl))
  | .name w => by
    rw [Basic.derivation, Basic.tokens, Basic.trees, Basic.element]
    exact (Describes.nil.word _ w).inlined .basic rfl (Rule.mem_body_basic.2 (.inr (.inl rfl)))
  | .detailed w l c r => by
    rw [Basic.derivation, Basic.tokens, Basic.trees, Basic.element]
    have hdetails := (describes_brackets (Choice.describes c) .less .greater l r).phrase .details
      rfl (Rule.mem_body_details.2 rfl)
    exact (hdetails.word _ w).inlined .basic rfl (Rule.mem_body_basic.2 (.inr (.inr (.inl rfl))))
  | .group l c r => by
    rw [Basic.derivation, Basic.tokens, Basic.trees, Basic.element]
    exact (describes_brackets (Choice.describes c) _ _ l r).inlined .basic rfl
      (Rule.mem_body_basic.2 (.inr (.inr (.inr rfl))))

end

theorem Choice.describes_whole (c : Choice) :
    Describes [c.whole] c.tokens [c.pattern] [.rule "matcher" c.root] :=
  (c.describes.phrase .alternatives rfl c.mem_body).phrase .matcher rfl rfl

/-! ## Every derivation is that of a phrase -/

/-- A derivation is that of a phrase of the right sort. -/
def Rule.Makes : Rule → Derivation Token → Prop
  | matcher, d => ∃ c : Choice, d = c.whole
  | alternatives, d => ∃ c : Choice, d = c.derivation
  | alternative, d => ∃ s : Sequence, d = .rule .alternative s.derivations
  | negatedUnit, d => ∃ i : Item, d = i.derivation
  | unit, d => ∃ i : Item, d = i.derivation
  | basic, d => ∃ b : Basic, d = b.derivation
  | optional, d => ∃ (l : Word) (c : Choice) (r : Word),
      d = .rule .optional [l.derivation .lsqb, c.derivation, r.derivation .rsqb]
  | details, d => ∃ (l : Word) (c : Choice) (r : Word),
      d = .rule .details [l.derivation .less, c.derivation, r.derivation .greater]
  | repeater, d => ∃ r : Repeater, d = r.derivation

/-- A derivation whose root is a given constituent is that of a phrase, or of a word. -/
def Constituent.Makes : Constituent → Derivation Token → Prop
  | token k, d => ∃ w : Word, d = w.derivation k
  | rule r, d => r.Makes d

/-- Some derivations are those of phrases and words that make up given constituents. -/
abbrev MakesEach (ks : List Constituent) (ds : List (Derivation Token)) : Prop :=
  List.Forall₂ Constituent.Makes ks ds

section

variable {ks : List Constituent} {ds : List (Derivation Token)}

/-- Alternatives and bars in turn are those of a choice. -/
private theorem exists_choice {ks : List Constituent} {ds : List (Derivation Token)}
    (hks : ks ∈ Rule.alternatives.body.matches') (h : MakesEach ks ds) :
    ∃ c : Choice, ds = c.derivations := by
  rcases Rule.mem_body_alternatives.1 hks with rfl | ⟨ks', hks', rfl⟩
  · obtain _ | ⟨⟨s, rfl⟩, ⟨⟩⟩ := h
    exact ⟨.single s, rfl⟩
  · obtain _ | ⟨⟨s, rfl⟩, _ | ⟨⟨bar, rfl⟩, hmore⟩⟩ := h
    obtain ⟨c, rfl⟩ := exists_choice hks' hmore
    exact ⟨.either s bar c, rfl⟩
termination_by ks.length

/-- Units in a row are those of a sequence. -/
private theorem exists_sequence_of_words {ks : List Constituent} {ds : List (Derivation Token)}
    (hks : ks ∈ Rule.alternative.body.matches') (h : MakesEach ks ds) :
    ∃ s : Sequence, ds = s.derivations := by
  obtain ⟨k, hk, hrest⟩ := Rule.mem_body_alternative.1 hks
  have hunit {d : Derivation Token} (hd : k.Makes d) : ∃ i : Item, d = i.derivation := by
    rcases hk with rfl | rfl <;> exact hd
  rcases hrest with rfl | ⟨ks', hks', rfl⟩
  · obtain _ | ⟨hd, ⟨⟩⟩ := h
    obtain ⟨i, rfl⟩ := hunit hd
    exact ⟨.single i, rfl⟩
  · obtain _ | ⟨hd, hmore⟩ := h
    obtain ⟨i, rfl⟩ := hunit hd
    obtain ⟨s, rfl⟩ := exists_sequence_of_words hks' hmore
    exact ⟨.followed i s, rfl⟩
termination_by ks.length

/-- What stands behind an exclamation mark or a capture name is an operand. -/
private theorem exists_operand {k : Constituent} {d : Derivation Token}
    (hk : k = .rule .optional ∨ k = .rule .basic) (h : k.Makes d) :
    ∃ o : Operand, d = o.derivation := by
  rcases hk with rfl | rfl
  · obtain ⟨l, c, r, rfl⟩ := h
    exact ⟨.optional l c r, rfl⟩
  · obtain ⟨b, rfl⟩ := h
    exact ⟨.basic b, rfl⟩

/-- A capture name, or none, is split off. -/
private theorem exists_captureDerivations {xs ys : List Constituent}
    (hxs : xs = [] ∨ xs = [.token .name, .token .equal]) (h : MakesEach (xs ++ ys) ds) :
    ∃ (capture? : Option Capture) (ds' : List (Derivation Token)),
      ds = captureDerivations capture? ++ ds' ∧ MakesEach ys ds' := by
  rcases hxs with rfl | rfl
  · exact ⟨none, ds, rfl, h⟩
  · obtain _ | ⟨⟨name, rfl⟩, _ | ⟨⟨equal, rfl⟩, hrest⟩⟩ := h
    exact ⟨some ⟨name, equal⟩, _, rfl, hrest⟩

private theorem exists_unit (hks : ks ∈ Rule.unit.body.matches') (h : MakesEach ks ds) :
    ∃ i : Item, .rule .unit ds = i.derivation := by
  obtain ⟨xs, ys, hxs, hys, rfl⟩ := Rule.mem_body_unit.1 hks
  obtain ⟨capture?, ds', rfl, hrest⟩ := exists_captureDerivations hxs h
  have hplain {k : Constituent} (hk : k = .rule .optional ∨ k = .rule .basic)
      (hd : MakesEach [k] ds') :
      ∃ i : Item, .rule .unit (captureDerivations capture? ++ ds') = i.derivation := by
    obtain _ | ⟨hd, ⟨⟩⟩ := hd
    obtain ⟨o, rfl⟩ := exists_operand hk hd
    exact ⟨.plain capture? o, rfl⟩
  rcases hys with rfl | rfl | rfl
  · exact hplain (.inl rfl) hrest
  · exact hplain (.inr rfl) hrest
  · obtain _ | ⟨⟨b, rfl⟩, _ | ⟨⟨r, rfl⟩, ⟨⟩⟩⟩ := hrest
    exact ⟨.repeated capture? b r, rfl⟩

/-- What is made up of the constituents of a rule is that of a phrase. -/
private theorem makes_of_words {r : Rule} (hks : ks ∈ r.body.matches') (h : MakesEach ks ds) :
    r.Makes (.rule r ds) := by
  cases r with
  | matcher =>
    obtain rfl := Rule.mem_body_matcher.1 hks
    obtain _ | ⟨⟨c, rfl⟩, ⟨⟩⟩ := h
    exact ⟨c, rfl⟩
  | alternatives =>
    obtain ⟨c, rfl⟩ := exists_choice hks h
    exact ⟨c, rfl⟩
  | alternative =>
    obtain ⟨s, rfl⟩ := exists_sequence_of_words hks h
    exact ⟨s, rfl⟩
  | negatedUnit =>
    obtain ⟨k, hk, rfl⟩ : ∃ k : Constituent,
        (k = .rule .optional ∨ k = .rule .basic) ∧ ks = [.token .bang, k] :=
      (Rule.mem_body_negatedUnit.1 hks).elim (fun h => ⟨_, .inl rfl, h⟩) fun h => ⟨_, .inr rfl, h⟩
    obtain _ | ⟨⟨bang, rfl⟩, _ | ⟨hd, ⟨⟩⟩⟩ := h
    obtain ⟨o, rfl⟩ := exists_operand hk hd
    exact ⟨.negated bang o, rfl⟩
  | unit => exact exists_unit hks h
  | basic =>
    rcases Rule.mem_body_basic.1 hks with rfl | rfl | rfl | rfl
    · obtain _ | ⟨⟨w, rfl⟩, ⟨⟩⟩ := h
      exact ⟨.literal w, rfl⟩
    · obtain _ | ⟨⟨w, rfl⟩, ⟨⟩⟩ := h
      exact ⟨.name w, rfl⟩
    · obtain _ | ⟨⟨w, rfl⟩, _ | ⟨⟨l, c, r, rfl⟩, ⟨⟩⟩⟩ := h
      exact ⟨.detailed w l c r, rfl⟩
    · obtain _ | ⟨⟨l, rfl⟩, _ | ⟨⟨c, rfl⟩, _ | ⟨⟨r, rfl⟩, ⟨⟩⟩⟩⟩ := h
      exact ⟨.group l c r, rfl⟩
  | optional =>
    obtain rfl := Rule.mem_body_optional.1 hks
    obtain _ | ⟨⟨l, rfl⟩, _ | ⟨⟨c, rfl⟩, _ | ⟨⟨r, rfl⟩, ⟨⟩⟩⟩⟩ := h
    exact ⟨l, c, r, rfl⟩
  | details =>
    obtain rfl := Rule.mem_body_details.1 hks
    obtain _ | ⟨⟨l, rfl⟩, _ | ⟨⟨c, rfl⟩, _ | ⟨⟨r, rfl⟩, ⟨⟩⟩⟩⟩ := h
    exact ⟨l, c, r, rfl⟩
  | repeater =>
    rcases Rule.mem_body_repeater.1 hks with rfl | rfl | rfl | rfl
    · obtain _ | ⟨⟨w, rfl⟩, ⟨⟩⟩ := h
      exact ⟨.star w, rfl⟩
    · obtain _ | ⟨⟨w, rfl⟩, ⟨⟩⟩ := h
      exact ⟨.plus w, rfl⟩
    · obtain _ | ⟨⟨l, rfl⟩, _ | ⟨⟨n, rfl⟩, _ | ⟨⟨r, rfl⟩, ⟨⟩⟩⟩⟩ := h
      exact ⟨.exactly l n r, rfl⟩
    · obtain _ | ⟨⟨l, rfl⟩, _ | ⟨⟨n, rfl⟩, _ | ⟨⟨c, rfl⟩, _ | ⟨⟨m, rfl⟩, _ | ⟨⟨r, rfl⟩, ⟨⟩⟩⟩⟩⟩⟩ := h
      exact ⟨.between l n c m r, rfl⟩

end

/-- Every derivation is that of a phrase, or of a word. -/
theorem Derivation.Valid.makes {d : Derivation Token} (h : d.Valid Token.kind) :
    (d.root Token.kind).Makes d := by
  induction h with
  | token t => exact ⟨t.word, by rw [Word.derivation, Token.token_word rfl]⟩
  | @rule r ds hbody _ ih =>
    exact makes_of_words hbody (List.forall₂_map_left_iff.2 (List.forall₂_same.2 ih))

/-! ## A phrase can be read off its tree -/

private theorem Word.leaf_inj {k k' : TokenKind} {w w' : Word} :
    w.leaf k = w'.leaf k' ↔ k = k' ∧ w = w' := by
  rcases w with ⟨t, ⟨line, column⟩, offset⟩
  rcases w' with ⟨t', ⟨line', column'⟩, offset'⟩
  simp only [Word.leaf, Tree.ofToken, Leaf.ofToken, Word.token, Tree.leaf.injEq, Leaf.mk.injEq,
    Label.token.injEq, Number.int.injEq, Int.ofNat_inj, Word.mk.injEq, Position.mk.injEq, and_assoc]

private theorem Word.leaf_ne_phrase {k : TokenKind} {w : Word} {p : Phrase} {ts : List Tree} :
    w.leaf k ≠ .phrase p ts := by
  simp [Word.leaf, Tree.ofToken, Tree.phrase]

private theorem Tree.phrase_inj {p p' : Phrase} {ts ts' : List Tree} :
    Tree.phrase p ts = Tree.phrase p' ts' ↔ p = p' ∧ ts = ts' := by
  simp [Tree.phrase]

theorem Repeater.trees_injective {r r' : Repeater} (h : r.trees = r'.trees) : r = r' := by
  cases r <;> cases r' <;> simp_all [trees, Word.leaf_inj]

private theorem Sequence.trees_ne_nil (s : Sequence) : s.trees ≠ [] := by
  cases s <;> simp [trees]

/-- Trees that do not begin with a name and an equals sign. -/
def Uncaptured (ts : List Tree) : Prop :=
  ∀ (name equal : Word) (us : List Tree), ts ≠ name.leaf .name :: equal.leaf .equal :: us

private theorem Operand.uncaptured (o : Operand) : Uncaptured o.trees := by
  intro name equal us
  rcases o with ⟨l, c, r⟩ | ⟨w⟩ | ⟨w⟩ | ⟨w, l, c, r⟩ | ⟨l, c, r⟩ <;>
    simp [trees, Basic.trees, Word.leaf_inj, Word.leaf_ne_phrase.symm]

private theorem Basic.uncaptured (b : Basic) (r : Repeater) :
    Uncaptured (b.trees ++ [.phrase .repeater r.trees]) := by
  intro name equal us
  cases b <;> simp [trees, Word.leaf_inj, Word.leaf_ne_phrase.symm]

/-- In front of such trees a capture name is told from none. -/
private theorem captureTrees_append_inj {capture? capture'? : Option Capture} {ts ts' : List Tree}
    (hts : Uncaptured ts) (hts' : Uncaptured ts')
    (h : captureTrees capture? ++ ts = captureTrees capture'? ++ ts') :
    capture? = capture'? ∧ ts = ts' := by
  rcases capture? with _ | ⟨name, equal⟩ <;> rcases capture'? with _ | ⟨name', equal'⟩
  · exact ⟨rfl, h⟩
  · exact absurd h (hts name' equal' ts')
  · exact absurd h.symm (hts' name equal ts)
  · simp only [captureTrees, List.cons_append, List.nil_append, List.cons.injEq, Word.leaf_inj,
      true_and] at h
    obtain ⟨rfl, rfl, rfl⟩ := h
    exact ⟨rfl, rfl⟩

/-- An operand does not end with a repeater. -/
private theorem Operand.trees_ne_repeated (o : Operand) (ts us : List Tree) :
    o.trees ≠ ts ++ [.phrase .repeater us] := by
  intro h
  have hlast := congrArg List.getLast? h
  rw [List.getLast?_concat] at hlast
  rcases o with ⟨l, c, r⟩ | ⟨w⟩ | ⟨w⟩ | ⟨w, l, c, r⟩ | ⟨l, c, r⟩ <;>
    simp [trees, Basic.trees, Word.leaf_ne_phrase, Tree.phrase_inj] at hlast

mutual

theorem Choice.trees_injective : (c c' : Choice) → c.trees = c'.trees → c = c'
  | .single s, .single s', h => by
    simp only [Choice.trees, List.cons.injEq, Tree.phrase_inj, true_and, and_true] at h
    rw [Sequence.trees_injective s s' h]
  | .single s, .either s' bar' c', h => by simp [Choice.trees] at h
  | .either s bar c, .single s', h => by simp [Choice.trees] at h
  | .either s bar c, .either s' bar' c', h => by
    simp only [Choice.trees, List.cons.injEq, Tree.phrase_inj, Word.leaf_inj, true_and] at h
    obtain ⟨hs, rfl, hc⟩ := h
    rw [Sequence.trees_injective s s' hs, Choice.trees_injective c c' hc]

theorem Sequence.trees_injective : (s s' : Sequence) → s.trees = s'.trees → s = s'
  | .single i, .single i', h => by
    simp only [Sequence.trees, List.cons.injEq, and_true] at h
    rw [Item.tree_injective i i' h]
  | .single i, .followed i' s', h => by
    simp only [Sequence.trees, List.cons.injEq] at h
    exact absurd h.2.symm s'.trees_ne_nil
  | .followed i s, .single i', h => by
    simp only [Sequence.trees, List.cons.injEq] at h
    exact absurd h.2 s.trees_ne_nil
  | .followed i s, .followed i' s', h => by
    simp only [Sequence.trees, List.cons.injEq] at h
    rw [Item.tree_injective i i' h.1, Sequence.trees_injective s s' h.2]

theorem Item.tree_injective : (i i' : Item) → i.tree = i'.tree → i = i'
  | .negated bang o, .negated bang' o', h => by
    simp only [Item.tree, Tree.phrase_inj, List.cons.injEq, Word.leaf_inj, true_and] at h
    obtain ⟨rfl, ho⟩ := h
    rw [Operand.trees_injective o o' ho]
  | .plain capture? o, .plain capture'? o', h => by
    simp only [Item.tree, Tree.phrase_inj, true_and] at h
    obtain ⟨rfl, ho⟩ := captureTrees_append_inj o.uncaptured o'.uncaptured h
    rw [Operand.trees_injective o o' ho]
  | .repeated capture? b r, .repeated capture'? b' r', h => by
    simp only [Item.tree, Tree.phrase_inj, true_and] at h
    obtain ⟨rfl, hbr⟩ := captureTrees_append_inj (b.uncaptured r) (b'.uncaptured r') h
    obtain ⟨hb, hr⟩ := List.append_inj' hbr rfl
    simp only [List.cons.injEq, Tree.phrase_inj, true_and, and_true] at hr
    rw [Basic.trees_injective b b' hb, Repeater.trees_injective hr]
  -- A unit with a repeater is told from one without by the last of its trees.
  | .plain capture? o, .repeated capture'? b r, h => by
    simp only [Item.tree, Tree.phrase_inj, true_and] at h
    have ho := (captureTrees_append_inj o.uncaptured (b.uncaptured r) h).2
    exact absurd ho (o.trees_ne_repeated _ _)
  | .repeated capture? b r, .plain capture'? o, h => by
    simp only [Item.tree, Tree.phrase_inj, true_and] at h
    have ho := (captureTrees_append_inj (b.uncaptured r) o.uncaptured h).2
    exact absurd ho.symm (o.trees_ne_repeated _ _)
  | .negated .., .plain .., h => by simp [Item.tree, Tree.phrase_inj] at h
  | .negated .., .repeated .., h => by simp [Item.tree, Tree.phrase_inj] at h
  | .plain .., .negated .., h => by simp [Item.tree, Tree.phrase_inj] at h
  | .repeated .., .negated .., h => by simp [Item.tree, Tree.phrase_inj] at h

theorem Operand.trees_injective : (o o' : Operand) → o.trees = o'.trees → o = o'
  | .optional l c r, .optional l' c' r', h => by
    simp only [Operand.trees, List.cons.injEq, Tree.phrase_inj, Word.leaf_inj, true_and,
      and_true] at h
    obtain ⟨rfl, hc, rfl⟩ := h
    rw [Choice.trees_injective c c' hc]
  | .optional l c r, .basic b, h => by
    cases b <;> simp [Operand.trees, Basic.trees, Word.leaf_inj] at h
  | .basic b, .optional l c r, h => by
    cases b <;> simp [Operand.trees, Basic.trees, Word.leaf_inj] at h
  | .basic b, .basic b', h => by
    rw [Operand.trees, Operand.trees] at h
    rw [Basic.trees_injective b b' h]

theorem Basic.trees_injective : (b b' : Basic) → b.trees = b'.trees → b = b'
  | .detailed w l c r, .detailed w' l' c' r', h => by
    simp only [Basic.trees, List.cons.injEq, Tree.phrase_inj, Word.leaf_inj, true_and,
      and_true] at h
    obtain ⟨rfl, rfl, hc, rfl⟩ := h
    rw [Choice.trees_injective c c' hc]
  | .group l c r, .group l' c' r', h => by
    simp only [Basic.trees, List.cons.injEq, Tree.phrase_inj, Word.leaf_inj, true_and,
      and_true] at h
    obtain ⟨rfl, hc, rfl⟩ := h
    rw [Choice.trees_injective c c' hc]
  | .literal w, b', h => by cases b' <;> simp_all [Basic.trees, Word.leaf_inj]
  | .name w, b', h => by cases b' <;> simp_all [Basic.trees, Word.leaf_inj]
  | .detailed .., .literal .., h => by simp [Basic.trees] at h
  | .detailed .., .name .., h => by simp [Basic.trees] at h
  | .detailed .., .group .., h => by simp [Basic.trees] at h
  | .group .., .literal .., h => by simp [Basic.trees] at h
  | .group .., .name .., h => by simp [Basic.trees] at h
  | .group .., .detailed .., h => by simp [Basic.trees] at h

end

theorem Choice.pattern_injective {c c' : Choice} (h : c.pattern = c'.pattern) : c = c' := by
  simp only [pattern, tree, Tree.phrase_inj, List.cons.injEq, true_and, and_true] at h
  exact trees_injective c c' h

/-! ## Tokens have one derivation -/

/-- A phrase is determined by its tokens: the strict parser makes one tree of them. -/
private theorem Choice.tokens_injective {c c' : Choice} (h : c.tokens = c'.tokens) : c = c' := by
  have hc : parseTokens .strict c.tokens = (c.pattern, []) :=
    parseTokens_strict_iff.2 ⟨c, rfl, rfl⟩
  have hc' : parseTokens .strict c.tokens = (c'.pattern, []) :=
    parseTokens_strict_iff.2 ⟨c', h, rfl⟩
  exact pattern_injective (congrArg Prod.fst (hc.symm.trans hc'))

/-- The derivation of a phrase derives its tokens. -/
theorem Choice.derives (c : Choice) : Derives Token.kind .matcher c.tokens c.whole where
  root := rfl
  valid := c.describes_whole.valid _ (List.mem_singleton_self _)
  leaves := by simpa using c.describes_whole.leaves

/-- Every derivation of tokens is that of a phrase. -/
theorem Derives.exists_choice {ts : List Token} {d : Derivation Token}
    (h : Derives Token.kind .matcher ts d) : ∃ c : Choice, d = c.whole ∧ ts = c.tokens := by
  have hmakes := h.valid.makes
  rw [h.root] at hmakes
  obtain ⟨c, rfl⟩ := hmakes
  exact ⟨c, rfl, h.leaves.symm.trans c.derives.leaves⟩

/-- A token of a given kind. -/
def Token.ofKind (k : TokenKind) : Token := ⟨k, [], Position.first, 0⟩

/-- Kinds have one derivation. -/
theorem Derives.unique {ks : List TokenKind} {d d' : Derivation TokenKind}
    (h : Derives id .matcher ks d) (h' : Derives id .matcher ks d') : d = d' := by
  obtain ⟨c, hc, htokens⟩ := (h.map Token.kind Token.ofKind).exists_choice
  obtain ⟨c', hc', htokens'⟩ := (h'.map Token.kind Token.ofKind).exists_choice
  obtain rfl := Choice.tokens_injective (htokens.symm.trans htokens')
  have hsame := congrArg (Derivation.map Token.kind) (hc.trans hc'.symm)
  rw [Derivation.map_map, Derivation.map_map] at hsame
  exact d.map_id.symm.trans (hsame.trans d'.map_id)

end TreeMatcher
