import TreeMatcher.Proofs.Pattern.Derivation
import TreeMatcher.Proofs.Pattern.Grouped
import TreeMatcher.Proofs.Pattern.Scan

/-!
# The elements of a phrase

What the rules of the pattern language read makes up elements, one for each rule. The tree that the
elements are converted to is the tree of the phrase, so no check on elements fails for a text that
is parsed.

* `Choice.elements` and its companions — the elements of a phrase.
* `Choice.root` — the children of the root of a whole pattern, in groups.

## Main results

* `Choice.yields` and its companions — what the elements of a phrase are converted to.
* `inOrder_tokens` — the tokens of a text stand one behind the other.
* `patternTree_of_parse` — the tree of a text is the tree of its elements.
-/

namespace TreeMatcher

/-! ## The elements of a phrase -/

/-- The element of a word. -/
def Word.element (k : TokenKind) (w : Word) : Element := .token (w.token k)

/-- The children of a unit that come from an optional capture name. -/
def captureElements : Option Capture → List Element
  | none => []
  | some c => [c.name.element .name, c.equal.element .equal]

/-- The children of a repeater. -/
def Repeater.elements : Repeater → List Element
  | star w => [w.element .star]
  | plus w => [w.element .plus]
  | exactly l n r => [l.element .lbrace, n.element .number, r.element .rbrace]
  | between l n c m r =>
    [l.element .lbrace, n.element .number, c.element .comma, m.element .number, r.element .rbrace]

mutual

/-- The children of alternatives. -/
def Choice.elements : Choice → List Element
  | .single s => [.of "alternative" s.elements]
  | .either s bar c => .of "alternative" s.elements :: bar.element .vbar :: c.elements

/-- The children of an alternative. -/
def Sequence.elements : Sequence → List Element
  | .single i => [i.element]
  | .followed i s => i.element :: s.elements

/-- The element of a unit. -/
def Item.element : Item → Element
  | .negated bang o => .of "negatedUnit" [bang.element .bang, o.element]
  | .plain capture? o => .of "unit" (captureElements capture? ++ [o.element])
  | .repeated capture? b r =>
    .of "unit" (captureElements capture? ++ [b.element, .of "repeater" r.elements])

/-- The element of an operand. -/
def Operand.element : Operand → Element
  | .optional l c r =>
    .of "optional" [l.element .lsqb, .of "alternatives" c.elements, r.element .rsqb]
  | .basic b => b.element

/-- The element of a basic pattern. -/
def Basic.element : Basic → Element
  | .literal w => .of "basic" [w.element .string]
  | .name w => .of "basic" [w.element .name]
  | .detailed w l c r =>
    .of "basic" [w.element .name,
      .of "details" [l.element .less, .of "alternatives" c.elements, r.element .greater]]
  | .group l c r => .of "basic" [l.element .lpar, .of "alternatives" c.elements, r.element .rpar]

end

/-! ## What phrases yield -/

open Element

theorem Word.yields (k : TokenKind) (w : Word) : (w.element k).Yields [w.token k] [w.leaf k] :=
  yields_token _

private theorem yields_capture (capture? : Option Capture) :
    YieldsEach (captureElements capture?) (captureTokens capture?) (captureTrees capture?) := by
  cases capture? with
  | none => exact .nil
  | some c => exact .cons (c.name.yields _) (.single (c.equal.yields _))

theorem Repeater.yields {r : Repeater} (h : InOrder r.tokens) :
    (Element.of "repeater" r.elements).Yields r.tokens [.phrase .repeater r.trees] := by
  have heach : YieldsEach r.elements r.tokens r.trees := by
    cases r with
    | star w => exact .single (w.yields _)
    | plus w => exact .single (w.yields _)
    | exactly l n r => exact .cons (l.yields _) (.cons (n.yields _) (.single (r.yields _)))
    | between l n c m r =>
      exact .cons (l.yields _) (.cons (n.yields _) (.cons (c.yields _)
        (.cons (m.yields _) (.single (r.yields _)))))
  exact heach.phrase (by cases r <;> simp [elements]) h rfl

private theorem Choice.elements_ne_nil (c : Choice) : c.elements ≠ [] := by
  cases c <;> simp [elements]

private theorem Sequence.elements_ne_nil (s : Sequence) : s.elements ≠ [] := by
  cases s <;> simp [elements]

/-- Alternatives between brackets. -/
private theorem yields_brackets {c : Choice} (h : YieldsEach c.elements c.tokens c.trees)
    (horder : InOrder c.tokens) (k k' : TokenKind) (l r : Word) :
    YieldsEach [l.element k, .of "alternatives" c.elements, r.element k']
      (l.token k :: (c.tokens ++ [r.token k']))
      [l.leaf k, .phrase .alternatives c.trees, r.leaf k'] :=
  .cons (l.yields k) (.cons (h.phrase c.elements_ne_nil horder rfl) (.single (r.yields k')))

mutual

theorem Choice.yields : (c : Choice) → InOrder c.tokens →
    YieldsEach c.elements c.tokens c.trees
  | .single s, h => by
    rw [Choice.tokens] at h ⊢
    rw [Choice.elements, Choice.trees]
    exact .single ((Sequence.yields s h).phrase s.elements_ne_nil h rfl)
  | .either s bar c, h => by
    rw [Choice.tokens] at h ⊢
    rw [Choice.elements, Choice.trees]
    exact .cons ((Sequence.yields s h.left).phrase s.elements_ne_nil h.left rfl)
      (.cons (bar.yields _) (Choice.yields c h.right.tail))

theorem Sequence.yields : (s : Sequence) → InOrder s.tokens →
    YieldsEach s.elements s.tokens s.trees
  | .single i, h => by
    rw [Sequence.tokens] at h ⊢
    rw [Sequence.elements, Sequence.trees]
    exact .single (Item.yields i h)
  | .followed i s, h => by
    rw [Sequence.tokens] at h ⊢
    rw [Sequence.elements, Sequence.trees]
    exact .cons (Item.yields i h.left) (Sequence.yields s h.right)

theorem Item.yields : (i : Item) → InOrder i.tokens → i.element.Yields i.tokens [i.tree]
  | .negated bang o, h => by
    rw [Item.tokens] at h ⊢
    rw [Item.element, Item.tree]
    exact (YieldsEach.cons (bang.yields _) (.single (Operand.yields o h.tail))).phrase (by simp) h
      rfl
  | .plain capture? o, h => by
    rw [Item.tokens] at h ⊢
    rw [Item.element, Item.tree]
    exact ((yields_capture capture?).append (.single (Operand.yields o h.right))).phrase (by simp)
      h rfl
  | .repeated capture? b r, h => by
    rw [Item.tokens] at h ⊢
    rw [Item.element, Item.tree]
    exact ((yields_capture capture?).append (.cons (Basic.yields b h.right.left)
      (.single (Repeater.yields h.right.right)))).phrase (by simp) h rfl

theorem Operand.yields : (o : Operand) → InOrder o.tokens → o.element.Yields o.tokens o.trees
  | .optional l c r, h => by
    rw [Operand.tokens] at h ⊢
    rw [Operand.element, Operand.trees]
    exact (yields_brackets (Choice.yields c h.tail.left) h.tail.left _ _ l r).inlined (by simp) h
      rfl
  | .basic b, h => by
    rw [Operand.tokens] at h ⊢
    rw [Operand.element, Operand.trees]
    exact Basic.yields b h

theorem Basic.yields : (b : Basic) → InOrder b.tokens → b.element.Yields b.tokens b.trees
  | .literal w, h => by
    rw [Basic.tokens] at h ⊢
    rw [Basic.element, Basic.trees]
    exact (YieldsEach.single (w.yields _)).inlined (by simp) h rfl
  | .name w, h => by
    rw [Basic.tokens] at h ⊢
    rw [Basic.element, Basic.trees]
    exact (YieldsEach.single (w.yields _)).inlined (by simp) h rfl
  | .detailed w l c r, h => by
    rw [Basic.tokens] at h ⊢
    rw [Basic.element, Basic.trees]
    have hdetails := (yields_brackets (Choice.yields c h.tail.tail.left) h.tail.tail.left .less
      .greater l r).phrase (by simp) h.tail
      (show rules.lookup ("details" : Text) = some (some .details) from rfl)
    exact (YieldsEach.cons (w.yields _) (.single hdetails)).inlined (by simp) h rfl
  | .group l c r, h => by
    rw [Basic.tokens] at h ⊢
    rw [Basic.element, Basic.trees]
    exact (yields_brackets (Choice.yields c h.tail.left) h.tail.left _ _ l r).inlined (by simp) h
      rfl

end

/-- The children of the root of a whole pattern, in groups. -/
def Choice.root (c : Choice) : List (List Element) := grouped [.of "alternatives" c.elements]

/-- The tree of a phrase is made without a check that fails. -/
theorem patternTree_root {c : Choice} (h : InOrder c.tokens) :
    patternTree "matcher" c.root = .ok c.pattern := by
  have halternatives := (Choice.yields c h).phrase c.elements_ne_nil h
    (show rules.lookup ("alternatives" : Text) = some (some .alternatives) from rfl)
  have hroot : rules.lookup ("matcher" : Text) = some (some .matcher) := rfl
  rw [patternTree, if_pos hroot, Choice.root, (YieldsEach.single halternatives).joined_eq h]
  rfl

/-! ## The tokens of a text -/

theorem Piece.offset_first (t : Text) (start : Position) (offset : Nat) :
    (first t start offset).offset = offset := by
  unfold first
  split <;> rfl

theorem Piece.first_start (t : Text) (start : Position) (offset : Nat) :
    (first t start offset).start = start := by
  unfold first
  split <;> rfl

/-- Pieces stand one behind the other, from the offset of the first one on. -/
theorem Piece.order_ofText (t : Text) (start : Position) (offset : Nat) :
    (∀ p ∈ ofText t 0 start offset, offset ≤ p.offset) ∧
      (ofText t 0 start offset).Pairwise fun a b => a.offset < b.offset := by
  generalize hn : t.length = n
  induction n using Nat.strongRecOn generalizing t start offset with
  | ind n ih =>
    cases t with
    | nil => simp [ofText]
    | cons c rest =>
      have hpos := first_text_length c rest start offset
      have hlt : ((c :: rest).drop (first (c :: rest) start offset).text.length).length < n := by
        rw [List.length_drop, ← hn, List.length_cons]
        omega
      obtain ⟨hle, hpairwise⟩ := ih _ hlt _ (first (c :: rest) start offset).behind
        (offset + (first (c :: rest) start offset).text.length) rfl
      rw [ofText_cons, List.forall_mem_cons, List.pairwise_cons, offset_first]
      refine ⟨⟨Nat.le_refl _, fun p hp => ?_⟩, fun p hp => ?_, hpairwise⟩
      · have := hle p hp
        omega
      · have := hle p hp
        omega

/-- A token stands where its piece does. -/
theorem Piece.place_of_token? {p : Piece} {t : Token} (h : p.token? = some t) :
    t.start = p.start ∧ t.offset = p.offset := by
  unfold Piece.token? at h
  split at h <;> cases h
  exact ⟨rfl, rfl⟩

/-- The tokens of a text stand one behind the other. -/
theorem inOrder_tokens (t : Text) : InOrder (tokens t) := by
  refine List.Pairwise.filterMap Piece.token? (fun a b hlt t ht u hu => ?_)
    (Piece.order_ofText t Position.first 0).2
  rw [(Piece.place_of_token? ht).2, (Piece.place_of_token? hu).2]
  exact hlt

/-- The tree of a text is the tree that its elements are converted to, and no check fails. -/
theorem patternTree_of_parse {source : Text} {tree : Tree} (h : parse source = .ok tree) :
    ∃ c : Choice, tokens source = c.tokens ∧ patternTree "matcher" c.root = .ok tree := by
  obtain ⟨-, c, htokens, rfl⟩ := parse_eq_ok_iff_choice.1 h
  exact ⟨c, htokens, patternTree_root (htokens ▸ inOrder_tokens source)⟩

end TreeMatcher
