import TreeMatcher.Pattern.Parse

/-!
# The phrases of a pattern as data

One type for each phrase of the pattern language, with a word for every token of it. The place of a
word in its phrase gives the kind of its token, so a value of these types is a well-formed phrase by
construction: brackets are paired, separators stand between two alternatives, and an optional group
has no repeater.

* `Choice`, `Sequence`, `Item`, `Operand`, `Basic`, `Repeater`, `Capture` — the phrases.
* `Choice.tokens` and its companions — the tokens of a phrase, in order.
* `Choice.trees` and its companions — what the phrase contributes to a pattern tree. Basic patterns
  and optional groups contribute their children to the unit around them.
* `Choice.pattern` — the tree of a whole pattern.

## Main results

* `Choice.leaves_pattern` — the leaves of the tree are the tokens, none lost and none moved.
-/

namespace TreeMatcher

/-! ## Words -/

/-- A token without its kind: its text, and where it stands. -/
structure Word where
  text : Text
  start : Position
  offset : Nat
deriving DecidableEq, Repr

namespace Word

/-- The token of a given kind with the text and the place of a word. -/
def token (k : TokenKind) (w : Word) : Token := ⟨k, w.text, w.start, w.offset⟩

/-- The leaf of such a token. -/
def leaf (k : TokenKind) (w : Word) : Tree := .ofToken (w.token k)

@[simp] theorem kind_token (k : TokenKind) (w : Word) : (w.token k).kind = k := rfl

@[simp] theorem text_token (k : TokenKind) (w : Word) : (w.token k).text = w.text := rfl

@[simp] theorem leaves_leaf (k : TokenKind) (w : Word) :
    (w.leaf k).leaves = [.ofToken (w.token k)] := by
  rw [leaf, Tree.ofToken, Tree.leaves]

end Word

/-- The word of a token. -/
def Token.word (t : Token) : Word := ⟨t.text, t.start, t.offset⟩

theorem Token.token_word {t : Token} {k : TokenKind} (h : t.kind = k) : t.word.token k = t := by
  subst h; rfl

/-! ## Phrases -/

/-- A capture name and its equals sign. -/
structure Capture where
  name : Word
  equal : Word

/-- A repeater: `*`, `+`, one number in braces, or two of them. -/
inductive Repeater where
  | star (w : Word)
  | plus (w : Word)
  | exactly (lbrace n rbrace : Word)
  | between (lbrace n comma m rbrace : Word)

mutual

/-- Alternatives: one, or several with bars between them. -/
inductive Choice where
  | single (s : Sequence)
  | either (s : Sequence) (bar : Word) (c : Choice)

/-- An alternative: one unit or several. -/
inductive Sequence where
  | single (i : Item)
  | followed (i : Item) (s : Sequence)

/-- A unit: negated, or with an optional capture name and, behind a basic pattern, an optional
repeater. -/
inductive Item where
  | negated (bang : Word) (o : Operand)
  | plain (capture? : Option Capture) (o : Operand)
  | repeated (capture? : Option Capture) (b : Basic) (r : Repeater)

/-- An optional group or a basic pattern. -/
inductive Operand where
  | optional (lsqb : Word) (c : Choice) (rsqb : Word)
  | basic (b : Basic)

/-- A literal, a name, a name with details, or a group. -/
inductive Basic where
  | literal (w : Word)
  | name (w : Word)
  | detailed (w less : Word) (c : Choice) (greater : Word)
  | group (lpar : Word) (c : Choice) (rpar : Word)

end

/-! ## Tokens -/

/-- The tokens of an optional capture name. -/
def captureTokens : Option Capture → List Token
  | none => []
  | some c => [c.name.token .name, c.equal.token .equal]

/-- The tokens of a repeater. -/
def Repeater.tokens : Repeater → List Token
  | star w => [w.token .star]
  | plus w => [w.token .plus]
  | exactly l n r => [l.token .lbrace, n.token .number, r.token .rbrace]
  | between l n c m r =>
    [l.token .lbrace, n.token .number, c.token .comma, m.token .number, r.token .rbrace]

mutual

/-- The tokens of alternatives. -/
def Choice.tokens : Choice → List Token
  | .single s => s.tokens
  | .either s bar c => s.tokens ++ bar.token .vbar :: c.tokens

/-- The tokens of an alternative. -/
def Sequence.tokens : Sequence → List Token
  | .single i => i.tokens
  | .followed i s => i.tokens ++ s.tokens

/-- The tokens of a unit. -/
def Item.tokens : Item → List Token
  | .negated bang o => bang.token .bang :: o.tokens
  | .plain capture? o => captureTokens capture? ++ o.tokens
  | .repeated capture? b r => captureTokens capture? ++ (b.tokens ++ r.tokens)

/-- The tokens of an operand. -/
def Operand.tokens : Operand → List Token
  | .optional l c r => l.token .lsqb :: (c.tokens ++ [r.token .rsqb])
  | .basic b => b.tokens

/-- The tokens of a basic pattern. -/
def Basic.tokens : Basic → List Token
  | .literal w => [w.token .string]
  | .name w => [w.token .name]
  | .detailed w l c r => w.token .name :: l.token .less :: (c.tokens ++ [r.token .greater])
  | .group l c r => l.token .lpar :: (c.tokens ++ [r.token .rpar])

end

/-! ## Trees -/

/-- The leaves of an optional capture name. -/
def captureTrees : Option Capture → List Tree
  | none => []
  | some c => [c.name.leaf .name, c.equal.leaf .equal]

/-- The children of a repeater. -/
def Repeater.trees : Repeater → List Tree
  | star w => [w.leaf .star]
  | plus w => [w.leaf .plus]
  | exactly l n r => [l.leaf .lbrace, n.leaf .number, r.leaf .rbrace]
  | between l n c m r =>
    [l.leaf .lbrace, n.leaf .number, c.leaf .comma, m.leaf .number, r.leaf .rbrace]

mutual

/-- The children of alternatives. -/
def Choice.trees : Choice → List Tree
  | .single s => [.phrase .alternative s.trees]
  | .either s bar c => .phrase .alternative s.trees :: bar.leaf .vbar :: c.trees

/-- The children of an alternative. -/
def Sequence.trees : Sequence → List Tree
  | .single i => [i.tree]
  | .followed i s => i.tree :: s.trees

/-- The tree of a unit. -/
def Item.tree : Item → Tree
  | .negated bang o => .phrase .negatedUnit (bang.leaf .bang :: o.trees)
  | .plain capture? o => .phrase .unit (captureTrees capture? ++ o.trees)
  | .repeated capture? b r =>
    .phrase .unit (captureTrees capture? ++ (b.trees ++ [.phrase .repeater r.trees]))

/-- What an operand contributes to its unit. -/
def Operand.trees : Operand → List Tree
  | .optional l c r => [l.leaf .lsqb, .phrase .alternatives c.trees, r.leaf .rsqb]
  | .basic b => b.trees

/-- What a basic pattern contributes to its unit. -/
def Basic.trees : Basic → List Tree
  | .literal w => [w.leaf .string]
  | .name w => [w.leaf .name]
  | .detailed w l c r =>
    [w.leaf .name,
     .phrase .details [l.leaf .less, .phrase .alternatives c.trees, r.leaf .greater]]
  | .group l c r => [l.leaf .lpar, .phrase .alternatives c.trees, r.leaf .rpar]

end

/-- The tree of alternatives. -/
def Choice.tree (c : Choice) : Tree := .phrase .alternatives c.trees

/-- The tree of an alternative. -/
def Sequence.tree (s : Sequence) : Tree := .phrase .alternative s.trees

/-- The tree of a repeater. -/
def Repeater.tree (r : Repeater) : Tree := .phrase .repeater r.trees

/-- The tree of a whole pattern. -/
def Choice.pattern (c : Choice) : Tree := .phrase .matcher [c.tree]

/-! ## The leaves of a tree are the tokens -/

private theorem leaves_captureTrees (capture? : Option Capture) :
    (captureTrees capture?).flatMap Tree.leaves = (captureTokens capture?).map .ofToken := by
  cases capture? <;> simp [captureTrees, captureTokens]

private theorem Repeater.leaves_trees (r : Repeater) :
    r.trees.flatMap Tree.leaves = r.tokens.map .ofToken := by
  cases r <;> simp [trees, tokens]

theorem leaves_phrase (p : Phrase) (ts : List Tree) :
    (Tree.phrase p ts).leaves = ts.flatMap Tree.leaves :=
  Tree.leaves_branch _ ts

mutual

theorem Choice.leaves_trees : (c : Choice) →
    c.trees.flatMap Tree.leaves = c.tokens.map .ofToken
  | .single s => by
    simp [Choice.trees, Choice.tokens, leaves_phrase, Sequence.leaves_trees s]
  | .either s bar c => by
    simp [Choice.trees, Choice.tokens, leaves_phrase, Sequence.leaves_trees s,
      Choice.leaves_trees c]

theorem Sequence.leaves_trees : (s : Sequence) →
    s.trees.flatMap Tree.leaves = s.tokens.map .ofToken
  | .single i => by simp [Sequence.trees, Sequence.tokens, Item.leaves_tree i]
  | .followed i s => by
    simp [Sequence.trees, Sequence.tokens, Item.leaves_tree i, Sequence.leaves_trees s]

theorem Item.leaves_tree : (i : Item) → i.tree.leaves = i.tokens.map .ofToken
  | .negated bang o => by
    simp [Item.tree, Item.tokens, leaves_phrase, Operand.leaves_trees o]
  | .plain capture? o => by
    simp [Item.tree, Item.tokens, leaves_phrase, leaves_captureTrees, Operand.leaves_trees o]
  | .repeated capture? b r => by
    simp [Item.tree, Item.tokens, leaves_phrase, leaves_captureTrees, Basic.leaves_trees b,
      Repeater.leaves_trees]

theorem Operand.leaves_trees : (o : Operand) →
    o.trees.flatMap Tree.leaves = o.tokens.map .ofToken
  | .optional l c r => by
    simp [Operand.trees, Operand.tokens, leaves_phrase, Choice.leaves_trees c]
  | .basic b => by simp [Operand.trees, Operand.tokens, Basic.leaves_trees b]

theorem Basic.leaves_trees : (b : Basic) →
    b.trees.flatMap Tree.leaves = b.tokens.map .ofToken
  | .literal w => by simp [Basic.trees, Basic.tokens]
  | .name w => by simp [Basic.trees, Basic.tokens]
  | .detailed w l c r => by
    simp [Basic.trees, Basic.tokens, leaves_phrase, Choice.leaves_trees c]
  | .group l c r => by
    simp [Basic.trees, Basic.tokens, leaves_phrase, Choice.leaves_trees c]

end

/-- Nothing is lost on the way from the tokens to the tree, and nothing changes its place. -/
theorem Choice.leaves_pattern (c : Choice) : c.pattern.leaves = c.tokens.map .ofToken := by
  simp [Choice.pattern, Choice.tree, leaves_phrase, c.leaves_trees]

end TreeMatcher
