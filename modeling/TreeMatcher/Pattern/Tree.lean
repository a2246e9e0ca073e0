import TreeMatcher.Pattern.Error

/-!
# Pattern trees

The tree of a parsed pattern. A leaf is a token; a branch is a phrase with its children in source
order. The brackets, separators and marks of a phrase are children of it too.

Trees can also be built by hand, so a label need not be one that the parser gives: a leaf may be
labelled like a phrase, a branch like a token, and either by any other text.

## Main results

* `Label.ofText_text_token`, `Label.ofText_text_phrase` — a label is known from its text.
* `leaves_branch` — the leaves of a branch are those of its children, in order.
-/

namespace TreeMatcher

/-! ## Labels -/

/-- The kinds of phrases. -/
inductive Phrase where
  | matcher
  | alternatives
  | alternative
  | negatedUnit
  | unit
  | repeater
  | details
deriving DecidableEq, Repr, Inhabited

namespace Phrase

/-- The label of a kind of phrase. -/
def label : Phrase → Text
  | matcher => "Matcher"
  | alternatives => "Alternatives"
  | alternative => "Alternative"
  | negatedUnit => "NegatedUnit"
  | unit => "Unit"
  | repeater => "Repeater"
  | details => "Details"

/-- All kinds of phrases. -/
def all : List Phrase :=
  [matcher, alternatives, alternative, negatedUnit, unit, repeater, details]

/-- The kind of phrase with a given label. -/
def ofLabel? (t : Text) : Option Phrase := all.find? fun p => p.label == t

theorem ofLabel?_label (p : Phrase) : ofLabel? p.label = some p := by cases p <;> rfl

end Phrase

/-- The label of a node. -/
inductive Label where
  | token (kind : TokenKind)
  | phrase (phrase : Phrase)
  | other (text : Text)
deriving DecidableEq, Repr, Inhabited

namespace Label

/-- The text of a label. -/
def text : Label → Text
  | token k => k.label
  | phrase p => p.label
  | other t => t

/-- The label with a given text. -/
def ofText (t : Text) : Label :=
  match TokenKind.ofLabel? t with
  | some k => token k
  | none =>
    match Phrase.ofLabel? t with
    | some p => phrase p
    | none => other t

theorem ofText_text_token (k : TokenKind) : ofText (token k).text = token k := by
  simp [ofText, text, TokenKind.ofLabel?_label]

theorem ofText_text_phrase (p : Phrase) : ofText (phrase p).text = phrase p := by
  cases p <;> rfl

end Label

/-! ## Trees -/

/-- A leaf: a label, the source text, and the place, as given by whoever built the leaf. -/
structure Leaf where
  label : Label
  value : Text
  line : Number
  column : Number
  offset : Number
deriving DecidableEq, Repr, Inhabited

/-- A pattern tree. -/
inductive Tree where
  | leaf (leaf : Leaf)
  | branch (label : Label) (children : List Tree)
deriving Repr, Inhabited

namespace Leaf

/-- The leaf of a token. -/
def ofToken (t : Token) : Leaf :=
  ⟨.token t.kind, t.text, .int t.start.line, .int t.start.column, .int t.offset⟩

/-- An error at the place of a leaf. -/
def error (l : Leaf) (cause : PatternError.Cause) : PatternError :=
  ⟨cause, some l.line, some l.column⟩

end Leaf

namespace Tree

/-- The leaf of a token, as a tree. -/
def ofToken (t : Token) : Tree := leaf (.ofToken t)

/-- A phrase with its children. -/
def phrase (p : Phrase) (children : List Tree) : Tree := branch (.phrase p) children

/-- The label of the root. -/
def label : Tree → Label
  | leaf l => l.label
  | branch k _ => k

/-- The children of the root. -/
def children : Tree → List Tree
  | leaf _ => []
  | branch _ ts => ts

mutual

/-- The leaves of a tree, in order. -/
def leaves : Tree → List Leaf
  | leaf l => [l]
  | branch _ ts => leavesOfList ts

/-- The leaves of a list of trees, in order. -/
def leavesOfList : List Tree → List Leaf
  | [] => []
  | t :: ts => leaves t ++ leavesOfList ts

end

theorem leavesOfList_eq (ts : List Tree) : leavesOfList ts = ts.flatMap leaves := by
  induction ts with
  | nil => rfl
  | cons t ts ih => rw [leavesOfList, ih, List.flatMap_cons]

theorem leaves_branch (k : Label) (ts : List Tree) :
    (branch k ts).leaves = ts.flatMap leaves := by
  rw [leaves, leavesOfList_eq]

/-- The node reached from the root along a list of child numbers. -/
def descend? : Tree → List Nat → Option Tree
  | t, [] => some t
  | leaf _, _ :: _ => none
  | branch _ ts, i :: path =>
    match ts[i]? with
    | some t => descend? t path
    | none => none

end Tree

end TreeMatcher
