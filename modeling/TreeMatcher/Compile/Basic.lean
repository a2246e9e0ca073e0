import TreeMatcher.Compile.Bounds
import TreeMatcher.Grammar.Basic
import TreeMatcher.Matcher.Normal
import TreeMatcher.Pattern.Literal
import TreeMatcher.Pattern.Parse
import TreeMatcher.Text.Letter
import TreeMatcher.Text.LetterCase

/-!
# From pattern trees to matchers

Every phrase is compiled from its parts: the children, each with what it compiles to. A phrase looks
at the labels of its parts and takes the matchers it needs.

* Upper-case names are token kinds; `TOKEN` is any of them. Other names are symbols of the grammar;
  `any` and names that begin with an underscore are any symbol.
* A literal that begins with a letter is a name, any other one an operator. Where the grammar has no
  such operator, the literal matches a token of any kind.
* A repeater puts a wildcard around its pattern, unless it repeats it exactly once.
* A capture name is put on the outermost matcher of a unit.

Redundant wildcards are removed where a matcher is finished.

* `Grammar.matcherOfTree g tree` — what a tree compiles to.
* `Grammar.matcherOfText g source` — what a text compiles to, with its tree.

## Main results

* `matcherOfTree_leaf`, `matcherOfTree_branch` — compiling follows the tree.
-/

namespace TreeMatcher

/-- A child of a phrase and what it compiles to. -/
structure Part where
  tree : Tree
  /-- What the child compiles to. -/
  matcher : Outcome Matcher
  /-- What its second child compiles to, which stands between the brackets of a clause. -/
  enclosed? : Option (Outcome Matcher)

namespace Part

/-- The label of a part. -/
def label (p : Part) : Label := p.tree.label

end Part

/-- A matcher without redundant wildcards, as an outcome. -/
def Matcher.finish (m : Matcher) : Outcome Matcher :=
  match m.normalize with
  | .ok m => .value m
  | .error e => .fail (.bounds e)

/-- A wildcard with checked bounds, as an outcome. -/
def Matcher.repeating (alternatives : List (List Matcher)) (min max : Number) : Outcome Matcher :=
  match wildcard? alternatives min max none with
  | .ok m => .value m
  | .error e => .fail (.bounds e)

namespace Grammar

/-! ## The parts of a unit -/

/-- Splits off a capture name and its equals sign. -/
def takeCapture : List Part → Outcome (Option Text × List Part)
  | p :: q :: r :: rest =>
    if q.label = .token .equal then
      match p.tree with
      | .leaf l => .value (some l.value, r :: rest)
      | .branch .. => .misshapen .captureNotToken
    else .value (none, p :: q :: r :: rest)
  | ps => .value (none, ps)

/-- The children of a repeater. -/
def repeaterOf? : Tree → Option (List Tree)
  | .branch (.phrase .repeater) children => some children
  | _ => none

/-- Splits off a repeater at the end, unless nothing else is there. -/
def takeRepeater (ps : List Part) : Option (List Tree) × List Part :=
  match ps with
  | [] => (none, [])
  | [p] => (none, [p])
  | ps =>
    match ps.getLast?.bind fun p => repeaterOf? p.tree with
    | some children => (some children, ps.dropLast)
    | none => (none, ps)

/-! ## Basic patterns -/

section

variable (g : Grammar)

/-- The upper-case names that stand for token kinds; the last one for any kind. -/
def tokenNames : List (Text × Option Number) :=
  [("NAME", some (.int g.nameKind)), ("STRING", some (.int g.stringKind)),
   ("NUMBER", some (.int g.numberKind)), ("TOKEN", none)]

/-- The token kind of a literal with a given value, if it has one. -/
def literalKind (value : Text) : Outcome (Option Number) :=
  if value.startsWithLetter then .value (some (.int g.nameKind))
  else
    match g.operatorKind? value with
    | some k => .value (some (.int k))
    | none => ⟨[.unknownOperator value], .ok none⟩

/-- A literal. -/
def literalMatcher (l : Leaf) : Outcome Matcher :=
  match Literal.unquote l.value with
  | .error cause => .refuse (.nowhere cause)
  | .ok value => do
    let kind ← literalKind g value
    pure (.leaf kind (some value) none)

/-- An upper-case name, which has no details. -/
def tokenMatcher (l : Leaf) (details? : Option Part) : Outcome Matcher :=
  match g.tokenNames.lookup l.value with
  | none => .refuse (l.error (.unknownToken l.value))
  | some kind =>
    match details? with
    | some _ => .refuse (l.error (.detailsOfToken l.value))
    | none => .value (.leaf kind none none)

/-- The name for any symbol. -/
def anySymbol : Text := "any"

/-- The symbol that a name stands for, `none` for any symbol. -/
def symbolOf (l : Leaf) : Outcome (Option Number) :=
  if l.value = anySymbol ∨ l.value.head? = some CodeUnit.underscore then .value none
  else
    match g.symbolKind? l.value with
    | some k => .value (some (.int k))
    | none => .refuse (l.error (.unknownSymbol l.value))

/-- What stands in a details clause. -/
def contentOf (p : Part) : Outcome Matcher :=
  match p.tree with
  | .branch (.phrase .details) _ => p.enclosed?.getD (.fail .missingNode)
  | _ => .misshapen .detailsExpected

/-- A name for a symbol, with optional details. -/
def symbolMatcher (l : Leaf) (details? : Option Part) : Outcome Matcher := do
  let symbol ← symbolOf g l
  match details? with
  | none => pure (.node symbol none none)
  | some p => do
    let content ← contentOf p
    pure (.node symbol (some [content]) none)

/-- Alternatives in parentheses. -/
def groupMatcher (ps : List Part) : Outcome Matcher :=
  match ps with
  | [_, p, _] => p.matcher
  | _ => .misshapen .malformedGroup

/-- Alternatives in square brackets. -/
def optionalMatcher (repeats : Bool) (ps : List Part) : Outcome Matcher :=
  if repeats then .misshapen .repeatedOptional
  else
    match ps with
    | [_, p, _] => do
      let m ← p.matcher
      Matcher.repeating [[m]] 0 1
    | _ => .misshapen .malformedOptional

/-- A basic pattern or an optional group; `repeats` tells whether a repeater follows. -/
def basicMatcher (repeats : Bool) (ps : List Part) : Outcome Matcher :=
  match ps with
  | [] => .misshapen .basicNotToken
  | p :: rest =>
    match p.tree with
    | .branch .. => .misshapen .basicNotToken
    | .leaf l =>
      match l.label with
      | .token .string => literalMatcher g l
      | .token .name =>
        if l.value.isUpperCase then tokenMatcher g l rest.head?
        else symbolMatcher g l rest.head?
      | .token .lpar => groupMatcher ps
      | .token .lsqb => optionalMatcher repeats ps
      | k => .misshapen (.unexpectedToken k l.line)

/-! ## Phrases -/

/-- A pattern under a repeater with the given children. -/
def repeatMatcher (m : Matcher) (children : List Tree) : Outcome Matcher := do
  let (min, max) ← Outcome.ofExcept (boundsOf children)
  if max.lt min then Outcome.report (.neverMatches min max)
  if min = 1 ∧ max = 1 then pure m
  else do
    let inner ← m.finish
    Matcher.repeating [[inner]] min max

/-- A unit: a basic pattern with an optional capture name and an optional repeater. -/
def unitMatcher (ps : List Part) : Outcome Matcher := do
  let (name?, ps) ← takeCapture ps
  let (repeater?, ps) := takeRepeater ps
  let m ← basicMatcher g repeater?.isSome ps
  let m ←
    match repeater? with
    | some children => repeatMatcher m children
    | none => pure m
  match name? with
  | some name => (m.withName name).finish
  | none => m.finish

/-- A negated unit; its first part is the exclamation mark. -/
def negatedMatcher (ps : List Part) : Outcome Matcher := do
  let m ← basicMatcher g false ps.tail
  let inner ← m.finish
  (Matcher.negated inner none).finish

/-- The matchers of some parts, in order. -/
def matchersOf : List Part → Outcome (List Matcher)
  | [] => .value []
  | p :: ps => do
    let m ← p.matcher
    let ms ← matchersOf ps
    pure (m :: ms)

/-- Every other part, from the first one on. -/
def everyOther : List Part → List Part
  | [] => []
  | [p] => [p]
  | p :: _ :: ps => p :: everyOther ps

/-- Units in a row; a unit alone is the sequence itself. -/
def sequenceMatcher (ps : List Part) : Outcome Matcher := do
  let ms ← matchersOf ps
  match ms with
  | [m] => pure m
  | ms => do
    let w ← Matcher.repeating [ms] 1 1
    w.finish

/-- Alternatives, with separators between them; an alternative alone is the choice itself. -/
def choiceMatcher (ps : List Part) : Outcome Matcher := do
  let ms ← matchersOf (everyOther ps)
  match ms with
  | [m] => pure m
  | ms => do
    let w ← Matcher.repeating (ms.map fun m => [m]) 1 1
    w.finish

/-- What a branch compiles to, from its label and its parts. -/
def phraseMatcher (k : Label) (ps : List Part) : Outcome Matcher :=
  match k with
  | .phrase .matcher =>
    match ps with
    | [] => .misshapen .emptyMatcher
    | p :: _ => p.matcher
  | .phrase .alternatives => choiceMatcher ps
  | .phrase .alternative => sequenceMatcher ps
  | .phrase .negatedUnit => negatedMatcher g ps
  | .phrase .unit => unitMatcher g ps
  | .phrase .repeater => .misshapen (.dependentPhrase .repeater)
  | .phrase .details => .misshapen (.dependentPhrase .details)
  | k => .misshapen (.unknownPhrase k)

/-! ## Trees and texts -/

mutual

/-- A tree as a part. -/
def part : Tree → Part
  | .leaf l => ⟨.leaf l, .misshapen (.loneToken l.label), none⟩
  | .branch k ts =>
    let ps := partsOf ts
    ⟨.branch k ts, phraseMatcher g k ps, ps[1]?.map Part.matcher⟩

/-- Trees as parts. -/
def partsOf : List Tree → List Part
  | [] => []
  | t :: ts => part t :: partsOf ts

end

/-- What a tree compiles to. -/
def matcherOfTree (t : Tree) : Outcome Matcher := (part g t).matcher

/-- What a text compiles to, and its tree. -/
def matcherOfText (source : Text) : Outcome (Tree × Matcher) :=
  match parse source with
  | .error e => .refuse e
  | .ok tree => do
    let m ← matcherOfTree g tree
    Outcome.report (.compiled source)
    pure (tree, m)

theorem partsOf_eq_map (ts : List Tree) : partsOf g ts = ts.map (part g) := by
  induction ts with
  | nil => rfl
  | cons t ts ih => rw [partsOf, ih, List.map_cons]

theorem matcherOfTree_leaf (l : Leaf) :
    matcherOfTree g (.leaf l) = .misshapen (.loneToken l.label) := by
  rw [matcherOfTree, part]

theorem matcherOfTree_branch (k : Label) (ts : List Tree) :
    matcherOfTree g (.branch k ts) = phraseMatcher g k (ts.map (part g)) := by
  rw [matcherOfTree, part, partsOf_eq_map]

@[simp] theorem tree_part (t : Tree) : (part g t).tree = t := by
  cases t <;> rw [part]

@[simp] theorem matcher_part (t : Tree) : (part g t).matcher = matcherOfTree g t := rfl

theorem enclosed?_part (k : Label) (ts : List Tree) :
    (part g (.branch k ts)).enclosed? = ts[1]?.map (matcherOfTree g) := by
  rw [part, partsOf_eq_map, List.getElem?_map, Option.map_map]
  rfl

end

end Grammar

end TreeMatcher
