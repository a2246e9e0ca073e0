import TreeMatcher.Grammar.Basic
import TreeMatcher.Matcher.Basic
import TreeMatcher.Pattern.Literal

/-!
# Spelling matchers as patterns

A matcher is written as pattern source: leaves by their literal or the name of their token kind,
nodes by their symbol with the content in angle brackets, wildcards by their alternatives in
parentheses with a repeater, or in square brackets when they stand at most once, and negations by an
exclamation mark. Parentheses around a single leaf or node under a repeater are left out, and so are
those around a negated matcher that has brackets of its own.

Not every matcher has a spelling; the reason is a `SpellingError`.

* `Grammar.spell g m` — the spelling of a matcher.

## Main results

* `spellSequence_nil` — an empty sequence has no spelling.
* `repeaterText_once` — to stand once needs no repeater.
-/

namespace TreeMatcher

/-- Why a matcher has no spelling. -/
inductive SpellingError where
  /-- A token kind without a name in patterns; its name in the grammar or its number. -/
  | tokenKind (name : Text)
  /-- A symbol that the grammar does not declare. -/
  | symbol (number : Number) (grammar : Text)
  /-- A sequence without elements. -/
  | emptySequence
  /-- A wildcard without alternatives. -/
  | noAlternatives
  /-- A wildcard without an upper bound whose lower bound is neither zero nor one. -/
  | unboundedFrom (min : Number)
  /-- A negation with a capture name. -/
  | namedNegation (name : Text)
deriving DecidableEq, Repr

/-- The wording of the reason. -/
def SpellingError.message : SpellingError → Text
  | tokenKind name => "Token leaf " ++ name ++ " has no pattern spelling"
  | symbol k g => "Symbol " ++ k.toText ++ " is not defined by grammar \"" ++ g ++ "\""
  | emptySequence => "Empty sequence has no pattern spelling"
  | noAlternatives => "Wildcard without alternatives has no pattern spelling"
  | unboundedFrom n => "Repeat \x7b" ++ n.toText ++ ",\x7d has no pattern spelling"
  | namedNegation name => "Negation named \"" ++ name ++ "\" has no pattern spelling"

namespace Matcher

/-- Whether a matcher is a leaf or a node without a name. -/
def isPlain : Matcher → Bool
  | leaf _ _ n => n.isNone
  | node _ _ n => n.isNone
  | _ => false

/-- Whether a matcher is written in brackets as it is: without a name and at most once. -/
def isBracketed : Matcher → Bool
  | wildcard _ min max n => n.isNone && max = 1 && min.le 1
  | _ => false

end Matcher

namespace Grammar

/-! ## Parts without matchers inside -/

/-- The texts between a separator. -/
def joinTexts (separator : Text) : List Text → Text
  | [] => []
  | [t] => t
  | t :: ts => t ++ separator ++ joinTexts separator ts

/-- A capture name and its equals sign. -/
def captureText : Option Text → Text
  | none => []
  | some name => name ++ "="

/-- A repeater, nothing for exactly once. -/
def repeaterText (min max : Number) : Except SpellingError Text :=
  if min = 1 ∧ max = 1 then .ok []
  else if max = .infinity then
    if min = 0 then .ok "*"
    else if min = 1 then .ok "+"
    else .error (.unboundedFrom min)
  else if min = max ∧ min ≠ .nan then .ok ("\x7b" ++ min.toText ++ "\x7d")
  else .ok ("\x7b" ++ min.toText ++ "," ++ max.toText ++ "\x7d")

variable (g : Grammar)

/-- A leaf without its name. -/
def spellLeaf (token? : Option Number) (value? : Option Text) : Except SpellingError Text :=
  match value? with
  | some value => .ok (Literal.quote value)
  | none =>
    match token? with
    | none => .ok "TOKEN"
    | some k =>
      if k = .int g.nameKind then .ok "NAME"
      else if k = .int g.stringKind then .ok "STRING"
      else if k = .int g.numberKind then .ok "NUMBER"
      else .error (.tokenKind ((g.tokenName? k).getD k.toText))

/-- The head of a node. -/
def spellSymbol (symbol? : Option Number) : Except SpellingError Text :=
  match symbol? with
  | none => .ok "any"
  | some k =>
    match g.symbolName? k with
    | some name => .ok name
    | none => .error (.symbol k g.name)

/-- A node without its name: its head, and its content if it has one. -/
def spellNode (symbol? : Option Number) (content? : Option (Except SpellingError Text)) :
    Except SpellingError Text :=
  match spellSymbol g symbol? with
  | .error e => .error e
  | .ok head =>
    match content? with
    | none => .ok head
    | some (.ok content) => .ok (head ++ "<" ++ content ++ ">")
    | some (.error e) => .error e

/-! ## Matchers -/

/-- A wildcard without its name: around its body, `single` telling whether that is a leaf or a node
without a name. -/
def spellWildcard (body : Except SpellingError Text) (single : Bool) (min max : Number) :
    Except SpellingError Text :=
  match body with
  | .error e => .error e
  | .ok body =>
    if min = 0 ∧ max = 1 then .ok ("[" ++ body ++ "]")
    else
      match repeaterText min max with
      | .error e => .error e
      | .ok repeater =>
        if single && !repeater.isEmpty then .ok (body ++ repeater)
        else .ok ("(" ++ body ++ ")" ++ repeater)

/-- Whether the alternatives of a wildcard are one leaf or node without a name. -/
def isSinglePlain : List (List Matcher) → Bool
  | [[m]] => m.isPlain
  | _ => false

/-- A negation of a matcher with a given spelling. -/
def spellNegated (inner : Matcher) (text : Except SpellingError Text) (name? : Option Text) :
    Except SpellingError Text :=
  match name? with
  | some name => .error (.namedNegation name)
  | none =>
    match text with
    | .error e => .error e
    | .ok text =>
      if inner.isPlain || inner.isBracketed then .ok ("!" ++ text)
      else .ok ("!(" ++ text ++ ")")

mutual

/-- The spelling of a matcher. -/
def spell : Matcher → Except SpellingError Text
  | .leaf token? value? name? => (spellLeaf g token? value?).map (captureText name? ++ ·)
  | .node symbol? none name? => (spellNode g symbol? none).map (captureText name? ++ ·)
  | .node symbol? (some content) name? =>
    (spellNode g symbol? (some (spellSequence content))).map (captureText name? ++ ·)
  | .wildcard alternatives min max name? =>
    (spellWildcard (spellChoice alternatives) (isSinglePlain alternatives) min max).map
      (captureText name? ++ ·)
  | .negated inner name? => spellNegated inner (spell inner) name?

/-- The spelling of each element of a sequence. -/
def spellAll : List Matcher → Except SpellingError (List Text)
  | [] => .ok []
  | m :: ms =>
    match spell m with
    | .error e => .error e
    | .ok t => (spellAll ms).map (t :: ·)

/-- The spelling of a sequence. -/
def spellSequence : List Matcher → Except SpellingError Text
  | [] => .error .emptySequence
  | m :: ms =>
    match spell m with
    | .error e => .error e
    | .ok t => (spellAll ms).map fun ts => joinTexts " " (t :: ts)

/-- The spelling of each of several sequences. -/
def spellSequences : List (List Matcher) → Except SpellingError (List Text)
  | [] => .ok []
  | s :: ss =>
    match spellSequence s with
    | .error e => .error e
    | .ok t => (spellSequences ss).map (t :: ·)

/-- The spelling of the alternatives of a wildcard. -/
def spellChoice : List (List Matcher) → Except SpellingError Text
  | [] => .error .noAlternatives
  | s :: ss =>
    match spellSequence s with
    | .error e => .error e
    | .ok t => (spellSequences ss).map fun ts => joinTexts " | " (t :: ts)

end

theorem spellSequence_nil : spellSequence g [] = .error .emptySequence := by
  rw [spellSequence]

theorem repeaterText_once : repeaterText 1 1 = .ok [] := rfl

end Grammar

end TreeMatcher
