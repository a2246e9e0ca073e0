import TreeMatcher.Pattern.Parser
import TreeMatcher.Pattern.Piece

/-!
# Parsing patterns

The phrases of a pattern:

* a matcher is alternatives;
* alternatives are one alternative or several, separated by `|`;
* an alternative is one unit or several, negated or not;
* a unit is an optional capture name and `=`, then an optional group, or a basic pattern and an
  optional repeater;
* a negated unit is `!` and an optional group or a basic pattern;
* a basic pattern is a literal, a name with optional details, or alternatives in parentheses;
* an optional group is alternatives in square brackets, details are alternatives in angle brackets;
* a repeater is `*`, `+`, or one or two numbers in braces.

Basic patterns and optional groups have no node of their own; their trees are children of the unit.
Brackets nest no deeper than there are tokens, so the number of tokens bounds the recursion.

* `parse t` — the tree of a text, or the first error.
* `parseTokens mode ts` — the tree and all mismatches.

## Main results

* `parse_eq_ok_iff` — a text has a tree when it is lexed and the strict parser meets no mismatch.
-/

namespace TreeMatcher

namespace Parser

/-! ## First tokens -/

/-- The tokens a unit begins with. -/
def unitStarts : List TokenKind := [.bang, .name, .lsqb, .string, .lpar]

/-- The tokens a repeater begins with. -/
def repeaterStarts : List TokenKind := [.star, .plus, .lbrace]

/-! ## Phrases, given how to read alternatives inside brackets -/

section Phrases

variable (mode : Mode) (inside : Context → Parser)

/-- An opening token, alternatives, and the closing token. -/
def bracketed (close : TokenKind) (ctx : Context) : Parser :=
  andThen take <|
  andThen (recovering mode [close] (ctx.bracket close)
    (asPhrase .alternatives (inside (ctx.bracket close)))) <|
  require mode close ctx.inner

/-- Alternatives in angle brackets. -/
def details (ctx : Context) : Parser :=
  asPhrase .details (bracketed mode inside .greater ctx)

/-- The numbers of a repeater in braces. -/
def bounds (ctx : Context) : Parser :=
  andThen take <|
  andThen (require mode .number [.comma, .rbrace]) <|
  andThen (whenNext [.comma] (andThen take (require mode .number [.rbrace]))) <|
  require mode .rbrace ctx.inner

/-- A repeater. -/
def repeater (ctx : Context) : Parser :=
  asPhrase .repeater fun ts =>
    if next? ts = some .lbrace then bounds mode ctx ts else take ts

/-- A literal, a name with optional details, or a group. -/
def basic (ctx : Context) : Parser := fun ts =>
  match next? ts with
  | some .name => andThen take (whenNext [.less] (details mode inside ctx)) ts
  | some .lpar => bracketed mode inside .rpar ctx ts
  | _ => take ts

/-- An optional group, or what `plain` reads where a basic pattern begins. -/
def operand (plain : Parser) (ctx : Context) : Parser := fun ts =>
  match next? ts with
  | some .lsqb => bracketed mode inside .rsqb ctx ts
  | some .string => plain ts
  | some .name => plain ts
  | some .lpar => plain ts
  | _ => refuse .basic ts

/-- A capture name and its equals sign, if they stand here. -/
def capture : Parser := fun ts =>
  match ts with
  | t :: u :: _ =>
    if t.kind = .name ∧ u.kind = .equal then andThen take take ts else nothing ts
  | _ => nothing ts

/-- A basic pattern and an optional repeater. -/
def repeated (ctx : Context) : Parser :=
  andThen
    (recovering mode repeaterStarts (ctx.within repeaterStarts)
      (basic mode inside (ctx.within repeaterStarts)))
    (whenNext repeaterStarts (repeater mode ctx))

/-- A unit that is not negated. -/
def plainUnit (ctx : Context) : Parser :=
  asPhrase .unit (andThen capture (operand mode inside (repeated mode inside ctx) ctx))

/-- A negated unit. -/
def negatedUnit (ctx : Context) : Parser :=
  asPhrase .negatedUnit (andThen take (operand mode inside (basic mode inside ctx) ctx))

/-- A unit, negated or not. -/
def unit (ctx : Context) : Parser :=
  recovering mode unitStarts (ctx.within unitStarts) fun ts =>
    if next? ts = some .bang then negatedUnit mode inside (ctx.within unitStarts) ts
    else plainUnit mode inside (ctx.within unitStarts) ts

/-- One unit or several. -/
def alternative (ctx : Context) : Parser :=
  recovering mode [.vbar] (ctx.within [.vbar]) <| asPhrase .alternative fun ts =>
    if nextIn unitStarts ts then many unitStarts (unit mode inside (ctx.within [.vbar])) ts
    else refuse .units ts

/-- One alternative or several, without their phrase. -/
def separated (ctx : Context) : Parser :=
  andThen (alternative mode inside ctx)
    (many [.vbar] (andThen take (alternative mode inside ctx)))

end Phrases

/-! ## Nesting -/

/-- Alternatives whose brackets are nested less deep than the given number. -/
def alternatives (mode : Mode) : Nat → Context → Parser
  | 0, _ => fun ts => ⟨[], ts, [], true⟩
  | depth + 1, ctx => separated mode (alternatives mode depth) ctx

end Parser

/-! ## Whole patterns -/

/-- The mismatches of a reply that should have read everything. -/
def Reply.allMismatches (r : Reply) : List Mismatch :=
  if r.aborted then r.mismatches
  else
    match r.rest with
    | [] => r.mismatches
    | t :: _ => r.mismatches ++ [⟨.patternEnd, some t⟩]

/-- The tree that the tokens of a pattern make up, and all mismatches. -/
def parseTokens (mode : Mode) (ts : List Token) : Tree × List Mismatch :=
  let r := Parser.alternatives mode (ts.length + 1) .empty ts
  (.phrase .matcher [.phrase .alternatives r.trees], r.allMismatches)

/-- The tree of a pattern text, or its first error. -/
def parse (t : Text) : Except PatternError Tree :=
  match lex t with
  | .error e => .error e
  | .ok ts =>
    match parseTokens .strict ts with
    | (tree, []) => .ok tree
    | (_, m :: _) => .error m.toError

theorem parse_eq_ok_iff {t : Text} {tree : Tree} :
    parse t = .ok tree ↔ unrecognized t = [] ∧ parseTokens .strict (tokens t) = (tree, []) := by
  unfold parse
  cases h : lex t with
  | error e =>
    simp only [reduceCtorEq, false_iff, not_and]
    intro hu
    simp [lex, hu] at h
  | ok ts =>
    obtain ⟨hu, rfl⟩ := lex_eq_ok_iff.1 h
    rcases hp : parseTokens .strict (tokens t) with ⟨tr, ms⟩
    cases ms <;> simp [hu, hp]

end TreeMatcher
