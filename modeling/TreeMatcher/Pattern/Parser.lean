import TreeMatcher.Pattern.Tree

/-!
# Parsers over tokens

A parser reads tokens from the front of a list. Its reply holds the trees it made, the tokens that
are left, the mismatches it met, in order, and whether it gave up. There are two modes. A strict
parser gives up at its first mismatch. A lenient one mends what it can and goes on:

* a required token that is missing is taken as present when the next token could follow it;
* or else the next token is passed over when the one behind it is the required one;
* or else the phrase gives up, and an enclosing phrase may be resumed: tokens are passed over up to
  the first that could follow one of the open phrases, and the phrase it could follow is taken as
  complete.

`Context` holds what could follow the open phrases, innermost brackets first.

## Main results

* `andThen_assoc`, `nothing_andThen`, `andThen_nothing` — parsers form a monoid.
* `recovering_strict` — a strict parser never resumes.
-/

namespace TreeMatcher

/-- How a parser goes on after a mismatch. -/
inductive Mode where
  /-- Give up. -/
  | strict
  /-- Mend the mismatch or resume an enclosing phrase. -/
  | lenient
deriving DecidableEq, Repr

/-- What could follow the open phrases. -/
structure Context where
  /-- Within the innermost brackets; their closing token is the last of these. -/
  inner : List TokenKind
  /-- Outside the innermost brackets. -/
  outer : List TokenKind
deriving DecidableEq, Repr

namespace Context

/-- No phrase is open. -/
def empty : Context := ⟨[], []⟩

/-- A phrase is opened that the given kinds could follow. -/
def within (ctx : Context) (kinds : List TokenKind) : Context :=
  ⟨kinds ++ ctx.inner, ctx.outer⟩

/-- Brackets are opened. -/
def bracket (ctx : Context) (close : TokenKind) : Context :=
  ⟨[close], ctx.inner ++ ctx.outer⟩

/-- Whether a kind could follow an open phrase. -/
def allows (ctx : Context) (k : TokenKind) : Bool := k ∈ ctx.inner || k ∈ ctx.outer

end Context

/-- What a parser answers. -/
structure Reply where
  trees : List Tree
  rest : List Token
  mismatches : List Mismatch
  aborted : Bool
deriving Repr

/-- A parser: from the tokens ahead to a reply. -/
abbrev Parser := List Token → Reply

namespace Parser

/-! ## Looking ahead -/

/-- Whether the next token is of one of the given kinds. -/
def nextIn (kinds : List TokenKind) : List Token → Bool
  | [] => false
  | t :: _ => t.kind ∈ kinds

/-- The kind of the next token. -/
def next? : List Token → Option TokenKind
  | [] => none
  | t :: _ => some t.kind

/-! ## Steps -/

/-- Reads nothing. -/
def nothing : Parser := fun ts => ⟨[], ts, [], false⟩

/-- Takes the next token. -/
def take : Parser
  | [] => ⟨[], [], [], false⟩
  | t :: ts => ⟨[.ofToken t], ts, [], false⟩

/-- Gives up, for the next token is not what is expected. -/
def refuse (expected : Expectation) : Parser := fun ts =>
  ⟨[], ts, [⟨expected, ts.head?⟩], true⟩

/-- One parser and then another, unless the first gave up. -/
def andThen (p q : Parser) : Parser := fun ts =>
  let r := p ts
  if r.aborted then r
  else
    let s := q r.rest
    ⟨r.trees ++ s.trees, s.rest, r.mismatches ++ s.mismatches, s.aborted⟩

/-- Makes one phrase of the trees read. -/
def asPhrase (phrase : Phrase) (p : Parser) : Parser := fun ts =>
  let r := p ts
  { r with trees := [.phrase phrase r.trees] }

/-- Runs a parser if the next token is of one of the given kinds. -/
def whenNext (kinds : List TokenKind) (p : Parser) : Parser := fun ts =>
  if nextIn kinds ts then p ts else nothing ts

/-- Repeats a parser up to `n` times, as long as the next token is of one of the given kinds. -/
def manyUpTo (kinds : List TokenKind) (p : Parser) : Nat → Parser
  | 0 => nothing
  | n + 1 => whenNext kinds (andThen p (manyUpTo kinds p n))

/-- Repeats a parser that takes a token each time, as long as the next token is of one of the given
kinds. -/
def many (kinds : List TokenKind) (p : Parser) : Parser := fun ts =>
  manyUpTo kinds p ts.length ts

/-! ## Mending -/

/-- Takes a token of the kind that must stand here; `follow` holds what could come behind it. -/
def require (mode : Mode) (k : TokenKind) (follow : List TokenKind) : Parser
  | [] => ⟨[], [], [⟨.token k, none⟩], true⟩
  | t :: ts =>
    if t.kind = k then ⟨[.ofToken t], ts, [], false⟩
    else if mode = .strict then ⟨[], t :: ts, [⟨.token k, some t⟩], true⟩
    else if t.kind ∈ follow then ⟨[], t :: ts, [⟨.token k, some t⟩], false⟩
    else
      match ts with
      | [] => ⟨[], [t], [⟨.token k, some t⟩], true⟩
      | u :: us =>
        if u.kind = k then ⟨[.ofToken u], us, [⟨.token k, some t⟩], false⟩
        else ⟨[], t :: u :: us, [⟨.token k, some t⟩], true⟩

/-- The tokens from the first one on that could follow an open phrase. -/
def resumeAt (ctx : Context) (ts : List Token) : List Token :=
  ts.dropWhile fun t => !ctx.allows t.kind

/-- A phrase that the kinds `own` could follow. When it gave up, and the first token that could
follow any open phrase could follow this one, the phrase is taken as complete and reading is resumed
at that token. -/
def recovering (mode : Mode) (own : List TokenKind) (ctx : Context) (p : Parser) : Parser :=
  fun ts =>
    let r := p ts
    if mode = .lenient && r.aborted && nextIn own (resumeAt ctx r.rest) then
      { r with rest := resumeAt ctx r.rest, aborted := false }
    else r

/-! ## Laws -/

theorem nothing_andThen (p : Parser) : andThen nothing p = p := by
  funext ts
  simp [andThen, nothing]

theorem andThen_nothing (p : Parser) : andThen p nothing = p := by
  funext ts
  simp only [andThen, nothing, List.append_nil]
  cases h : (p ts).aborted <;> simp [← h]

theorem andThen_assoc (p q r : Parser) :
    andThen (andThen p q) r = andThen p (andThen q r) := by
  funext ts
  simp only [andThen]
  cases hp : (p ts).aborted
  · cases hq : (q (p ts).rest).aborted <;> simp [hq]
  · simp [hp]

theorem recovering_strict (own : List TokenKind) (ctx : Context) (p : Parser) :
    recovering .strict own ctx p = p := by
  funext ts
  simp [recovering]

end Parser

end TreeMatcher
