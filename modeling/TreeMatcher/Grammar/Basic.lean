import TreeMatcher.Grammar.Table
import TreeMatcher.Number.Shortest

/-!
# Grammars of target languages

A grammar says what the names of a pattern stand for. It gives a number to each kind of token, names
the token kind of operators, and numbers its symbols from `256` on, so that token kinds and symbols
share no number.

* `Definition` — a grammar as it is written down.
* `Grammar.define` — the grammar of a definition, or the first fault in it.
* `Grammar.tokenName?`, `symbolName?`, `operatorKind?`, `symbolKind?` — lookups.

## Main results

* `symbolName?_of_symbolKind?` — a symbol's number leads back to its name.
-/

namespace TreeMatcher

/-- A grammar as it is written down. -/
structure Definition where
  name : Text
  /-- The number of each token kind. -/
  tokens : Table Number
  /-- The token kind of each operator, by name. -/
  operators : Table Text
  /-- The symbols, in the order of their numbers. -/
  symbols : List Text

/-! ## Faults in a definition -/

/-- What is wrong with the definition of a grammar. -/
inductive GrammarError where
  /-- A token kind is no integer from `0` to `255`. -/
  | invalidKind (grammar token : Text) (kind : Number)
  /-- Two token kinds have one number. -/
  | sharedKind (grammar first second : Text) (kind : Int)
  /-- An operator names a token kind that is not declared. -/
  | undeclaredOperatorToken (grammar operator token : Text)
  /-- A symbol is declared twice. -/
  | duplicateSymbol (grammar symbol : Text)
  /-- One of the three indispensable token kinds is not declared. -/
  | undeclaredToken (grammar token : Text)
  /-- What should be a definition is no object. -/
  | notAnObject
  /-- The name is missing, empty or no string. -/
  | invalidName
  /-- The symbols are no array of strings. -/
  | invalidSymbols
  /-- A field that should be an object is none. -/
  | fieldNotAnObject (field : Text)
  /-- An entry of a field is of the wrong type. -/
  | wrongEntryType (field key : Text)
deriving DecidableEq, Repr

/-- The wording of a fault. -/
def GrammarError.message : GrammarError → Text
  | invalidKind g t k =>
    "Grammar \"" ++ g ++ "\": token " ++ t ++ " has invalid kind " ++ k.toText
  | sharedKind g a b k =>
    "Grammar \"" ++ g ++ "\": tokens " ++ a ++ " and " ++ b ++ " share kind " ++ Text.ofInt k
  | undeclaredOperatorToken g o t =>
    "Grammar \"" ++ g ++ "\": operator \"" ++ o ++ "\" refers to unknown token " ++ t
  | duplicateSymbol g s => "Grammar \"" ++ g ++ "\": duplicate symbol " ++ s
  | undeclaredToken g t => "Grammar \"" ++ g ++ "\" does not declare token " ++ t
  | notAnObject => "Grammar definition must be an object"
  | invalidName => "Grammar definition: \"name\" must be a non-empty string"
  | invalidSymbols => "Grammar definition: \"symbols\" must be an array of strings"
  | fieldNotAnObject f => "Grammar definition: \"" ++ f ++ "\" must be an object"
  | wrongEntryType f k => "Grammar definition: \"" ++ f ++ "." ++ k ++ "\" has the wrong type"

/-! ## Grammars -/

/-- A grammar: the names and numbers of token kinds, operators and symbols. -/
structure Grammar where
  name : Text
  tokens : List (Text × Int)
  operators : List (Text × Int)
  symbols : List Text
  /-- The token kind of names. -/
  nameKind : Int
  /-- The token kind of strings. -/
  stringKind : Int
  /-- The token kind of numbers. -/
  numberKind : Int
deriving DecidableEq, Repr

namespace Grammar

/-- The number of the first symbol. -/
def firstSymbol : Nat := 256

/-- The number of an operator's token kind. -/
def operatorKind? (g : Grammar) (t : Text) : Option Int := g.operators.lookup t

/-- The number of a symbol. -/
def symbolKind? (g : Grammar) (s : Text) : Option Int :=
  (g.symbols.idxOf? s).map fun i => ((firstSymbol + i : Nat) : Int)

/-- The name of a token kind. -/
def tokenName? (g : Grammar) : Number → Option Text
  | .int k => (g.tokens.find? fun t => t.2 == k).map Prod.fst
  | _ => none

/-- The name of a symbol. -/
def symbolName? (g : Grammar) : Number → Option Text
  | .int k => if (firstSymbol : Int) ≤ k then g.symbols[(k - firstSymbol).toNat]? else none
  | _ => none

/-! ## Checking a definition -/

/-- A number as a token kind. -/
def tokenKind? : Number → Option Int
  | .int k => if 0 ≤ k ∧ k < firstSymbol then some k else none
  | _ => none

/-- Token kinds with their numbers checked; `seen` holds the ones in front. -/
def checkTokens (grammar : Text) (seen : List (Text × Int)) :
    List (Text × Number) → Except GrammarError (List (Text × Int))
  | [] => .ok seen
  | (t, n) :: rest =>
    match tokenKind? n with
    | none => .error (.invalidKind grammar t n)
    | some k =>
      match seen.find? fun s => s.2 == k with
      | some s => .error (.sharedKind grammar s.1 t k)
      | none => checkTokens grammar (seen ++ [(t, k)]) rest

/-- Operators with the numbers of their token kinds. -/
def checkOperators (grammar : Text) (tokens : List (Text × Int)) :
    List (Text × Text) → Except GrammarError (List (Text × Int))
  | [] => .ok []
  | (o, t) :: rest =>
    match tokens.lookup t with
    | none => .error (.undeclaredOperatorToken grammar o t)
    | some k => (checkOperators grammar tokens rest).map ((o, k) :: ·)

/-- Symbols without repetition; `seen` holds the ones in front. -/
def checkSymbols (grammar : Text) (seen : List Text) :
    List Text → Except GrammarError (List Text)
  | [] => .ok seen
  | s :: rest =>
    if s ∈ seen then .error (.duplicateSymbol grammar s)
    else checkSymbols grammar (seen ++ [s]) rest

/-- The number of a token kind that every grammar declares. -/
def requireToken (grammar : Text) (tokens : List (Text × Int)) (t : Text) :
    Except GrammarError Int :=
  match tokens.lookup t with
  | some k => .ok k
  | none => .error (.undeclaredToken grammar t)

/-- The grammar of a definition, or the first fault in it. -/
def define (d : Definition) : Except GrammarError Grammar := do
  let tokens ← checkTokens d.name [] d.tokens.entries
  let operators ← checkOperators d.name tokens d.operators.entries
  let symbols ← checkSymbols d.name [] d.symbols
  let nameKind ← requireToken d.name tokens "NAME"
  let stringKind ← requireToken d.name tokens "STRING"
  let numberKind ← requireToken d.name tokens "NUMBER"
  pure
    { name := d.name, tokens := tokens, operators := operators, symbols := symbols,
      nameKind := nameKind, stringKind := stringKind, numberKind := numberKind }

/-! ## Symbols and numbers -/

theorem symbolName?_of_symbolKind? {g : Grammar} {s : Text} {k : Int}
    (h : g.symbolKind? s = some k) : g.symbolName? (.int k) = some s := by
  obtain ⟨i, hi, rfl⟩ := Option.map_eq_some_iff.1 h
  rw [List.idxOf?] at hi
  obtain ⟨hlt, hs, _⟩ := List.findIdx?_eq_some_iff_getElem.1 hi
  have hle : (firstSymbol : Int) ≤ ((firstSymbol + i : Nat) : Int) := by omega
  have hsub : (((firstSymbol + i : Nat) : Int) - (firstSymbol : Nat)).toNat = i := by omega
  rw [symbolName?, if_pos hle, hsub, List.getElem?_eq_getElem hlt]
  exact congrArg some (beq_iff_eq.1 hs)

end Grammar

end TreeMatcher
