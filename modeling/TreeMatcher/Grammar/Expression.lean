import TreeMatcher.Grammar.Basic

/-!
# The grammar of expressions

A ready-made grammar for programs and expressions: the token kinds of a small language, its
operators, and its symbols.

## Main results

* `define_expressionDefinition` — its definition has no fault.
-/

namespace TreeMatcher.Grammar

/-- The names of the token kinds, which are numbered from zero on in this order. -/
def expressionTokens : List Text :=
  List.map Text.ofString [
    "ENDMARKER", "NAME", "NUMBER", "STRING", "NEWLINE", "INDENT", "DEDENT", "LPAR", "RPAR", "LSQB",
    "RSQB", "COLON", "COMMA", "SEMI", "PLUS", "MINUS", "STAR", "SLASH", "VBAR", "AMPER", "LESS",
    "GREATER", "EQUAL", "DOT", "PERCENT", "LBRACE", "RBRACE", "EQEQUAL", "NOTEQUAL", "LESSEQUAL",
    "GREATEREQUAL", "TILDE", "CIRCUMFLEX", "LEFTSHIFT", "RIGHTSHIFT", "DOUBLESTAR", "PLUSEQUAL",
    "MINEQUAL", "STAREQUAL", "SLASHEQUAL", "PERCENTEQUAL", "DOUBLESLASH", "ARROW", "AT", "COMMENT"]

/-- The operators, each with its token kind by name. -/
def expressionOperators : List (Text × Text) :=
  List.map (Prod.map Text.ofString Text.ofString) [
    ("(", "LPAR"), (")", "RPAR"), ("[", "LSQB"), ("]", "RSQB"), (":", "COLON"), (",", "COMMA"),
    (";", "SEMI"), ("+", "PLUS"), ("-", "MINUS"), ("*", "STAR"), ("/", "SLASH"), ("|", "VBAR"),
    ("&", "AMPER"), ("<", "LESS"), (">", "GREATER"), ("=", "EQUAL"), (".", "DOT"),
    ("%", "PERCENT"), ("\x7b", "LBRACE"), ("\x7d", "RBRACE"), ("==", "EQEQUAL"),
    ("!=", "NOTEQUAL"), ("<=", "LESSEQUAL"), (">=", "GREATEREQUAL"), ("~", "TILDE"),
    ("^", "CIRCUMFLEX"), ("<<", "LEFTSHIFT"), (">>", "RIGHTSHIFT"), ("**", "DOUBLESTAR"),
    ("+=", "PLUSEQUAL"), ("-=", "MINEQUAL"), ("*=", "STAREQUAL"), ("/=", "SLASHEQUAL"),
    ("%=", "PERCENTEQUAL"), ("//", "DOUBLESLASH"), ("->", "ARROW"), ("@", "AT")]

/-- The symbols. -/
def expressionSymbols : List Text :=
  List.map Text.ofString [
    "file_input", "stmt", "simple_stmt", "expr_stmt", "augassign", "return_stmt", "import_stmt",
    "dotted_name", "if_stmt", "while_stmt", "for_stmt", "funcdef", "parameters", "param", "block",
    "test", "or_test", "and_test", "not_test", "comparison", "comp_op", "expr", "xor_expr",
    "and_expr", "shift_expr", "arith_expr", "term", "factor", "power", "atom", "trailer",
    "arglist", "argument", "subscriptlist", "subscript", "listmaker", "dictmaker", "lambdef"]

/-- The number of a token kind of the expression grammar. -/
def expressionKind (t : Text) : Int := (expressionTokens.idxOf t : Int)

/-- The grammar of expressions. -/
def expression : Grammar where
  name := "expression"
  tokens := expressionTokens.map fun t => (t, expressionKind t)
  operators := expressionOperators.map fun o => (o.1, expressionKind o.2)
  symbols := expressionSymbols
  nameKind := expressionKind "NAME"
  stringKind := expressionKind "STRING"
  numberKind := expressionKind "NUMBER"

/-- The grammar of expressions as it is written down. -/
def expressionDefinition : Definition where
  name := "expression"
  tokens := .ofList (expressionTokens.map fun t => (t, .int (expressionKind t)))
  operators := .ofList expressionOperators
  symbols := expressionSymbols

theorem define_expressionDefinition : define expressionDefinition = .ok expression := by
  have h : (define expressionDefinition).toOption = some expression := by decide +kernel
  cases hd : define expressionDefinition with
  | ok g =>
    rw [hd] at h
    exact congrArg Except.ok (Option.some.inj h)
  | error e =>
    rw [hd] at h
    cases h

end TreeMatcher.Grammar
