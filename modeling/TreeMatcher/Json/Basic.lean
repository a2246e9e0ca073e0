import TreeMatcher.Number.Basic
import TreeMatcher.Text.Basic

/-!
# JSON values

A value as it was written: the entries of an object in their order, repeated keys included. What a
repeated key means is decided where an object is read as a table.
-/

namespace TreeMatcher

/-- A JSON value. -/
inductive Json where
  | null
  | bool (value : Bool)
  | number (value : Number)
  | string (value : Text)
  | array (items : List Json)
  | object (entries : List (Text × Json))
deriving Inhabited

namespace Json

/-- The last entry with a given key, in an object. -/
def field? (key : Text) : Json → Option Json
  | object entries => entries.reverse.lookup key
  | _ => none

/-- The text of a string. -/
def text? : Json → Option Text
  | string t => some t
  | _ => none

/-- The number of a number. -/
def number? : Json → Option Number
  | number n => some n
  | _ => none

end Json

end TreeMatcher
