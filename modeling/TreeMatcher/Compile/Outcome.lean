import TreeMatcher.Json.Quoted
import TreeMatcher.Matcher.Basic
import TreeMatcher.Pattern.Tree

/-!
# Outcomes of a compilation

Compiling reports events on its way and ends with a value or an error. Events stay reported when an
error follows. An outcome is both together, and outcomes are put in sequence as steps of a monad.

* `CompileError` — why a tree is refused: a fault of the pattern, a shape that no pattern has, a
  bound that no wildcard has.
* `Event` — what is worth telling about a pattern that is not refused.
* `Outcome` — the events and the result.

## Main results

* `result_bind`, `events_bind` — a step behind an error is not taken; the events of the steps taken
  come one after the other.
* `exists_of_andThen` — a value at the end is one on the way.
-/

namespace TreeMatcher

/-! ## Errors -/

/-- A shape of a tree that the parser never gives. -/
inductive ShapeError where
  /-- A leaf where a phrase should be. -/
  | loneToken (label : Label)
  /-- A matcher without children. -/
  | emptyMatcher
  /-- A phrase that is only a part of a unit. -/
  | dependentPhrase (phrase : Phrase)
  /-- A branch that is no phrase. -/
  | unknownPhrase (label : Label)
  /-- A branch in front of an equals sign. -/
  | captureNotToken
  /-- A repeat bound that is no number token. -/
  | boundNotNumber
  /-- A repeat bound that is no run of digits. -/
  | malformedBound (value : Text)
  /-- A repeater that does not begin with a token. -/
  | emptyRepeater
  /-- A repeater without its closing brace. -/
  | unterminatedRepeater
  /-- A repeater in braces with a wrong number of children. -/
  | malformedRepeater
  /-- A repeater that begins with a wrong token. -/
  | unexpectedRepeaterToken (label : Label)
  /-- A basic pattern that does not begin with a token. -/
  | basicNotToken
  /-- A group with a wrong number of children. -/
  | malformedGroup
  /-- An optional group with a repeater. -/
  | repeatedOptional
  /-- An optional group with a wrong number of children. -/
  | malformedOptional
  /-- A basic pattern that begins with a wrong token. -/
  | unexpectedToken (label : Label) (line : Number)
  /-- Something else than details behind a symbol. -/
  | detailsExpected
deriving DecidableEq, Repr

/-- The wording of an error in the shape of a tree. -/
def ShapeError.message : ShapeError → Text
  | loneToken k => "Cannot compile a lone " ++ k.text ++ " token"
  | emptyMatcher => "Empty matcher"
  | dependentPhrase p => p.label ++ " node cannot be compiled on its own"
  | unknownPhrase k => "Unhandled pattern node kind: " ++ k.text
  | captureNotToken => "Capture name must be a token"
  | boundNotNumber => "Repeat bound must be a NUMBER token"
  | malformedBound v => "Malformed repeat bound \"" ++ v ++ "\""
  | emptyRepeater => "Empty repeater"
  | unterminatedRepeater => "Unterminated repeater"
  | malformedRepeater => "Malformed repeater"
  | unexpectedRepeaterToken k => "Unexpected repeater token " ++ k.text
  | basicNotToken => "Basic pattern must start with a token"
  | malformedGroup => "Malformed group"
  | repeatedOptional => "Optional group cannot carry a repeater"
  | malformedOptional => "Malformed optional group"
  | unexpectedToken k line => "Unexpected " ++ k.text ++ " token at line " ++ line.toText
  | detailsExpected => "Expected a details clause"

/-- Why a pattern or a pattern tree is refused. -/
inductive CompileError where
  | pattern (error : PatternError)
  | shape (error : ShapeError)
  | bounds (error : Matcher.BoundError)
  /-- There is no node where one is looked up. -/
  | missingNode
deriving DecidableEq, Repr

/-- The wording of an error. A node that is missing is nothing that is checked for, so there is none
for it. -/
def CompileError.message? : CompileError → Option Text
  | pattern e => some e.message
  | shape e => some e.message
  | bounds e => some e.message
  | missingNode => none

/-! ## Events -/

/-- What is reported about a pattern. -/
inductive Event where
  /-- A repeater whose lower bound is above its upper bound. -/
  | neverMatches (min max : Number)
  /-- A literal that is neither a name nor an operator of the grammar. -/
  | unknownOperator (value : Text)
  /-- A text was compiled. -/
  | compiled (source : Text)
deriving DecidableEq, Repr

namespace Event

/-- Whether an event is a warning. -/
def isWarning : Event → Bool
  | neverMatches .. => true
  | unknownOperator _ => true
  | compiled _ => false

/-- The wording of an event, with places for what it is about. -/
def template : Event → Text
  | neverMatches .. =>
    "[treepat] repeat \x7b%d,%d\x7d has min greater than max and can never match"
  | unknownOperator _ =>
    "[treepat] string literal %s has no operator kind; it will match any token"
  | compiled _ => "[treepat] compiled %s in %dms"

/-- What an event is about: the numbers of a bound as they are, a text quoted. -/
def subjects : Event → List (Number ⊕ Text)
  | neverMatches min max => [.inl min, .inl max]
  | unknownOperator value => [.inr (Json.quote value)]
  | compiled source => [.inr (Json.quote source)]

end Event

/-! ## Outcomes -/

/-- The events reported, in order, and the result. -/
structure Outcome (α : Type) where
  events : List Event
  result : Except CompileError α

namespace Outcome

variable {α β : Type}

/-- A value without events. -/
def value (a : α) : Outcome α := ⟨[], .ok a⟩

/-- An error without events. -/
def fail (e : CompileError) : Outcome α := ⟨[], .error e⟩

/-- One event. -/
def report (e : Event) : Outcome Unit := ⟨[e], .ok ()⟩

/-- A result without events. -/
def ofExcept (r : Except CompileError α) : Outcome α := ⟨[], r⟩

/-- One step and then another that depends on its value. -/
def andThen (x : Outcome α) (f : α → Outcome β) : Outcome β :=
  match x.result with
  | .ok a => ⟨x.events ++ (f a).events, (f a).result⟩
  | .error e => ⟨x.events, .error e⟩

instance : Monad Outcome where
  pure := value
  bind := andThen

/-- A fault of the pattern. -/
def refuse (e : PatternError) : Outcome α := fail (.pattern e)

/-- A tree of a wrong shape. -/
def misshapen (e : ShapeError) : Outcome α := fail (.shape e)

@[simp] theorem pure_eq_value (a : α) : (pure a : Outcome α) = value a := rfl

@[simp] theorem bind_eq_andThen (x : Outcome α) (f : α → Outcome β) : x >>= f = x.andThen f := rfl

@[simp] theorem value_andThen (a : α) (f : α → Outcome β) : (value a).andThen f = f a := by
  simp [value, andThen]

@[simp] theorem fail_andThen (e : CompileError) (f : α → Outcome β) :
    (fail e : Outcome α).andThen f = fail e := rfl

theorem result_bind (x : Outcome α) (f : α → Outcome β) :
    (x >>= f).result = x.result.bind fun a => (f a).result := by
  rcases x with ⟨_, _ | _⟩ <;> rfl

theorem events_bind (x : Outcome α) (f : α → Outcome β) :
    (x >>= f).events =
      x.events ++ match x.result with
        | .ok a => (f a).events
        | .error _ => [] := by
  rcases x with ⟨_, _ | _⟩ <;> simp [andThen]

/-! ## Steps that give a value -/

section

variable {o : Outcome α} {f : α → Outcome β}

theorem result_andThen_of_ok {a : α} (h : o.result = .ok a) :
    (o.andThen f).result = (f a).result := by
  rw [andThen, h]

/-- Where two steps give a value, the first of them does. -/
theorem exists_of_andThen {b : β} (h : (o.andThen f).result = .ok b) :
    ∃ a, o.result = .ok a ∧ (f a).result = .ok b := by
  rcases o with ⟨es, e | a⟩
  · cases h
  · exact ⟨a, rfl, h⟩

end

end Outcome

/-- A result without its error, as it is evaluated for a given input. -/
theorem eq_ok_of_toOption {α ε : Type} {r : Except ε α} {a : α} (h : r.toOption = some a) :
    r = .ok a := by
  cases r with
  | error e => cases h
  | ok b => exact congrArg Except.ok (Option.some.inj h)

end TreeMatcher
