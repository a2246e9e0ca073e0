import TreeMatcher.Grammar.Basic
import TreeMatcher.Json.Reader

/-!
# Grammars as JSON

A definition is a JSON object with the fields `name`, `tokens`, `operators` and `symbols`. The name
is a string and not empty, the symbols are an array of strings, the tokens an object of numbers and
the operators an object of strings; the operators may also be missing or `null`. All keys of an
object are checked, and the reserved key `__proto__` is then left out.

* `Definition.ofJson` — the definition that a value denotes, or the first fault in its form.
* `Grammar.load` — the grammar in the text of a file.

## Main results

* `checkEntries_eq_ok_iff` — the entries of a table pass when each value is of the right type.
-/

namespace TreeMatcher

namespace Definition

/-- The key that no table of a definition keeps. -/
def reservedKey : Text := "__proto__"

/-- The entries of a table with their values converted, or the key of the first that is not of the
right type. -/
def checkEntries {α : Type} (convert? : Json → Option α) :
    List (Text × Json) → Except Text (List (Text × α))
  | [] => .ok []
  | (k, j) :: rest =>
    match convert? j with
    | some v => (checkEntries convert? rest).map ((k, v) :: ·)
    | none => .error k

/-- An object whose values are all of one type, as a table. -/
def tableOfJson {α : Type} (convert? : Json → Option α) (field : Text) :
    Json → Except GrammarError (Table α)
  | .object entries =>
    match checkEntries convert? (Table.ofList entries).entries with
    | .ok es => .ok (Table.ofList (es.filter fun e => e.1 != reservedKey))
    | .error k => .error (.wrongEntryType field k)
  | _ => .error (.fieldNotAnObject field)

/-- The strings of an array of strings. -/
def stringsOfJson? : Json → Option (List Text)
  | .array xs => xs.mapM Json.text?
  | _ => none

/-- A field in which nothing is an empty object. -/
def orEmpty : Option Json → Json
  | none => .object []
  | some .null => .object []
  | some j => j

/-- A field, `null` if it is missing. -/
def orNull (j? : Option Json) : Json := j?.getD .null

/-- The definition that a value denotes, or the first fault in its form. -/
def ofJson (j : Json) : Except GrammarError Definition :=
  match j with
  | .object _ =>
    match j.field? "name" with
    | some (.string (c :: cs)) =>
      match stringsOfJson? (orNull (j.field? "symbols")) with
      | some symbols => do
        let tokens ← tableOfJson Json.number? "tokens" (orNull (j.field? "tokens"))
        let operators ← tableOfJson Json.text? "operators" (orEmpty (j.field? "operators"))
        pure { name := c :: cs, tokens := tokens, operators := operators, symbols := symbols }
      | none => .error .invalidSymbols
    | _ => .error .invalidName
  | _ => .error .notAnObject

theorem checkEntries_eq_ok_iff {α : Type} {convert? : Json → Option α} {es : List (Text × Json)}
    {vs : List (Text × α)} :
    checkEntries convert? es = .ok vs ↔
      es.map (fun e => (e.1, convert? e.2)) = vs.map (fun v => (v.1, some v.2)) := by
  induction es generalizing vs with
  | nil => cases vs <;> simp [checkEntries]
  | cons e es ih =>
    obtain ⟨k, j⟩ := e
    cases hj : convert? j with
    | none => cases vs <;> simp [checkEntries, hj]
    | some v =>
      cases hr : checkEntries convert? es with
      | error k' =>
        have hne : ∀ ws : List (Text × α), es.map (fun e => (e.1, convert? e.2)) ≠
            ws.map (fun v => (v.1, some v.2)) := by
          intro ws hws
          rw [ih.2 hws] at hr
          cases hr
        cases vs with
        | nil => simp [checkEntries, hj, hr, Except.map]
        | cons w ws =>
          simp only [checkEntries, hj, hr, Except.map, reduceCtorEq, List.map_cons,
            List.cons.injEq, false_iff, not_and]
          exact fun _ => hne ws
      | ok ws' =>
        have hws := ih.1 hr
        cases vs with
        | nil => simp [checkEntries, hj, hr, Except.map]
        | cons w ws =>
          have hih := @ih ws
          rw [hr] at hih
          simp only [checkEntries, hj, hr, Except.map, Except.ok.injEq, List.map_cons,
            List.cons.injEq] at hih ⊢
          rw [hih]
          constructor
          · rintro ⟨rfl, h⟩
            exact ⟨rfl, h⟩
          · rintro ⟨h, h'⟩
            refine ⟨?_, h'⟩
            simp only [Prod.mk.injEq, Option.some.injEq] at h
            exact Prod.ext h.1 h.2

end Definition

/-- Why a file holds no grammar. -/
inductive LoadError where
  /-- The text is not JSON. -/
  | notJson
  /-- The definition has a fault. -/
  | invalid (error : GrammarError)
deriving DecidableEq, Repr

/-- The grammar in the text of a file. -/
def Grammar.load (t : Text) : Except LoadError Grammar :=
  match Json.ofText? t with
  | none => .error .notJson
  | some j =>
    match Definition.ofJson j with
    | .error e => .error (.invalid e)
    | .ok d =>
      match define d with
      | .error e => .error (.invalid e)
      | .ok g => .ok g

end TreeMatcher
