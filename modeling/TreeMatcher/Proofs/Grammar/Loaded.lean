import Mathlib.Data.Set.List
import TreeMatcher.Grammar.Load

/-!
# What a file says and what is loaded from it

A value in the form of a definition writes one: its entries are the entries of tables, in their
order, and its strings are the symbols. Loaded is that definition, but for one key. A table that is
built entry by entry does not take the reserved key `__proto__`, so a token or an operator of this
name is lost, and lost with it is any fault that it has.

* `Json.HasForm j` — a value has the form of a definition.
* `Definition.WrittenAs d j` — a value writes a definition, with all of its entries.
* `Definition.withoutReserved d` — a definition without its entries under the reserved key.

## Main results

* `exists_writtenAs` — what has the form of a definition writes one.
* `ofJson_of_writtenAs` — it is read without the entries under the reserved key.
* `load_written` — what is loaded from a text, and when nothing is lost.
-/

namespace TreeMatcher

/-! ## Tables without a key -/

private theorem OrderedKeys.sublist {as bs : List Text} (h : OrderedKeys bs) (hs : as.Sublist bs) :
    OrderedKeys as :=
  List.Pairwise.sublist hs h

namespace Table

variable {α β : Type}

/-- A table without what is under a key. -/
def without (k : Text) (t : Table α) : Table α where
  entries := t.entries.filter fun e => e.1 != k
  ordered := t.ordered.sublist (List.filter_sublist.map Prod.fst)

/-- Nothing is lost exactly if nothing was under the key. -/
private theorem without_eq_self_iff {k : Text} {t : Table α} : t.without k = t ↔ k ∉ t.keys := by
  obtain ⟨es, hes⟩ := t
  have hne : (⟨es, hes⟩ : Table α).without k = ⟨es, hes⟩ ↔ ∀ e ∈ es, e.1 ≠ k := by
    rw [without, mk.injEq, List.filter_eq_self]
    simp
  rw [hne, keys, List.mem_map, not_exists]
  constructor
  · intro h e he
    exact h e he.1 he.2
  · intro h e he heq
    exact h e ⟨he, heq⟩

/-- A table whose values all come from some other values is a table of those. -/
private theorem exists_map {t : Table β} {c : α → β} (h : ∀ e ∈ t.entries, ∃ v, e.2 = c v) :
    ∃ u : Table α, t.entries = u.entries.map fun e => (e.1, c e.2) := by
  have hrange : t.entries ∈ Set.range (List.map fun e : Text × α => (e.1, c e.2)) := by
    rw [Set.range_list_map]
    intro e he
    obtain ⟨v, hv⟩ := h e he
    exact ⟨(e.1, v), Prod.ext rfl hv.symm⟩
  obtain ⟨us, hus⟩ := hrange
  have hkeys : us.map Prod.fst = t.entries.map Prod.fst := by
    rw [← hus, List.map_map]
    rfl
  exact ⟨⟨us, hkeys ▸ t.ordered⟩, hus.symm⟩

end Table

/-! ## Values that write definitions -/

/-- The values of an object, as they count: the last one under each key. -/
def Json.HasValues (p : Json → Prop) (entries : List (Text × Json)) : Prop :=
  ∀ e ∈ (Table.ofList entries).entries, p e.2

/-- A value has the form of a definition: an object with a name that is not empty, an object of
numbers for the tokens, an object of strings or nothing for the operators, and an array of strings
for the symbols. -/
structure Json.HasForm (j : Json) : Prop where
  name : ∃ t, t ≠ [] ∧ j.field? "name" = some (.string t)
  tokens : ∃ es, j.field? "tokens" = some (.object es) ∧
    Json.HasValues (fun x => ∃ n, x = .number n) es
  operators : j.field? "operators" = none ∨ j.field? "operators" = some .null ∨
    ∃ es, j.field? "operators" = some (.object es) ∧ Json.HasValues (fun x => ∃ t, x = .string t) es
  symbols : ∃ xs, j.field? "symbols" = some (.array xs) ∧ ∀ x ∈ xs, ∃ s, x = .string s

namespace Definition

/-- A value writes a table: it is an object with the entries of the table, in their order. -/
def WritesTable {α : Type} (c : α → Json) (t : Table α) (j : Json) : Prop :=
  ∃ es, j = .object es ∧ (Table.ofList es).entries = t.entries.map fun e => (e.1, c e.2)

/-- A value writes a definition, with all of its entries. -/
structure WrittenAs (d : Definition) (j : Json) : Prop where
  name : j.field? "name" = some (.string d.name)
  tokens : ∃ x, j.field? "tokens" = some x ∧ WritesTable .number d.tokens x
  operators : WritesTable .string d.operators (orEmpty (j.field? "operators"))
  symbols : j.field? "symbols" = some (.array (d.symbols.map .string))

/-- A table has the keys of the object that writes it. -/
private theorem WritesTable.keys_eq {α : Type} {c : α → Json} {t : Table α}
    {es : List (Text × Json)}
    (h : WritesTable c t (.object es)) : t.keys = (Table.ofList es).keys := by
  obtain ⟨es', hes, hentries⟩ := h
  cases hes
  rw [Table.keys, Table.keys, hentries, List.map_map]
  rfl

/-- A definition without its entries under the reserved key. -/
def withoutReserved (d : Definition) : Definition :=
  { d with
    tokens := d.tokens.without reservedKey
    operators := d.operators.without reservedKey }

private theorem withoutReserved_eq_self_iff {d : Definition} :
    d.withoutReserved = d ↔ reservedKey ∉ d.tokens.keys ∧ reservedKey ∉ d.operators.keys := by
  obtain ⟨name, tokens, operators, symbols⟩ := d
  rw [← Table.without_eq_self_iff, ← Table.without_eq_self_iff]
  simp [withoutReserved]

/-- An object whose values all have a form writes a table. -/
private theorem exists_writesTable {α : Type} {c : α → Json} {es : List (Text × Json)}
    (h : Json.HasValues (fun x => ∃ v, x = c v) es) : ∃ t, WritesTable c t (.object es) := by
  obtain ⟨t, ht⟩ := Table.exists_map h
  exact ⟨t, es, rfl, ht⟩

/-- A value that has the form of a definition writes one. -/
theorem exists_writtenAs {j : Json} (h : j.HasForm) : ∃ d : Definition, d.WrittenAs j ∧
    d.name ≠ [] := by
  obtain ⟨name, hne, hname⟩ := h.name
  obtain ⟨es, htokens, hvalues⟩ := h.tokens
  obtain ⟨tokens, ht⟩ := exists_writesTable hvalues
  have hoperators : ∃ u, WritesTable .string u (orEmpty (j.field? "operators")) := by
    rcases h.operators with hnone | hnull | ⟨es, hsome, hvalues⟩
    · rw [hnone]
      exact ⟨.empty, [], rfl, rfl⟩
    · rw [hnull]
      exact ⟨.empty, [], rfl, rfl⟩
    · rw [hsome]
      exact exists_writesTable hvalues
  obtain ⟨operators, ho⟩ := hoperators
  obtain ⟨xs, hxs, hstrings⟩ := h.symbols
  have hrange : xs ∈ Set.range (List.map Json.string) := by
    rw [Set.range_list_map]
    intro x hx
    obtain ⟨s, hs⟩ := hstrings x hx
    exact ⟨s, hs.symm⟩
  obtain ⟨symbols, rfl⟩ := hrange
  exact ⟨⟨name, tokens, operators, symbols⟩, ⟨hname, ⟨_, htokens, ht⟩, ho, hxs⟩, hne⟩

/-! ## Reading them -/

/-- An object is read as the table that it writes, without what is under the reserved key. -/
private theorem tableOfJson_of_writesTable {α : Type} {c : α → Json} {convert? : Json → Option α}
    (hc : ∀ v, convert? (c v) = some v) {field : Text} {t : Table α} {j : Json}
    (h : WritesTable c t j) : tableOfJson convert? field j = .ok (t.without reservedKey) := by
  obtain ⟨es, rfl, hes⟩ := h
  have hcheck : checkEntries convert? (Table.ofList es).entries = .ok t.entries := by
    rw [checkEntries_eq_ok_iff, hes, List.map_map]
    simp [hc]
  rw [tableOfJson, hcheck]
  exact congrArg Except.ok (Table.ofList_entries (t.without reservedKey))

private theorem stringsOfJson?_map_string (ss : List Text) :
    stringsOfJson? (.array (ss.map .string)) = some ss := by
  induction ss with
  | nil => rfl
  | cons s ss ih =>
    rw [stringsOfJson?] at ih ⊢
    rw [List.map_cons, List.mapM_cons, ih]
    rfl

/-- A value is read as the definition that it writes, without what is under the reserved key. -/
theorem ofJson_of_writtenAs {d : Definition} {j : Json} (h : d.WrittenAs j) (hne : d.name ≠ []) :
    ofJson j = .ok d.withoutReserved := by
  obtain ⟨name, tokens, operators, symbols⟩ := d
  obtain ⟨c, cs, rfl⟩ := List.exists_cons_of_ne_nil hne
  obtain ⟨x, hx, ht⟩ := h.tokens
  have hnumber : ∀ n, Json.number? (.number n) = some n := fun _ => rfl
  have hstring : ∀ t, Json.text? (.string t) = some t := fun _ => rfl
  have htokens : tableOfJson Json.number? "tokens" (orNull (j.field? "tokens")) =
      .ok (tokens.without reservedKey) := by
    rw [hx]
    exact tableOfJson_of_writesTable hnumber ht
  have hoperators : tableOfJson Json.text? "operators" (orEmpty (j.field? "operators")) =
      .ok (operators.without reservedKey) :=
    tableOfJson_of_writesTable hstring h.operators
  have hsymbols : stringsOfJson? (orNull (j.field? "symbols")) = some symbols := by
    rw [h.symbols]
    exact stringsOfJson?_map_string symbols
  cases j with
  | object es =>
    rw [ofJson]
    simp only [h.name, hsymbols, htokens, hoperators]
    rfl
  | _ =>
    have hname := h.name
    cases hname

end Definition

/-- What is loaded from a text is the grammar of what its value is read as. -/
private theorem Grammar.load_eq_of_ofJson {t : Text} {j : Json} {d : Definition}
    (ht : Json.ofText? t = some j) (hj : Definition.ofJson j = .ok d) :
    Grammar.load t = (define d).mapError .invalid := by
  rw [load, ht]
  dsimp only
  rw [hj]
  dsimp only
  cases define d <;> rfl

/-- A text in the form of a definition writes one. What is read from it is that definition without
its entries under the reserved key, and what is loaded is the grammar of that, or the fault in it.
Nothing is lost exactly if no token and no operator has the reserved key for its name. -/
theorem load_written {t : Text} {j : Json} (ht : Json.ofText? t = some j) (hj : j.HasForm) :
    ∃ d : Definition, d.WrittenAs j ∧ Definition.ofJson j = .ok d.withoutReserved ∧
      Grammar.load t = (Grammar.define d.withoutReserved).mapError .invalid ∧
      (Definition.ofJson j = .ok d ↔ Definition.reservedKey ∉ d.tokens.keys ∧
        Definition.reservedKey ∉ d.operators.keys) := by
  obtain ⟨d, hd, hne⟩ := Definition.exists_writtenAs hj
  have hread := Definition.ofJson_of_writtenAs hd hne
  refine ⟨d, hd, hread, Grammar.load_eq_of_ofJson ht hread, ?_⟩
  rw [hread, Except.ok.injEq]
  exact Definition.withoutReserved_eq_self_iff

/-- A definition with one operator, which has the reserved key for its name. -/
def reservedOperatorText : Text :=
  "\x7b\"name\":\"g\",\"tokens\":\x7b\x7d,\"operators\":\x7b\"__proto__\":\"x\"\x7d,\"symbols\":[]\x7d"

/-- The value of that text. -/
def reservedOperatorJson : Json :=
  .object [("name", .string "g"), ("tokens", .object []),
    ("operators", .object [("__proto__", .string "x")]), ("symbols", .array [])]

private theorem ofText?_reservedOperatorText :
    Json.ofText? reservedOperatorText = some reservedOperatorJson := by
  cbv

private theorem hasForm_reservedOperatorJson : reservedOperatorJson.HasForm where
  name := ⟨"g", by decide, rfl⟩
  tokens := ⟨[], rfl, by simp [Json.HasValues, Table.ofList, Table.empty]⟩
  operators := .inr (.inr ⟨[("__proto__", .string "x")], rfl, by
    simp [Json.HasValues, Table.ofList, Table.empty, Table.insert, Table.insertEntry]⟩)
  symbols := ⟨[], rfl, by simp⟩

theorem load_written_reservedOperator :
    Json.ofText? reservedOperatorText = some reservedOperatorJson ∧ reservedOperatorJson.HasForm ∧
      ∃ d : Definition, d.WrittenAs reservedOperatorJson ∧
        Definition.ofJson reservedOperatorJson ≠ .ok d ∧
        Grammar.load reservedOperatorText =
          (Grammar.define d.withoutReserved).mapError .invalid := by
  obtain ⟨d, hd, -, hload, hlost⟩ :=
    load_written ofText?_reservedOperatorText hasForm_reservedOperatorJson
  have hkey : Definition.reservedKey ∈ d.operators.keys := by
    have hwrites : Definition.WritesTable Json.string d.operators
      (.object [("__proto__", .string "x")]) := hd.operators
    rw [hwrites.keys_eq]
    decide
  refine ⟨ofText?_reservedOperatorText, hasForm_reservedOperatorJson, d, hd, ?_, hload⟩
  intro hread
  exact (hlost.1 hread).2 hkey

end TreeMatcher
