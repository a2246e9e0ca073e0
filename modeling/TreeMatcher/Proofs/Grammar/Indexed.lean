import Mathlib.Data.Set.List
import TreeMatcher.Grammar.Expression
import TreeMatcher.Proofs.Grammar.Declared

/-!
# Definitions without fault and their grammars

A definition passes its checks when nothing is wrong with it as a whole, in whatever order its
entries are checked.

The grammar of a definition answers by its lists. As no key, kind or symbol is there twice, a lookup
in either direction finds what the definition says, and nothing else.

* `Definition.Valid d` — nothing is wrong with a definition.
* `Grammar.Indexes g d` — the lookups of a grammar answer what a definition says.

## Main results

* `valid_of_define`, `exists_define_of_valid` — a definition has a grammar exactly when it is valid.
* `indexes_of_define` — the grammar of a definition indexes it.
* `define_valid_indexes` — both, for every definition.
-/

namespace TreeMatcher

open Grammar

/-! ## Lookups in lists -/

section Lookups

variable {α β : Type} [BEq α] [LawfulBEq α]

/-- Among entries without a repeated key, a key has the value it stands with. -/
private theorem lookup_eq_some_iff_mem {es : List (α × β)} (h : (es.map Prod.fst).Nodup) {a : α}
    {b : β} :
    es.lookup a = some b ↔ (a, b) ∈ es := by
  induction es with
  | nil => simp
  | cons e es ih =>
    obtain ⟨a', b'⟩ := e
    rw [List.map_cons, List.nodup_cons] at h
    rw [List.lookup_cons]
    by_cases ha : a = a'
    · subst ha
      have hnot : ∀ c, (a, c) ∉ es := by
        intro c hmem
        exact h.1 (List.mem_map.2 ⟨(a, c), hmem, rfl⟩)
      simp [hnot, eq_comm]
    · simp [beq_eq_false_iff_ne.2 ha, ih h.2, ha]

/-- A key has a value exactly when it stands among the keys. -/
private theorem isSome_lookup_iff {es : List (α × β)} {a : α} :
    (es.lookup a).isSome ↔ a ∈ es.map Prod.fst := by
  induction es with
  | nil => simp
  | cons e es ih =>
    obtain ⟨a', b'⟩ := e
    rw [List.lookup_cons]
    by_cases ha : a = a'
    · simp [ha]
    · simp [beq_eq_false_iff_ne.2 ha, ih, ha]

/-- Among entries without a repeated value, a value leads back to the key it stands with. -/
private theorem find?_eq_some_iff_mem {α β : Type} [BEq β] [LawfulBEq β] {es : List (α × β)}
    (h : (es.map Prod.snd).Nodup) {a : α} {b : β} :
    (es.find? fun e => e.2 == b).map Prod.fst = some a ↔ (a, b) ∈ es := by
  induction es with
  | nil => simp
  | cons e es ih =>
    obtain ⟨a', b'⟩ := e
    rw [List.map_cons, List.nodup_cons] at h
    rw [List.find?_cons]
    by_cases hb : b' = b
    · subst hb
      have hnot : ∀ c, (c, b') ∉ es := by
        intro c hmem
        exact h.1 (List.mem_map.2 ⟨(c, b'), hmem, rfl⟩)
      simp [hnot, eq_comm]
    · simp [beq_eq_false_iff_ne.2 hb, ih h.2, Ne.symm hb]

end Lookups

/-- No key of a table is there twice. -/
private theorem Table.nodup_keys {α : Type} (t : Table α) : t.keys.Nodup :=
  t.ordered.imp And.left

/-! ## Definitions without fault -/

/-- Nothing is wrong with a definition: the token kinds are integers from `0` to `255` and distinct,
every operator names a token, no symbol is there twice, and the indispensable tokens are there. -/
structure Definition.Valid (d : Definition) : Prop where
  kinds : ∀ t n, (t, n) ∈ d.tokens.entries → ∃ k : Int, n = .int k ∧ 0 ≤ k ∧ k < 256
  distinct : (d.tokens.entries.map Prod.snd).Nodup
  operators : ∀ o t, (o, t) ∈ d.operators.entries → t ∈ d.tokens.keys
  symbols : d.symbols.Nodup
  name : ("NAME" : Text) ∈ d.tokens.keys
  string : ("STRING" : Text) ∈ d.tokens.keys
  number : ("NUMBER" : Text) ∈ d.tokens.keys

/-- The lookups of a grammar answer what a definition says. -/
structure Grammar.Indexes (g : Grammar) (d : Definition) : Prop where
  name : g.name = d.name
  /-- The number of a declared symbol leads back to it. -/
  symbolName_symbolKind : ∀ s ∈ d.symbols, ∃ k, g.symbolKind? s = some k ∧
    g.symbolName? (.int k) = some s
  /-- The name of a symbol leads back to its number. -/
  symbolKind_symbolName : ∀ n s, g.symbolName? n = some s → ∃ k, n = .int k ∧
    g.symbolKind? s = some k
  symbolKind_isSome : ∀ s, (g.symbolKind? s).isSome ↔ s ∈ d.symbols
  symbolName_isSome : ∀ n, (g.symbolName? n).isSome ↔
    ∃ k : Int, n = .int k ∧ 256 ≤ k ∧ k < 256 + d.symbols.length
  /-- A number has the name of the token kind that is declared with it, and no other name. -/
  tokenName : ∀ n t, g.tokenName? n = some t ↔ (t, n) ∈ d.tokens.entries
  /-- An operator has the number of the token that it names. -/
  operatorKind : ∀ o k, g.operatorKind? o = some k ↔
    ∃ t, (o, t) ∈ d.operators.entries ∧ (t, .int k) ∈ d.tokens.entries
  operatorKind_isSome : ∀ o, (g.operatorKind? o).isSome ↔ o ∈ d.operators.keys
  /-- No number stands for a token kind and a symbol. -/
  disjoint : ∀ n, ¬((g.tokenName? n).isSome ∧ (g.symbolName? n).isSome)
  nameKind : (("NAME" : Text), .int g.nameKind) ∈ d.tokens.entries
  stringKind : (("STRING" : Text), .int g.stringKind) ∈ d.tokens.entries
  numberKind : (("NUMBER" : Text), .int g.numberKind) ∈ d.tokens.entries

namespace Grammar

/-! ## The grammar of a definition -/

private theorem map_snd_map_int (ts : List (Text × Int)) :
    (ts.map fun t => (t.1, Number.int t.2)).map Prod.snd = (ts.map Prod.snd).map .int := by
  rw [List.map_map, List.map_map]
  rfl

section Define

variable {d : Definition} {g : Grammar}

/-- The token kinds of a definition are those of its grammar. -/
private theorem entries_tokens_of_define (h : define d = .ok g) :
    d.tokens.entries = g.tokens.map fun t => (t.1, .int t.2) := by
  obtain ⟨-, htokens, -⟩ := define_eq_ok_iff.1 h
  exact (checkTokens_nil_eq_ok_iff.1 htokens).1

private theorem mem_tokens_of_define (h : define d = .ok g) {t : Text} {k : Int} :
    (t, .int k) ∈ d.tokens.entries ↔ (t, k) ∈ g.tokens := by
  rw [entries_tokens_of_define h]
  simp

/-- The keys of the token kinds are those of the definition. -/
private theorem keys_tokens_of_define (h : define d = .ok g) :
    g.tokens.map Prod.fst = d.tokens.keys := by
  rw [Table.keys, entries_tokens_of_define h, List.map_map]
  rfl

private theorem kinds_of_define (h : define d = .ok g) :
    (∀ t ∈ g.tokens, 0 ≤ t.2 ∧ t.2 < 256) ∧ (g.tokens.map Prod.snd).Nodup := by
  obtain ⟨-, htokens, -⟩ := define_eq_ok_iff.1 h
  exact (checkTokens_nil_eq_ok_iff.1 htokens).2

/-- The token of a name in a grammar is the one that the definition has. -/
private theorem lookup_tokens_of_define (h : define d = .ok g) {t : Text} {k : Int} :
    g.tokens.lookup t = some k ↔ (t, .int k) ∈ d.tokens.entries := by
  have hkeys : (g.tokens.map Prod.fst).Nodup := by
    rw [keys_tokens_of_define h]
    exact d.tokens.nodup_keys
  rw [lookup_eq_some_iff_mem hkeys, mem_tokens_of_define h]

/-- Each operator of a grammar stands for an operator of the definition. -/
private theorem operators_of_define (h : define d = .ok g) :
    d.operators.entries.map (fun e => (e.1, g.tokens.lookup e.2)) =
      g.operators.map (fun o => (o.1, some o.2)) := by
  obtain ⟨-, -, hoperators, -⟩ := define_eq_ok_iff.1 h
  exact checkOperators_eq_ok_iff.1 hoperators

private theorem keys_operators_of_define (h : define d = .ok g) :
    g.operators.map Prod.fst = d.operators.keys := by
  have hmap := congrArg (List.map Prod.fst) (operators_of_define h)
  rw [List.map_map, List.map_map] at hmap
  exact hmap.symm

private theorem mem_operators_of_define (h : define d = .ok g) {o : Text} {k : Int} :
    (o, k) ∈ g.operators ↔
      ∃ t, (o, t) ∈ d.operators.entries ∧ (t, .int k) ∈ d.tokens.entries := by
  have hmem : (o, k) ∈ g.operators ↔
      (o, some k) ∈ g.operators.map fun o => (o.1, some o.2) := by simp
  rw [hmem, ← operators_of_define h]
  simp [lookup_tokens_of_define h]

/-- A definition that has a grammar is valid. -/
theorem valid_of_define (h : define d = .ok g) : d.Valid := by
  have hdeclares := declares_of_define h
  have hkey : ∀ {t k}, (t, k) ∈ g.tokens → t ∈ d.tokens.keys := by
    intro t k hmem
    rw [← keys_tokens_of_define h]
    exact List.mem_map_of_mem hmem
  refine ⟨?kinds, ?distinct, ?operators, ?symbols, hkey hdeclares.name, hkey hdeclares.string,
    hkey hdeclares.number⟩
  case kinds =>
    intro t n hmem
    rw [entries_tokens_of_define h] at hmem
    obtain ⟨u, hu, heq⟩ := List.mem_map.1 hmem
    cases heq
    exact ⟨u.2, rfl, (kinds_of_define h).1 u hu⟩
  case distinct =>
    rw [entries_tokens_of_define h, map_snd_map_int]
    exact (kinds_of_define h).2.map fun a b hab => Number.int.inj hab
  case operators =>
    intro o t hmem
    have hentry : (o, g.tokens.lookup t) ∈ g.operators.map fun o => (o.1, some o.2) := by
      rw [← operators_of_define h]
      exact List.mem_map_of_mem (f := fun e => (e.1, g.tokens.lookup e.2)) hmem
    obtain ⟨p, -, hp⟩ := List.mem_map.1 hentry
    have hlookup : g.tokens.lookup t = some p.2 := (congrArg Prod.snd hp).symm
    exact hkey ((mem_tokens_of_define h).1 ((lookup_tokens_of_define h).1 hlookup))
  case symbols =>
    rw [← hdeclares.symbols]
    exact nodup_symbols h

/-- A definition that is valid has a grammar. -/
theorem exists_define_of_valid (h : d.Valid) : ∃ g, define d = .ok g := by
  have hkinds : d.tokens.entries ∈ Set.range (List.map fun t : Text × Int => (t.1, .int t.2)) := by
    rw [Set.range_list_map]
    intro e he
    obtain ⟨k, hk, -⟩ := h.kinds e.1 e.2 he
    exact ⟨(e.1, k), Prod.ext rfl hk.symm⟩
  obtain ⟨tokens, htokens⟩ := hkinds
  have hlookup : ∀ t ∈ d.tokens.keys, ∃ k, tokens.lookup t = some k := by
    intro t ht
    rw [← Option.isSome_iff_exists, isSome_lookup_iff]
    rw [Table.keys, ← htokens, List.map_map] at ht
    exact ht
  have hoperators : d.operators.entries.map (fun e => (e.1, tokens.lookup e.2)) ∈
      Set.range (List.map fun o : Text × Int => (o.1, some o.2)) := by
    rw [Set.range_list_map]
    intro e he
    obtain ⟨o, ho, rfl⟩ := List.mem_map.1 he
    obtain ⟨k, hk⟩ := hlookup o.2 (h.operators o.1 o.2 ho)
    exact ⟨(o.1, k), by rw [hk]⟩
  obtain ⟨operators, hoperators⟩ := hoperators
  obtain ⟨nameKind, hname⟩ := hlookup _ h.name
  obtain ⟨stringKind, hstring⟩ := hlookup _ h.string
  obtain ⟨numberKind, hnumber⟩ := hlookup _ h.number
  have hrange : ∀ t ∈ tokens, 0 ≤ t.2 ∧ t.2 < 256 := by
    intro t ht
    have hmem : (t.1, .int t.2) ∈ d.tokens.entries := by
      rw [← htokens]
      exact List.mem_map_of_mem (f := fun t : Text × Int => (t.1, Number.int t.2)) ht
    obtain ⟨k, hk, hrange⟩ := h.kinds _ _ hmem
    cases hk
    exact hrange
  have hdistinct : (tokens.map Prod.snd).Nodup := by
    have hentries := h.distinct
    rw [← htokens, map_snd_map_int] at hentries
    exact hentries.of_map
  refine ⟨⟨d.name, tokens, operators, d.symbols, nameKind, stringKind, numberKind⟩, ?_⟩
  rw [define_eq_ok_iff]
  refine ⟨rfl, ?_, ?_, ?_, hname, hstring, hnumber⟩
  · exact checkTokens_nil_eq_ok_iff.2 ⟨htokens.symm, hrange, hdistinct⟩
  · exact checkOperators_eq_ok_iff.2 hoperators.symm
  · exact (checkSymbols_eq_ok_iff List.nodup_nil).2 ⟨rfl, h.symbols⟩

/-- The numbers of token names are those the definition declares. -/
private theorem tokenName?_eq_some_iff (h : define d = .ok g) {n : Number} {t : Text} :
    g.tokenName? n = some t ↔ (t, n) ∈ d.tokens.entries := by
  cases n with
  | int k =>
    rw [mem_tokens_of_define h]
    exact find?_eq_some_iff_mem (kinds_of_define h).2
  | _ =>
    rw [entries_tokens_of_define h]
    simp [tokenName?]

/-- The numbers of symbols follow on the first one, as many as there are symbols. -/
private theorem isSome_symbolName?_iff {n : Number} : (g.symbolName? n).isSome ↔
    ∃ k : Int, n = .int k ∧ 256 ≤ k ∧ k < 256 + g.symbols.length := by
  cases n with
  | int k =>
    rw [symbolName?]
    by_cases hk : (firstSymbol : Int) ≤ k
    · rw [if_pos hk, isSome_getElem?]
      have hle : (256 : Int) ≤ k := hk
      show (k - 256).toNat < g.symbols.length ↔ _
      constructor
      · intro hlt
        exact ⟨k, rfl, hle, by omega⟩
      · rintro ⟨k', hk', -, hlt⟩
        cases hk'
        omega
    · rw [if_neg hk]
      have hlt : ¬(256 : Int) ≤ k := hk
      simp only [Option.isSome_none, Bool.false_eq_true, false_iff]
      rintro ⟨k', hk', hle, -⟩
      cases hk'
      exact hlt hle
  | _ => simp [symbolName?]

private theorem isSome_symbolKind?_iff {s : Text} : (g.symbolKind? s).isSome ↔ s ∈ g.symbols := by
  rw [symbolKind?, Option.isSome_map, List.isSome_idxOf?]

/-- The grammar of a definition answers what the definition says. -/
theorem indexes_of_define (h : define d = .ok g) : g.Indexes d := by
  have hsymbols := (declares_of_define h).symbols
  exact {
    name := (define_eq_ok_iff.1 h).1
    symbolName_symbolKind := by
      intro s hs
      rw [← hsymbols, ← isSome_symbolKind?_iff, Option.isSome_iff_exists] at hs
      obtain ⟨k, hk⟩ := hs
      exact ⟨k, hk, symbolName?_of_symbolKind? hk⟩
    symbolKind_symbolName := by
      intro n s hs
      exact symbolKind?_of_symbolName? (nodup_symbols h) hs
    symbolKind_isSome := by
      intro s
      rw [← hsymbols]
      exact isSome_symbolKind?_iff
    symbolName_isSome := by
      intro n
      rw [← hsymbols]
      exact isSome_symbolName?_iff
    tokenName := fun n t => tokenName?_eq_some_iff h
    operatorKind := by
      intro o k
      have hkeys : (g.operators.map Prod.fst).Nodup := by
        rw [keys_operators_of_define h]
        exact d.operators.nodup_keys
      rw [← mem_operators_of_define h]
      exact lookup_eq_some_iff_mem hkeys
    operatorKind_isSome := by
      intro o
      rw [← keys_operators_of_define h]
      exact isSome_lookup_iff
    disjoint := by
      intro n ⟨htoken, hsymbol⟩
      obtain ⟨t, ht⟩ := Option.isSome_iff_exists.1 htoken
      obtain ⟨k, rfl, -, hlt⟩ := (valid_of_define h).kinds t n ((tokenName?_eq_some_iff h).1 ht)
      obtain ⟨k', hk', hle, -⟩ := isSome_symbolName?_iff.1 hsymbol
      cases hk'
      omega
    nameKind := (declares_of_define h).tokens _ _ (declares_of_define h).name
    stringKind := (declares_of_define h).tokens _ _ (declares_of_define h).string
    numberKind := (declares_of_define h).tokens _ _ (declares_of_define h).number }

end Define

/-- A definition has a grammar exactly when it is valid, and the lookups of the grammar answer what
the definition says: names and numbers lead to each other and to nothing else. -/
theorem define_valid_indexes (d : Definition) :
    ((∃ g, define d = .ok g) ↔ d.Valid) ∧ ∀ g, define d = .ok g → g.Indexes d := by
  constructor
  · constructor
    · rintro ⟨g, h⟩
      exact valid_of_define h
    · exact exists_define_of_valid
  · intro g h
    exact indexes_of_define h

theorem define_valid_indexes_expressionDefinition :
    (∃ g, define expressionDefinition = .ok g) ∧ expressionDefinition.Valid ∧
      expression.Indexes expressionDefinition :=
  ⟨⟨expression, define_expressionDefinition⟩,
    (define_valid_indexes expressionDefinition).1.1 ⟨expression, define_expressionDefinition⟩,
    (define_valid_indexes expressionDefinition).2 expression define_expressionDefinition⟩

end Grammar

end TreeMatcher
