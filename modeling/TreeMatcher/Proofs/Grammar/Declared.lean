import Mathlib.Data.List.Nodup
import TreeMatcher.Grammar.Basic

/-!
# What a grammar takes from its definition

A definition is checked entry by entry: a token kind against those in front of it, an operator
against all tokens, a symbol against those in front of it. What passes is described here without
the order of the checks. The checks keep what they check: the token kinds of a grammar are entries
of the definition, its operators have token kinds of it, and its symbols are those of the
definition, in the same order.

* `Declares d g` — what a grammar has from the definition it comes from.

## Main results

* `checkTokens_eq_ok_iff`, `checkOperators_eq_ok_iff`, `checkSymbols_eq_ok_iff`,
  `requireToken_eq_ok_iff` — what passes the checks.
* `define_eq_ok_iff` — the grammar of a definition holds what the checks let pass.
* `declares_of_define` — a definition without fault declares its grammar.
* `symbolKind?_of_symbolName?` — the name of a symbol leads back to its number.
-/

namespace TreeMatcher

/-- A step whose result is not an error comes behind one whose result is none either. -/
theorem eq_ok_of_bind {ε α β : Type} {x : Except ε α} {f : α → Except ε β} {b : β}
    (h : x >>= f = .ok b) : ∃ a, x = .ok a ∧ f a = .ok b := by
  cases x with
  | error e => cases h
  | ok a => exact ⟨a, rfl, h⟩

namespace Grammar

/-- What a grammar has from a definition. -/
structure Declares (d : Definition) (g : Grammar) : Prop where
  tokens : ∀ t k, (t, k) ∈ g.tokens → (t, .int k) ∈ d.tokens.entries
  operators : ∀ o k, (o, k) ∈ g.operators → ∃ t, (t, k) ∈ g.tokens
  symbols : g.symbols = d.symbols
  name : (("NAME" : Text), g.nameKind) ∈ g.tokens
  string : (("STRING" : Text), g.stringKind) ∈ g.tokens
  number : (("NUMBER" : Text), g.numberKind) ∈ g.tokens

theorem mem_of_lookup {α : Type} {es : List (Text × α)} {t : Text} {a : α}
    (h : es.lookup t = some a) : (t, a) ∈ es := by
  obtain ⟨before, behind, rfl, -⟩ := List.lookup_eq_some_iff.1 h
  exact List.mem_append_right _ List.mem_cons_self

/-! ## What the checks pass -/

private theorem tokenKind?_eq_some_iff {n : Number} {k : Int} :
    tokenKind? n = some k ↔ n = .int k ∧ 0 ≤ k ∧ k < 256 := by
  cases n with
  | int k' =>
    rw [tokenKind?]
    by_cases hk : 0 ≤ k' ∧ k' < firstSymbol
    · rw [if_pos hk]
      constructor
      · intro h
        cases h
        exact ⟨rfl, hk⟩
      · rintro ⟨h, -⟩
        cases h
        rfl
    · rw [if_neg hk]
      constructor
      · intro h
        cases h
      · rintro ⟨h, hk'⟩
        cases h
        exact absurd hk' hk
  | _ => simp [tokenKind?]

/-- No token has a kind that none is found for. -/
private theorem find?_kind_eq_none_iff {ts : List (Text × Int)} {k : Int} :
    (ts.find? fun t => t.2 == k) = none ↔ k ∉ ts.map Prod.snd := by
  rw [List.find?_eq_none, List.mem_map, not_exists]
  constructor
  · intro h t ht
    exact h t ht.1 (beq_iff_eq.2 ht.2)
  · intro h t ht heq
    exact h t ⟨ht, beq_iff_eq.1 heq⟩

/-- A token kind passes when it is one and no token in front has it. -/
private theorem checkTokens_cons_eq_ok_iff {grammar t : Text} {n : Number}
    {es : List (Text × Number)} {seen tokens : List (Text × Int)} :
    checkTokens grammar seen ((t, n) :: es) = .ok tokens ↔ ∃ k, tokenKind? n = some k ∧
      k ∉ seen.map Prod.snd ∧ checkTokens grammar (seen ++ [(t, k)]) es = .ok tokens := by
  rw [checkTokens]
  cases tokenKind? n with
  | none => simp
  | some k =>
    simp only [Option.some.injEq, exists_eq_left', ← find?_kind_eq_none_iff]
    cases seen.find? fun s => s.2 == k with
    | none => simp
    | some s => simp

private theorem nodup_concat_kind {ts : List (Text × Int)} {t : Text} {k : Int}
    (h : (ts.map Prod.snd).Nodup) (hk : k ∉ ts.map Prod.snd) :
    ((ts ++ [(t, k)]).map Prod.snd).Nodup := by
  rw [List.map_append, List.map_singleton, ← List.concat_eq_append]
  exact h.concat hk

/-- Behind token kinds that are distinct, some more pass when they are in range and all of them are
distinct. -/
theorem checkTokens_eq_ok_iff {grammar : Text} {es : List (Text × Number)}
    {seen tokens : List (Text × Int)} (hseen : (seen.map Prod.snd).Nodup) :
    checkTokens grammar seen es = .ok tokens ↔
      ∃ ts, tokens = seen ++ ts ∧ es = ts.map (fun t => (t.1, .int t.2)) ∧
        (∀ t ∈ ts, 0 ≤ t.2 ∧ t.2 < 256) ∧ (tokens.map Prod.snd).Nodup := by
  induction es generalizing seen with
  | nil =>
    rw [checkTokens, Except.ok.injEq]
    constructor
    · rintro rfl
      exact ⟨[], by simp, rfl, by simp, hseen⟩
    · rintro ⟨ts, rfl, hts, -⟩
      rw [List.map_eq_nil_iff.1 hts.symm, List.append_nil]
  | cons e es ih =>
    obtain ⟨t, n⟩ := e
    rw [checkTokens_cons_eq_ok_iff]
    constructor
    · rintro ⟨k, hk, hnew, hrest⟩
      obtain ⟨rfl, hrange⟩ := tokenKind?_eq_some_iff.1 hk
      obtain ⟨ts, rfl, rfl, hts, hnodup⟩ := (ih (nodup_concat_kind hseen hnew)).1 hrest
      exact ⟨(t, k) :: ts, by simp, rfl, List.forall_mem_cons.2 ⟨hrange, hts⟩, hnodup⟩
    · rintro ⟨ts, htokens, hts, hall, hnodup⟩
      obtain ⟨⟨t', k⟩, us, rfl, hu, hus⟩ := List.map_eq_cons_iff.1 hts.symm
      cases hu
      obtain ⟨hrange, hall⟩ := List.forall_mem_cons.1 hall
      have hnew : k ∉ seen.map Prod.snd := by
        intro hmem
        rw [htokens, List.map_append, List.nodup_append] at hnodup
        exact hnodup.2.2 k hmem k List.mem_cons_self rfl
      refine ⟨k, tokenKind?_eq_some_iff.2 ⟨rfl, hrange⟩, hnew, ?_⟩
      rw [ih (nodup_concat_kind hseen hnew)]
      exact ⟨us, by rw [htokens, List.append_cons], hus.symm, hall, hnodup⟩

/-- Token kinds pass when they are integers in range and distinct. -/
theorem checkTokens_nil_eq_ok_iff {grammar : Text} {es : List (Text × Number)}
    {tokens : List (Text × Int)} :
    checkTokens grammar [] es = .ok tokens ↔ es = tokens.map (fun t => (t.1, .int t.2)) ∧
      (∀ t ∈ tokens, 0 ≤ t.2 ∧ t.2 < 256) ∧ (tokens.map Prod.snd).Nodup := by
  have hseen : (([] : List (Text × Int)).map Prod.snd).Nodup := List.nodup_nil
  rw [checkTokens_eq_ok_iff hseen]
  simp

/-- A list with an entry put in front. -/
private theorem map_cons_eq_ok_iff {ε α : Type} {x : Except ε (List α)} {a : α} {bs : List α} :
    x.map (a :: ·) = .ok bs ↔ ∃ as, bs = a :: as ∧ x = .ok as := by
  cases x <;> simp [Except.map, eq_comm]

/-- Operators pass when each of them names a token, and get its number. -/
theorem checkOperators_eq_ok_iff {grammar : Text} {tokens : List (Text × Int)}
    {es : List (Text × Text)} {operators : List (Text × Int)} :
    checkOperators grammar tokens es = .ok operators ↔
      es.map (fun e => (e.1, tokens.lookup e.2)) = operators.map (fun o => (o.1, some o.2)) := by
  induction es generalizing operators with
  | nil => cases operators <;> simp [checkOperators]
  | cons e es ih =>
    obtain ⟨o, t⟩ := e
    rw [checkOperators]
    cases hk : tokens.lookup t with
    | none => cases operators <;> simp [hk]
    | some k =>
      dsimp only
      rw [map_cons_eq_ok_iff]
      constructor
      · rintro ⟨os, rfl, hos⟩
        rw [List.map_cons, List.map_cons, ih.1 hos, hk]
      · intro h
        obtain ⟨⟨o', k'⟩, os, rfl, ho, hos⟩ := List.map_eq_cons_iff.1 h.symm
        dsimp only at ho
        rw [hk] at ho
        cases ho
        exact ⟨os, rfl, ih.2 hos.symm⟩

/-- Behind symbols that are distinct, some more pass when all of them are distinct. -/
theorem checkSymbols_eq_ok_iff {grammar : Text} {ss seen symbols : List Text}
    (hseen : seen.Nodup) :
    checkSymbols grammar seen ss = .ok symbols ↔ symbols = seen ++ ss ∧ symbols.Nodup := by
  induction ss generalizing seen with
  | nil =>
    rw [checkSymbols, List.append_nil, Except.ok.injEq]
    constructor
    · intro h
      exact ⟨h.symm, h ▸ hseen⟩
    · intro h
      exact h.1.symm
  | cons s ss ih =>
    rw [checkSymbols]
    by_cases hs : s ∈ seen
    · rw [if_pos hs]
      simp only [reduceCtorEq, false_iff, not_and]
      intro hsymbols hnodup
      rw [hsymbols] at hnodup
      exact (List.nodup_append.1 hnodup).2.2 s hs s List.mem_cons_self rfl
    · have hnew : (seen ++ [s]).Nodup := by
        rw [← List.concat_eq_append]
        exact hseen.concat hs
      have hsplit : seen ++ s :: ss = seen ++ [s] ++ ss := List.append_cons seen s ss
      rw [if_neg hs, hsplit]
      exact ih hnew

theorem requireToken_eq_ok_iff {grammar : Text} {tokens : List (Text × Int)} {t : Text} {k : Int} :
    requireToken grammar tokens t = .ok k ↔ tokens.lookup t = some k := by
  rw [requireToken]
  cases tokens.lookup t <;> simp

/-- The grammar of a definition holds what the checks let pass. -/
theorem define_eq_ok_iff {d : Definition} {g : Grammar} :
    define d = .ok g ↔ g.name = d.name ∧
      checkTokens d.name [] d.tokens.entries = .ok g.tokens ∧
      checkOperators d.name g.tokens d.operators.entries = .ok g.operators ∧
      checkSymbols d.name [] d.symbols = .ok g.symbols ∧
      g.tokens.lookup ("NAME" : Text) = some g.nameKind ∧
      g.tokens.lookup ("STRING" : Text) = some g.stringKind ∧
      g.tokens.lookup ("NUMBER" : Text) = some g.numberKind := by
  constructor
  · intro h
    obtain ⟨tokens, htokens, h⟩ := eq_ok_of_bind h
    obtain ⟨operators, hoperators, h⟩ := eq_ok_of_bind h
    obtain ⟨symbols, hsymbols, h⟩ := eq_ok_of_bind h
    obtain ⟨nameKind, hname, h⟩ := eq_ok_of_bind h
    obtain ⟨stringKind, hstring, h⟩ := eq_ok_of_bind h
    obtain ⟨numberKind, hnumber, h⟩ := eq_ok_of_bind h
    obtain rfl := Except.ok.inj h
    exact ⟨rfl, htokens, hoperators, hsymbols, requireToken_eq_ok_iff.1 hname,
      requireToken_eq_ok_iff.1 hstring, requireToken_eq_ok_iff.1 hnumber⟩
  · rintro ⟨hgrammar, htokens, hoperators, hsymbols, hname, hstring, hnumber⟩
    rw [define, htokens]
    show checkOperators d.name g.tokens d.operators.entries >>= _ = _
    rw [hoperators]
    show checkSymbols d.name [] d.symbols >>= _ = _
    rw [hsymbols]
    show requireToken d.name g.tokens "NAME" >>= _ = _
    rw [requireToken_eq_ok_iff.2 hname]
    show requireToken d.name g.tokens "STRING" >>= _ = _
    rw [requireToken_eq_ok_iff.2 hstring]
    show requireToken d.name g.tokens "NUMBER" >>= _ = _
    rw [requireToken_eq_ok_iff.2 hnumber, ← hgrammar]
    rfl

/-! ## What the grammar has -/

/-- A definition without fault declares its grammar. -/
theorem declares_of_define {d : Definition} {g : Grammar} (h : define d = .ok g) :
    Declares d g := by
  obtain ⟨-, htokens, hoperators, hsymbols, hname, hstring, hnumber⟩ := define_eq_ok_iff.1 h
  have hentries := (checkTokens_nil_eq_ok_iff.1 htokens).1
  exact {
    tokens := by
      intro t k hmem
      rw [hentries]
      exact List.mem_map_of_mem (f := fun t : Text × Int => (t.1, Number.int t.2)) hmem
    operators := by
      intro o k hmem
      have hentry := List.mem_map_of_mem (f := fun o : Text × Int => (o.1, some o.2)) hmem
      rw [← checkOperators_eq_ok_iff.1 hoperators] at hentry
      obtain ⟨e, -, he⟩ := List.mem_map.1 hentry
      exact ⟨e.2, mem_of_lookup (congrArg Prod.snd he)⟩
    symbols := ((checkSymbols_eq_ok_iff List.nodup_nil).1 hsymbols).1
    name := mem_of_lookup hname
    string := mem_of_lookup hstring
    number := mem_of_lookup hnumber }

/-! ## Symbols are numbered once -/

/-- A definition without fault declares no symbol twice. -/
theorem nodup_symbols {d : Definition} {g : Grammar} (h : define d = .ok g) :
    g.symbols.Nodup := by
  obtain ⟨-, -, -, hsymbols, -⟩ := define_eq_ok_iff.1 h
  exact ((checkSymbols_eq_ok_iff List.nodup_nil).1 hsymbols).2

/-- The name of a symbol leads back to its number. -/
theorem symbolKind?_of_symbolName? {g : Grammar} (hg : g.symbols.Nodup) {k : Number} {s : Text}
    (h : g.symbolName? k = some s) : ∃ i, k = .int i ∧ g.symbolKind? s = some i := by
  unfold symbolName? at h
  split at h
  · next k =>
    split at h
    · next hle =>
      obtain ⟨hlt, hs⟩ := List.getElem?_eq_some_iff.1 h
      refine ⟨k, rfl, ?_⟩
      rw [symbolKind?, List.idxOf?_eq_some_iff.2 ⟨hlt, hs, ?_⟩, Option.map_some]
      · congr 1
        omega
      · intro j hj heq
        have := (hg.getElem_inj_iff).1 (heq.trans hs.symm)
        omega
    · cases h
  · cases h

end Grammar

end TreeMatcher
