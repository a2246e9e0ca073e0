import TreeMatcher.Proofs.Grammar.Declared
import TreeMatcher.Proofs.Spelling.RoundTrip

/-!
# What holds everywhere in a compiled matcher

Redundant wildcards are looked for at the top of a matcher only, wherever one is finished. That is
enough: nothing in a compiled matcher is redundant at any depth, because each of its parts was
finished before it, and merging two wildcards uncovers nothing that was not settled.

* `OrderlyWildcard` — alternatives and bounds of a wildcard in a compiled matcher.
* `Orderly` — what holds of each matcher in a compiled one, against the definition of the grammar.

## Main results

* `Shaped.of_within` — what stands in a shaped matcher is shaped.
* `Shaped.orderly` — a shaped matcher is orderly at the top.
* `orderly_of_matcherOf` — compiled matchers are orderly at every depth, and have a spelling unless
  they contain a negation with a name.
-/

namespace TreeMatcher

open Grammar

namespace Matcher

/-- What holds of a wildcard in a compiled matcher. -/
structure OrderlyWildcard (as : List (List Matcher)) (min max : Number) (name? : Option Text) :
    Prop where
  /-- It is its own normal form. -/
  normal : (wildcard as min max name?).normalize = .ok (wildcard as min max name?)
  alternatives : as ≠ []
  sequences : ∀ s ∈ as, s ≠ []
  /-- Of two alternatives or more, each is a single matcher. -/
  choice : 2 ≤ as.length → ∀ s ∈ as, s.length = 1
  /-- The lower bound; from two on, a single matcher is repeated. -/
  lower : ∃ a : Nat, min = .int a ∧ a ≤ boundLimit ∧ (2 ≤ a → ∃ m, as = [[m]]) ∧
    (max = .infinity → a ≤ 1)
  upper : max = .infinity ∨ ∃ b : Nat, max = .int b

/-- What holds of every matcher in a compiled one. -/
def Orderly (d : Definition) (g : Grammar) : Matcher → Prop
  | leaf token? value? _ =>
    (∀ k ∈ token?, ∃ t, (t, k) ∈ d.tokens.entries) ∧
      (value? = none →
        ∀ k ∈ token?, ∃ t ∈ (["NAME", "STRING", "NUMBER"] : List Text), (t, k) ∈ d.tokens.entries)
  | node symbol? content? _ =>
    (∀ k ∈ symbol?, ∃ s ∈ d.symbols, ∃ i, g.symbolKind? s = some i ∧ k = .int i) ∧
      ∀ ms ∈ content?, ms.length = 1
  | wildcard as min max name? => OrderlyWildcard as min max name?
  | negated _ _ => True

variable {d : Definition} {g : Grammar}

/-! ## Every depth -/

/-- What stands in a shaped matcher is shaped. -/
theorem Shaped.of_within {x m : Matcher} (h : Shaped g m) (hx : Within x m) : Shaped g x := by
  induction hx with
  | refl => exact h
  | content hm _ ih =>
    cases h with
    | node _ _ hc => exact ih (List.mem_singleton.1 hm ▸ hc)
  | alternative hs hm _ ih =>
    cases h with
    | repeated _ _ _ _ hsub =>
      obtain rfl := List.mem_singleton.1 hs
      exact ih (List.mem_singleton.1 hm ▸ hsub)
    | sequence _ _ _ _ hms =>
      obtain rfl := List.mem_singleton.1 hs
      exact ih (hms _ hm)
    | choice _ _ _ _ hms =>
      obtain ⟨m', hm', rfl⟩ := List.mem_map.1 hs
      exact ih (List.mem_singleton.1 hm ▸ hms m' hm')
  | inner _ ih =>
    cases h with
    | negated _ hi => exact ih hi

/-! ## Kinds -/

private theorem mem_of_symbolKind? {s : Text} {k : Int} (h : g.symbolKind? s = some k) :
    s ∈ g.symbols := by
  obtain ⟨i, hi, -⟩ := Option.map_eq_some_iff.1 h
  obtain ⟨_, hs, -⟩ := List.idxOf?_eq_some_iff.1 hi
  exact hs ▸ List.getElem_mem _

/-- The kind of a literal is that of names or that of an operator. -/
private theorem declared_of_literalKind (hd : Declares d g) {v : Text} {token? : Option Number}
    (h : (g.literalKind v).result = .ok token?) :
    ∀ k ∈ token?, ∃ t, (t, k) ∈ d.tokens.entries := by
  unfold literalKind at h
  split at h
  · cases h
    rintro _ ⟨⟩
    exact ⟨_, hd.tokens _ _ hd.name⟩
  · split at h
    · next k hk =>
      cases h
      rintro _ ⟨⟩
      obtain ⟨t, ht⟩ := hd.operators _ _ (mem_of_lookup hk)
      exact ⟨t, hd.tokens _ _ ht⟩
    · cases h
      rintro _ ⟨⟩

/-- A token name stands for one of the three indispensable kinds, or for any. -/
private theorem declared_of_mem_tokenNames (hd : Declares d g) {n : Text} {token? : Option Number}
    (h : (n, token?) ∈ g.tokenNames) :
    ∀ k ∈ token?, ∃ t ∈ (["NAME", "STRING", "NUMBER"] : List Text), (t, k) ∈ d.tokens.entries := by
  simp only [tokenNames, List.mem_cons, Prod.mk.injEq, List.not_mem_nil, or_false] at h
  rcases h with ⟨-, rfl⟩ | ⟨-, rfl⟩ | ⟨-, rfl⟩ | ⟨-, rfl⟩ <;> rintro _ ⟨⟩
  · exact ⟨"NAME", by decide, hd.tokens _ _ hd.name⟩
  · exact ⟨"STRING", by decide, hd.tokens _ _ hd.string⟩
  · exact ⟨"NUMBER", by decide, hd.tokens _ _ hd.number⟩

private theorem orderly_leaf (hd : Declares d g) {token? : Option Number}
    {value? name? : Option Text}
    (h : g.GivesToken value? token?) : Orderly d g (leaf token? value? name?) := by
  cases value? with
  | some v => exact ⟨declared_of_literalKind hd h, by rintro ⟨⟩⟩
  | none =>
    obtain ⟨n, hn⟩ := h
    have hdeclared := declared_of_mem_tokenNames hd hn
    refine ⟨fun k hk => ?_, fun _ => hdeclared⟩
    obtain ⟨t, -, ht⟩ := hdeclared k hk
    exact ⟨t, ht⟩

private theorem declared_of_givesSymbol (hd : Declares d g) {symbol? : Option Number}
    (h : g.GivesSymbol symbol?) :
    ∀ k ∈ symbol?, ∃ s ∈ d.symbols, ∃ i, g.symbolKind? s = some i ∧ k = .int i := by
  rcases h with rfl | ⟨s, i, -, -, -, -, hi, rfl⟩ <;> rintro _ ⟨⟩
  exact ⟨s, hd.symbols ▸ mem_of_symbolKind? hi, i, hi, rfl⟩

/-! ## Bounds -/

private theorem Repeats.upper {min max : Number} (h : Repeats min max) :
    max = .infinity ∨ ∃ b : Nat, max = .int b := by
  obtain ⟨a, -, -, ⟨rfl, -⟩ | hmax⟩ := h
  · exact .inl rfl
  · exact .inr hmax

/-- A wildcard with a lower bound of at most one, around anything. -/
private theorem orderlyWildcard_of_le_one {as : List (List Matcher)} {min max : Number}
    {name? : Option Text} (hs : Settled (wildcard as min max name?)) (hb : ValidBounds min max)
    (hle : min.le 1) (hne : as ≠ []) (hsequences : ∀ s ∈ as, s ≠ [])
    (hchoice : 2 ≤ as.length → ∀ s ∈ as, s.length = 1) : OrderlyWildcard as min max name? where
  normal := normalize_of_settled hs
  alternatives := hne
  sequences := hsequences
  choice := hchoice
  lower := by
    obtain ⟨a, rfl⟩ := Number.isNat_iff.1 hb.1
    have ha : a ≤ 1 := Number.le_one_iff.1 hle
    exact ⟨a, rfl, Nat.le_trans ha (by decide), fun h => by omega, fun _ => ha⟩
  upper := hb.2.imp id Number.isNat_iff.1

/-! ## The top of a shaped matcher -/

/-- A shaped matcher is orderly at the top. -/
theorem Shaped.orderly (hd : Declares d g) {m : Matcher} (h : Shaped g m) : Orderly d g m := by
  have hsettled := h.settled
  cases h with
  | leaf ht => exact orderly_leaf hd ht
  | bare hs => exact ⟨declared_of_givesSymbol hd hs, by rintro _ ⟨⟩⟩
  | node hs => exact ⟨declared_of_givesSymbol hd hs, by rintro _ ⟨⟩; rfl⟩
  | negated => trivial
  | @repeated m min max name? _ hb =>
    refine ⟨normalize_of_settled hsettled, by simp, by simp, by simp, ?_, hb.upper⟩
    obtain ⟨a, rfl, ha, hmax⟩ := hb
    refine ⟨a, rfl, ha, fun _ => ⟨m, rfl⟩, ?_⟩
    rintro rfl
    obtain ⟨-, ha⟩ | ⟨b, ⟨⟩⟩ := hmax
    exact ha
  | @sequence ms min max name? _ hb hle htwo =>
    refine orderlyWildcard_of_le_one hsettled hb hle (by simp) ?_ (by simp)
    rw [List.forall_mem_singleton]
    rintro rfl
    simp at htwo
  | @choice ms min max name? _ hb hle htwo =>
    refine orderlyWildcard_of_le_one hsettled hb hle ?_ (by simp) (by simp)
    intro hnil
    rw [List.map_eq_nil_iff] at hnil
    simp [hnil] at htwo

end Matcher

open Matcher

/-- Everything in a compiled matcher is orderly: no wildcard is redundant or empty at any depth,
bounds are natural numbers, the content of a node is a single matcher, and kinds are declared. So a
compiled matcher has a spelling unless it contains a negation with a name. -/
theorem orderly_of_matcherOf {d : Definition} {g : Grammar} {source : Text} {m : Matcher}
    (hd : define d = .ok g) (hm : g.matcherOf source = .ok m) :
    (∀ x, Within x m → Orderly d g x) ∧
      ∀ e, g.spell m = .error e → Contains IsNamedNegation m := by
  have hshaped := shaped_of_matcherOf hm
  refine ⟨fun x hx => (hshaped.of_within hx).orderly (declares_of_define hd), fun e he => ?_⟩
  by_contra hneg
  obtain ⟨t, ht, -⟩ := hshaped.exists_spelling hneg
  rw [he] at ht
  cases ht

/-- In a group under a name, a negation with a name and a wildcard. -/
theorem orderly_of_matcherOf_negation :
    define expressionDefinition = .ok expression ∧
      ∃ m, expression.matcherOf "(n=(!NAME) atom{2,5})*" = .ok m ∧
        ∀ x, Within x m → Orderly expressionDefinition expression x := by
  have hm : expression.matcherOf "(n=(!NAME) atom{2,5})*" =
      .ok (wildcard [[negated (leaf (some (.int 1)) none none) (some "n"),
        wildcard [[node (some (.int 285)) none none]] 2 5 none]] 0 .infinity none) :=
    eq_ok_of_toOption (by decide +kernel)
  exact ⟨define_expressionDefinition, _, hm,
    (orderly_of_matcherOf define_expressionDefinition hm).1⟩

end TreeMatcher
