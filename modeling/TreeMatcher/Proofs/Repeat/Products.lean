import Mathlib.Data.ENat.Basic
import TreeMatcher.Proofs.Matcher.Within
import TreeMatcher.Proofs.Repeat.Units

/-!
# Which repeats a wildcard stands for

Repeats that stand directly one around the other are merged in part, so a wildcard stands for some
of them in a row, and its bounds are the products of theirs. Lower bounds of merged repeats are at
most one, and their product is exact. Upper bounds are multiplied as floating-point numbers: the
product is exact as long as it is a bound that a repeater may have. A product beyond that is rounded
to some other number beyond, or overflows to infinity, although every factor was in bounds.

* `Item.chain` — the repeats at the top of what a unit compiles to, outermost first.
* `Item.spine` — the same below the exclamation mark, if there is one.
* `Approximates x P` — an upper bound `x` as it comes out for the exact product `P`.
* `Matcher.Nests rs m` — the wildcards at the top of `m` stand for the repeats `rs`, in order.

## Main results

* `Approximates.mul` — products of approximations are approximations of the products.
* `Nests.around` — a wildcard around a matcher stands for one more repeat, merged or not.
* `nests_of_matcherOf` — the wildcards of every unit, and where the bounds of a wildcard come from.
-/

namespace TreeMatcher

open Outcome Grammar Matcher

/-! ## Repeats in the source -/

/-- The bounds of a repeat as they are written; the upper one may be infinite. -/
abbrev Span : Type := Nat × ℕ∞

/-- The bounds that a repeater is written with. -/
def Repeater.span : Repeater → Span
  | star _ => (0, ⊤)
  | plus _ => (1, ⊤)
  | exactly _ n _ => (n.text.decimalValue, n.text.decimalValue)
  | between _ n _ m _ => (n.text.decimalValue, m.text.decimalValue)

/-- Repeats around others; to repeat exactly once is not to repeat. -/
def Repeater.over (r : Repeater) (rs : List Span) : List Span :=
  if r.span = (1, 1) then rs else r.span :: rs

mutual

/-- The repeats at the top of alternatives, one around the other, outermost first. -/
def Choice.chain : Choice → List Span
  | .single s => s.chain
  | .either .. => []

/-- The repeats at the top of an alternative. -/
def Sequence.chain : Sequence → List Span
  | .single i => i.chain
  | .followed .. => []

/-- The repeats at the top of a unit. -/
def Item.chain : Item → List Span
  | .negated .. => []
  | .plain _ o => o.chain
  | .repeated _ b r => r.over b.chain

/-- The repeats at the top of an operand; an optional group is repeated at most once. -/
def Operand.chain : Operand → List Span
  | .optional _ c _ => (0, 1) :: c.chain
  | .basic b => b.chain

/-- The repeats at the top of a basic pattern. -/
def Basic.chain : Basic → List Span
  | .group _ c _ => c.chain
  | .literal _ => []
  | .name _ => []
  | .detailed .. => []

end

/-- The repeats in a unit, one around the other, below the exclamation mark if there is one. -/
def Item.spine : Item → List Span
  | .negated _ o => o.chain
  | .plain _ o => o.chain
  | .repeated _ b r => r.over b.chain

private theorem Item.chain_suffix_spine (i : Item) : i.chain <:+ i.spine := by
  cases i with
  | negated bang o =>
    rw [chain]
    exact List.nil_suffix
  | plain capture? o =>
    rw [chain, spine]
  | repeated capture? b r =>
    rw [chain, spine]

private theorem Item.mem_items (i : Item) : i ∈ i.items := by
  cases i with
  | negated bang o =>
    rw [items]
    exact List.mem_append_right _ (List.mem_singleton_self _)
  | plain capture? o =>
    rw [items]
    exact List.mem_append_right _ (List.mem_singleton_self _)
  | repeated capture? b r =>
    rw [items]
    exact List.mem_append_right _ (List.mem_singleton_self _)

/-- The repeats at the top of an alternative are those of a unit in it. -/
private theorem Sequence.exists_spine (s : Sequence) : ∃ i ∈ s.items, s.chain <:+ i.spine := by
  cases s with
  | single i =>
    rw [items, chain]
    exact ⟨i, i.mem_items, i.chain_suffix_spine⟩
  | followed i s =>
    rw [items, chain]
    exact ⟨i, List.mem_append_left _ i.mem_items, List.nil_suffix⟩

/-- The repeats at the top of alternatives are those of a unit in them. -/
private theorem Choice.exists_spine (c : Choice) : ∃ i ∈ c.items, c.chain <:+ i.spine := by
  cases c with
  | single s =>
    rw [items, chain]
    exact s.exists_spine
  | either s bar c =>
    rw [items, chain]
    obtain ⟨i, hi, -⟩ := s.exists_spine
    exact ⟨i, List.mem_append_left _ hi, List.nil_suffix⟩

/-! ## Approximate products -/

/-- An upper bound as it comes out for an exact product. -/
inductive Approximates : Number → ℕ∞ → Prop where
  /-- A product in bounds is exact. -/
  | exact {k : Nat} (h : k ≤ boundLimit) : Approximates (.int k) k
  /-- A finite product beyond is some number beyond. -/
  | rounded {j k : Nat} (hj : boundLimit < j) (hk : boundLimit < k) : Approximates (.int j) k
  /-- Infinity stands for a product beyond, finite or not. -/
  | infinite {P : ℕ∞} (h : (boundLimit : ℕ∞) < P) : Approximates .infinity P

namespace Approximates

variable {x y : Number} {P Q : ℕ∞}

/-- A natural number rounded, for the number itself or for another one where both are beyond. -/
private theorem ofInt {n p : Nat} (h : n = p ∨ boundLimit < n ∧ boundLimit < p) :
    Approximates (Number.ofInt n) p := by
  by_cases hn : n ≤ boundLimit
  · obtain rfl : n = p := h.resolve_right fun h => absurd h.1 (Nat.not_lt.2 hn)
    rw [Number.ofInt_of_natAbs_le]
    · exact .exact hn
    · rw [Int.natAbs_natCast]
      exact Nat.le_trans hn (by decide)
  · have hp : boundLimit < p := by
      rcases h with rfl | ⟨-, hp⟩
      · exact Nat.lt_of_not_le hn
      · exact hp
    rcases Number.ofInt_natCast n with hinf | ⟨m, hm, hexact, hlarge⟩
    · rw [hinf]
      exact .infinite (by exact_mod_cast hp)
    · rw [hm]
      refine .rounded ?_ hp
      rcases Nat.lt_or_ge Number.exactLimit n with hlt | hle
      · exact Nat.lt_of_lt_of_le (by decide) (hlarge hlt)
      · rw [hexact hle]
        exact Nat.lt_of_not_le hn

private theorem lt_mul (h : (boundLimit : ℕ∞) < P) (hQ : Q ≠ 0) : (boundLimit : ℕ∞) < P * Q :=
  lt_of_lt_of_le h (le_mul_of_one_le_right' (Order.one_le_iff_ne_zero.2 hQ))

private theorem zero : Approximates (.int 0) 0 := exact (Nat.zero_le boundLimit)

private theorem ne_zero_of_lt (h : (boundLimit : ℕ∞) < P) : P ≠ 0 := (pos_of_gt h).ne'

/-- Infinity times an approximation. -/
private theorem infinite_mul (h : (boundLimit : ℕ∞) < P) (hy : Approximates y Q) :
    Approximates (Number.mulMax .infinity y) (P * Q) := by
  cases hy with
  | @exact k hk =>
    rw [Number.mulMax_infinity_int]
    split
    · next hzero =>
      rw [hzero, Nat.cast_zero, mul_zero]
      exact zero
    · next hzero => exact .infinite (lt_mul h (Nat.cast_ne_zero.2 hzero))
  | @rounded j k hj hk =>
    rw [Number.mulMax_infinity_int, if_neg (by omega)]
    exact .infinite (lt_mul h (Nat.cast_ne_zero.2 (by omega)))
  | infinite hQ => exact .infinite (lt_mul h (ne_zero_of_lt hQ))

/-- An approximation times infinity. -/
private theorem mul_infinite (hx : Approximates x P) (h : (boundLimit : ℕ∞) < Q) :
    Approximates (Number.mulMax x .infinity) (P * Q) := by
  have hcomm : Number.mulMax x .infinity = Number.mulMax .infinity x := by
    cases hx with
    | exact _ => rw [Number.mulMax_int_infinity, Number.mulMax_infinity_int]
    | rounded _ _ => rw [Number.mulMax_int_infinity, Number.mulMax_infinity_int]
    | infinite _ => rfl
  rw [hcomm, mul_comm P Q]
  exact infinite_mul h hx

/-- A finite factor comes out as it is, or as a number beyond where it is beyond. -/
private theorem near_mul {m p n q : Nat} (hm : m = p ∨ boundLimit < m ∧ boundLimit < p)
    (hn : n = q ∨ boundLimit < n ∧ boundLimit < q) :
    m * n = p * q ∨ boundLimit < m * n ∧ boundLimit < p * q := by
  have hbeyond {a b : Nat} (ha : 0 < a) (hb : boundLimit < b) : boundLimit < a * b :=
    Nat.lt_of_lt_of_le hb (Nat.le_mul_of_pos_left b ha)
  rcases hm with rfl | ⟨hm, hp⟩
  · rcases hn with rfl | ⟨hn, hq⟩
    · exact .inl rfl
    · rcases Nat.eq_zero_or_pos m with rfl | hpos
      · exact .inl (by rw [Nat.zero_mul, Nat.zero_mul])
      · exact .inr ⟨hbeyond hpos hn, hbeyond hpos hq⟩
  · rw [Nat.mul_comm m n, Nat.mul_comm p q]
    rcases hn with rfl | ⟨hn, hq⟩
    · rcases Nat.eq_zero_or_pos n with rfl | hpos
      · exact .inl (by rw [Nat.zero_mul, Nat.zero_mul])
      · exact .inr ⟨hbeyond hpos hm, hbeyond hpos hp⟩
    · exact .inr ⟨hbeyond (by omega) hm, hbeyond (by omega) hp⟩

/-- Products of approximations are approximations of the products. -/
theorem mul (hx : Approximates x P) (hy : Approximates y Q) :
    Approximates (Number.mulMax x y) (P * Q) := by
  have hfinite {m p n q : Nat} (hm : m = p ∨ boundLimit < m ∧ boundLimit < p)
      (hn : n = q ∨ boundLimit < n ∧ boundLimit < q) :
      Approximates (Number.mulMax (.int m) (.int n)) (p * q) := by
    rw [Number.mulMax_int_int, ← Nat.cast_mul]
    exact ofInt (near_mul hm hn)
  cases hx with
  | infinite hP => exact infinite_mul hP hy
  | exact hP =>
    cases hy with
    | infinite hQ => exact mul_infinite (.exact hP) hQ
    | exact hQ => exact hfinite (.inl rfl) (.inl rfl)
    | rounded hj hk => exact hfinite (.inl rfl) (.inr ⟨hj, hk⟩)
  | rounded hj hk =>
    cases hy with
    | infinite hQ => exact mul_infinite (.rounded hj hk) hQ
    | exact hQ => exact hfinite (.inr ⟨hj, hk⟩) (.inl rfl)
    | rounded hj' hk' => exact hfinite (.inr ⟨hj, hk⟩) (.inr ⟨hj', hk'⟩)

end Approximates

/-! ## Wildcards for repeats in a row -/

/-- Bounds that stand for some repeats in a row: the products of theirs. -/
structure Stands (rs : List Span) (min max : Number) : Prop where
  lower : min = .int (rs.map Prod.fst).prod
  upper : Approximates max (rs.map Prod.snd).prod

private theorem stands_nil : Stands [] 1 1 := ⟨rfl, .exact (by decide)⟩

private theorem Stands.append {rs rs' : List Span} {min max min' max' : Number}
    (h : Stands rs min max) (h' : Stands rs' min' max') (hle : min.le 1) (hle' : min'.le 1) :
    Stands (rs ++ rs') (min.mul min') (max.mulMax max') where
  lower := by
    obtain rfl := h.lower
    obtain rfl := h'.lower
    rw [Number.mul_of_le_one (Number.le_one_iff.1 hle) (Number.le_one_iff.1 hle'), List.map_append,
      List.prod_append]
  upper := by
    rw [List.map_append, List.prod_append]
    exact h.upper.mul h'.upper

namespace Matcher

/-- The wildcards at the top of a matcher, one around the other, stand for the given repeats, each
of them for some in a row. -/
inductive Nests : List Span → Matcher → Prop where
  | plain {m : Matcher} (hm : ∀ as min max n, m ≠ wildcard as min max n) : Nests [] m
  | group {rs : List Span} {as : List (List Matcher)} {min max : Number} {n : Option Text}
      (h : Stands rs min max) (has : ∀ m, as ≠ [[m]]) : Nests rs (wildcard as min max n)
  | around {rs rs' : List Span} {m : Matcher} {min max : Number} {n : Option Text}
      (h : Stands rs min max) (hne : rs ≠ []) (hm : Nests rs' m) :
      Nests (rs ++ rs') (wildcard [[m]] min max n)

variable {rs rs' : List Span} {m : Matcher} {min max : Number}

/-- The outermost wildcard stands for the first of the repeats. -/
private theorem Nests.stands {as : List (List Matcher)} {n : Option Text}
    (h : Nests rs (wildcard as min max n)) : ∃ rs₁, rs₁ <+: rs ∧ Stands rs₁ min max := by
  cases h with
  | plain hm => exact absurd rfl (hm _ _ _ _)
  | group h => exact ⟨rs, List.prefix_refl rs, h⟩
  | @around rs₁ rs₂ _ _ _ _ h => exact ⟨rs₁, List.prefix_append rs₁ rs₂, h⟩

/-- Names do not matter. -/
private theorem Nests.withName (h : Nests rs m) (name : Text) : Nests rs (m.withName name) := by
  cases h with
  | plain hm =>
    apply Nests.plain
    intro as min max n heq
    cases m with
    | wildcard as' min' max' n' => exact hm _ _ _ _ rfl
    | _ => cases heq
  | group h has => exact .group h has
  | around h hne hm => exact .around h hne hm

/-- A wildcard around a matcher stands for more repeats, merged or not. -/
private theorem Nests.around_append (h : Stands rs min max) (hne : rs ≠ []) (hm : Nests rs' m)
    (name? : Option Text) : Nests (rs ++ rs') (m.around min max name?) := by
  by_cases hmerge : Merges min name? m
  · cases m with
    | wildcard as min' max' n' =>
      obtain ⟨hle, hle', rfl⟩ := hmerge
      rw [around_of_merges hle hle']
      -- The merged wildcard stands for the new repeats and those that `m` stood for itself.
      cases hm with
      | plain hm => exact absurd rfl (hm _ _ _ _)
      | group h' has => exact .group (h.append h' hle hle') has
      | around h' hne' hm =>
        rw [← List.append_assoc]
        exact .around (h.append h' hle hle') (List.append_ne_nil_of_left_ne_nil hne _) hm
    | _ => exact absurd hmerge fun h => h
  · rw [around_of_not_merges hmerge]
    exact .around h hne hm

/-! ## What stands in a matcher under a name or a repeater -/

private theorem within_withName {x : Matcher} {name : Text} (h : Within x (m.withName name)) :
    x = m.withName name ∨ Within x m := by
  cases m with
  | leaf =>
    cases h
    exact .inl rfl
  | node =>
    cases h with
    | refl => exact .inl rfl
    | content hm h => exact .inr (.content hm h)
  | wildcard =>
    cases h with
    | refl => exact .inl rfl
    | alternative hs hm h => exact .inr (.alternative hs hm h)
  | negated =>
    cases h with
    | refl => exact .inl rfl
    | inner h => exact .inr (.inner h)

private theorem within_wildcard_single {x : Matcher} {n : Option Text}
    (h : Within x (wildcard [[m]] min max n)) : x = wildcard [[m]] min max n ∨ Within x m := by
  cases h with
  | refl => exact .inl rfl
  | alternative hs hm h =>
    obtain rfl := List.mem_singleton.1 hs
    exact .inr (List.mem_singleton.1 hm ▸ h)

private theorem within_around {x : Matcher} {name? : Option Text}
    (h : Within x (m.around min max name?)) : x = m.around min max name? ∨ Within x m := by
  by_cases hmerge : Merges min name? m
  · cases m with
    | wildcard as min' max' n' =>
      obtain ⟨hle, hle', rfl⟩ := hmerge
      rw [around_of_merges hle hle'] at h ⊢
      cases h with
      | refl => exact .inl rfl
      | alternative hs hm h => exact .inr (.alternative hs hm h)
    | _ => exact absurd hmerge fun h => h
  · rw [around_of_not_merges hmerge] at h ⊢
    exact within_wildcard_single h

end Matcher

/-! ## Where the repeats come from -/

/-- The wildcards of a matcher stand for the repeats `rs`, and those of everything in it for some of
these or for repeats of a unit. -/
structure Traced (is : List Item) (rs : List Span) (m : Matcher) : Prop where
  nests : Nests rs m
  parts : ∀ x, Within x m → ∃ rs', Nests rs' x ∧ (rs' <:+ rs ∨ ∃ i ∈ is, rs' <:+ i.spine)

/-- Everything in a matcher stands for repeats of a unit. -/
def Sourced (is : List Item) (m : Matcher) : Prop :=
  ∀ x, Within x m → ∃ rs', Nests rs' x ∧ ∃ i ∈ is, rs' <:+ i.spine

/-- Matchers of which everything stands for repeats of a unit; one alone stands for the repeats
`rs`. -/
structure TracedEach (is : List Item) (rs : List Span) (ms : List Matcher) : Prop where
  sourced : ∀ m ∈ ms, Sourced is m
  nests : (∃ m, ms = [m] ∧ Nests rs m) ∨ 2 ≤ ms.length ∧ rs = []

variable {g : Grammar} {is is' : List Item} {rs : List Span} {m m' : Matcher}

private theorem Sourced.mono (h : Sourced is m) (hsub : is ⊆ is') : Sourced is' m := by
  intro x hx
  obtain ⟨rs', hnests, i, hi, hsuffix⟩ := h x hx
  exact ⟨rs', hnests, i, hsub hi, hsuffix⟩

namespace Traced

private theorem mono (h : Traced is rs m) (hsub : is ⊆ is') : Traced is' rs m where
  nests := h.nests
  parts x hx := by
    obtain ⟨rs', hnests, hsuffix | ⟨i, hi, hsuffix⟩⟩ := h.parts x hx
    · exact ⟨rs', hnests, .inl hsuffix⟩
    · exact ⟨rs', hnests, .inr ⟨i, hsub hi, hsuffix⟩⟩

private theorem sourced (h : Traced is rs m) (hi : ∃ i ∈ is, rs <:+ i.spine) : Sourced is m := by
  intro x hx
  obtain ⟨rs', hnests, hsuffix | hunit⟩ := h.parts x hx
  · obtain ⟨i, hi, hspine⟩ := hi
    exact ⟨rs', hnests, i, hi, hsuffix.trans hspine⟩
  · exact ⟨rs', hnests, hunit⟩

/-- Another matcher of the same parts. -/
private theorem of_parts (h : Traced is rs m) (hnests : Nests rs m')
    (hparts : ∀ x, Within x m' → x = m' ∨ Within x m) : Traced is rs m' where
  nests := hnests
  parts x hx := by
    rcases hparts x hx with rfl | hx
    · exact ⟨rs, hnests, .inl (List.suffix_refl rs)⟩
    · exact h.parts x hx

/-- A matcher that is no wildcard, around others. -/
private theorem of_sourced (hnests : Nests [] m)
    (hparts : ∀ x, Within x m → x = m ∨ ∃ m', Within x m' ∧ Sourced is m') : Traced is [] m where
  nests := hnests
  parts x hx := by
    rcases hparts x hx with rfl | ⟨m', hx, hm'⟩
    · exact ⟨[], hnests, .inl List.nil_suffix⟩
    · obtain ⟨rs', hnests, hunit⟩ := hm' x hx
      exact ⟨rs', hnests, .inr hunit⟩

/-- One more repeat around a matcher. -/
theorem around (h : Traced is rs m) {s : Span} {min max : Number} (hs : Stands [s] min max)
    (name? : Option Text) : Traced is (s :: rs) (m.around min max name?) where
  nests := .around_append hs (List.cons_ne_nil s []) h.nests name?
  parts x hx := by
    rcases within_around hx with rfl | hx
    · exact ⟨s :: rs, .around_append hs (List.cons_ne_nil s []) h.nests name?,
        .inl (List.suffix_refl _)⟩
    · obtain ⟨rs', hnests, hsuffix | hunit⟩ := h.parts x hx
      · exact ⟨rs', hnests, .inl (hsuffix.trans (List.suffix_cons s rs))⟩
      · exact ⟨rs', hnests, .inr hunit⟩

/-- A capture name changes no bounds, but it may let two wildcards merge. -/
private theorem captured (h : Traced is rs m) (hm : Shaped g m) (capture? : Option Capture) :
    Gives (Traced is rs) (m.captured capture?) := by
  have hrenamed {name : Text} (hs : Settled (m.withName name)) :
      Gives (Traced is rs) (m.withName name).finish := by
    rw [finish_of_settled hs]
    exact gives_value (h.of_parts (h.nests.withName name) fun x hx => within_withName hx)
  cases capture? with
  | none =>
    rw [Matcher.captured, finish_of_settled hm.settled]
    exact gives_value h
  | some c =>
    rw [Matcher.captured]
    cases hm with
    | leaf => exact hrenamed (settled_leaf _ _ _)
    | bare => exact hrenamed (settled_node _ _ _)
    | node => exact hrenamed (settled_node _ _ _)
    | negated => exact hrenamed (settled_negated _ _)
    | sequence _ _ _ htwo => exact hrenamed (settled_wildcard_of_ne (sequence_ne htwo) _ _ _)
    | choice _ _ _ htwo => exact hrenamed (settled_wildcard_of_ne (singles_ne htwo) _ _ _)
    | @repeated sub min max _ _ hb hone _ hsub =>
      -- What it is around may have this very name, and then the two merge only now.
      rw [Matcher.withName, finish_around hsub hb hone]
      refine gives_value (h.of_parts ?_ fun x hx => ?_)
      · cases h.nests with
        | plain hm => exact absurd rfl (hm _ _ _ _)
        | group _ has => exact absurd rfl (has sub)
        | around hs hne hnests => exact .around_append hs hne hnests _
      · rcases within_around hx with rfl | hx
        · exact .inl rfl
        · exact .inr (.alternative (List.mem_singleton_self _) (List.mem_singleton_self _) hx)

end Traced

namespace TracedEach

variable {ms : List Matcher}

/-- A group of two matchers or more stands for no repeat. -/
private theorem group (h : TracedEach is rs ms) (htwo : 2 ≤ ms.length) {as : List (List Matcher)}
    (has : ∀ m, as ≠ [[m]]) (hms : ∀ s ∈ as, ∀ m ∈ s, m ∈ ms) :
    Traced is rs (wildcard as 1 1 none) := by
  have hnil : rs = [] := by
    rcases h.nests with ⟨m, rfl, -⟩ | ⟨-, hnil⟩
    · simp at htwo
    · exact hnil
  rw [hnil]
  refine .of_sourced (.group stands_nil has) fun x hx => ?_
  cases hx with
  | refl => exact .inl rfl
  | alternative hs hm hx => exact .inr ⟨_, hx, h.sourced _ (hms _ hs _ hm)⟩

private theorem single (h : TracedEach is rs [m]) : Traced is rs m where
  nests := by
    rcases h.nests with ⟨m', heq, hnests⟩ | ⟨htwo, -⟩
    · cases heq
      exact hnests
    · simp at htwo
  parts x hx := by
    obtain ⟨rs', hnests, hunit⟩ := h.sourced m (List.mem_singleton_self m) x hx
    exact ⟨rs', hnests, .inr hunit⟩

private theorem inSequence (h : TracedEach is rs ms) : Gives (Traced is rs) (inSequence ms) := by
  rcases Nat.lt_or_ge ms.length 2 with hlt | htwo
  · obtain ⟨m, rfl, -⟩ := h.nests.resolve_right fun h => absurd h.1 (by omega)
    exact gives_value h.single
  · rw [inSequence_of_two htwo]
    exact gives_value (h.group htwo (sequence_ne htwo) (by simp))

private theorem oneOf (h : TracedEach is rs ms) : Gives (Traced is rs) (oneOf ms) := by
  rcases Nat.lt_or_ge ms.length 2 with hlt | htwo
  · obtain ⟨m, rfl, -⟩ := h.nests.resolve_right fun h => absurd h.1 (by omega)
    exact gives_value h.single
  · rw [oneOf_of_two htwo]
    exact gives_value (h.group htwo (singles_ne htwo) (by simp))

/-- One more matcher in front. -/
private theorem cons (h : TracedEach is rs ms) {is' : List Item} (hm : Sourced is' m) :
    TracedEach (is' ++ is) [] (m :: ms) where
  sourced := by
    refine List.forall_mem_cons.2 ⟨hm.mono (List.subset_append_left is' is), fun m' hm' => ?_⟩
    exact (h.sourced m' hm').mono (List.subset_append_right is' is)
  nests := by
    refine .inr ⟨?_, rfl⟩
    rcases h.nests with ⟨m', rfl, -⟩ | ⟨htwo, -⟩
    · simp
    · rw [List.length_cons]
      omega

private theorem of_single (hm : Traced is rs m) (hi : ∃ i ∈ is, rs <:+ i.spine) :
    TracedEach is rs [m] where
  sourced := List.forall_mem_singleton.2 (hm.sourced hi)
  nests := .inl ⟨m, rfl, hm.nests⟩

end TracedEach

/-! ## The bounds of a repeater -/

private theorem boundOf_leaf_le {k : TokenKind} {w : Word} {n : Nat}
    (h : boundOf (w.leaf k) = .ok n) :
    n ≤ boundLimit := by
  unfold Word.leaf Tree.ofToken boundOf at h
  split at h
  · next heq =>
    cases heq
    split at h
    · split at h
      · split at h
        · next hle =>
          cases h
          exact hle
        · cases h
      · cases h
    · cases h
  · cases h

private theorem stands_single {a : Nat} {max : Number} {P : ℕ∞} (h : Approximates max P) :
    Stands [(a, P)] (.int a) max :=
  ⟨by simp, by simpa using h⟩

private theorem int_eq_one_iff {n : Nat} : Number.int n = 1 ↔ n = 1 := by
  rw [show (1 : Number) = .int (1 : Nat) from rfl, Number.int.injEq, Int.ofNat_inj]

/-- The bounds of a repeater are those it is written with. -/
private theorem Repeater.stands_bounds {r : Repeater} {min max : Number}
    (h : r.bounds = .ok (min, max)) :
    Stands [r.span] min max ∧ (r.span = (1, 1) ↔ min = 1 ∧ max = 1) := by
  have hinfinite : Approximates .infinity ⊤ := .infinite (ENat.natCast_lt_top _)
  cases r with
  | star w =>
    cases h
    exact ⟨stands_single hinfinite, by simp [span]⟩
  | plus w =>
    cases h
    exact ⟨stands_single hinfinite, by simp [span]⟩
  | exactly l n r =>
    obtain ⟨a, hn, h⟩ := eq_ok_of_bind h
    cases h
    have ha := boundOf_leaf_le hn
    obtain rfl := boundOf_leaf_eq_ok hn
    exact ⟨stands_single (.exact ha), by simp [span, int_eq_one_iff]⟩
  | between l n c m r =>
    obtain ⟨a, hn, h⟩ := eq_ok_of_bind h
    obtain ⟨b, hm, h⟩ := eq_ok_of_bind h
    cases h
    have hb := boundOf_leaf_le hm
    obtain rfl := boundOf_leaf_eq_ok hn
    obtain rfl := boundOf_leaf_eq_ok hm
    exact ⟨stands_single (.exact hb), by simp [span, int_eq_one_iff]⟩

/-! ## Leaves and nodes -/

private theorem traced_leaf (t : Option Number) (v : Option Text) :
    Traced is [] (leaf t v none) := by
  refine .of_sourced (.plain (by simp)) fun x hx => ?_
  cases hx
  exact .inl rfl

private theorem traced_bare (s : Option Number) : Traced is [] (node s none none) := by
  refine .of_sourced (.plain (by simp)) fun x hx => ?_
  cases hx
  exact .inl rfl

private theorem traced_node (s : Option Number) (h : Sourced is m) :
    Traced is [] (node s (some [m]) none) := by
  refine .of_sourced (.plain (by simp)) fun x hx => ?_
  cases hx with
  | refl => exact .inl rfl
  | content hm hx =>
    obtain rfl := List.mem_singleton.1 hm
    exact .inr ⟨_, hx, h⟩

private theorem traced_literalMatcher (l : Leaf) : Gives (Traced is []) (g.literalMatcher l) := by
  unfold literalMatcher
  split
  · exact gives_fail _
  · exact (gives_any _).andThen fun k _ => gives_value (traced_leaf k _)

private theorem traced_nameMatcher (l : Leaf) : Gives (Traced is []) (g.nameMatcher l) := by
  unfold nameMatcher
  split
  · unfold tokenMatcher
    split
    · exact gives_fail _
    · exact gives_value (traced_leaf _ none)
  · exact (gives_any _).andThen fun s _ => gives_value (traced_bare s)

private theorem traced_detailedMatcher (l : Leaf) {content : Outcome Matcher}
    (h : Gives (Sourced is) content) : Gives (Traced is []) (g.detailedMatcher l content) := by
  unfold detailedMatcher
  split
  · split <;> exact gives_fail _
  · exact (gives_any _).andThen fun s _ => h.andThen fun m hm => gives_value (traced_node s hm)

/-! ## Phrases -/

section

variable (g)

mutual

private theorem Choice.traced_each : (c : Choice) → (∀ t ∈ c.tokens, t.Fits) →
    Gives (TracedEach c.items c.chain) (c.each g)
  | .single s, hfits => by
    rw [Choice.tokens] at hfits
    rw [Choice.each, Choice.items, Choice.chain]
    refine ((Sequence.traced_each s hfits).andThen fun ms hms => hms.inSequence).andThen ?_
    exact fun m hm => gives_value (.of_single hm s.exists_spine)
  | .either s bar c, hfits => by
    rw [Choice.tokens, List.forall_mem_append, List.forall_mem_cons] at hfits
    rw [Choice.each, Choice.items, Choice.chain]
    refine ((Sequence.traced_each s hfits.1).andThen fun ms hms => hms.inSequence).andThen ?_
    intro m hm
    refine (Choice.traced_each c hfits.2.2).andThen fun ms hms => gives_value ?_
    exact hms.cons (hm.sourced s.exists_spine)

private theorem Sequence.traced_each : (s : Sequence) → (∀ t ∈ s.tokens, t.Fits) →
    Gives (TracedEach s.items s.chain) (s.each g)
  | .single i, hfits => by
    rw [Sequence.tokens] at hfits
    rw [Sequence.each, Sequence.items, Sequence.chain]
    refine (Item.traced i hfits).andThen fun m hm => gives_value ?_
    exact .of_single hm ⟨i, i.mem_items, i.chain_suffix_spine⟩
  | .followed i s, hfits => by
    rw [Sequence.tokens, List.forall_mem_append] at hfits
    rw [Sequence.each, Sequence.items, Sequence.chain]
    refine (Item.traced i hfits.1).andThen fun m hm => ?_
    refine (Sequence.traced_each s hfits.2).andThen fun ms hms => gives_value ?_
    exact hms.cons (hm.sourced ⟨i, i.mem_items, i.chain_suffix_spine⟩)

private theorem Item.traced : (i : Item) → (∀ t ∈ i.tokens, t.Fits) →
    Gives (Traced i.items i.chain) (i.matcher g)
  | .negated bang o, hfits => by
    have hself := (Item.negated bang o).mem_items
    rw [Item.tokens, List.forall_mem_cons] at hfits
    rw [Item.items] at hself
    rw [Item.matcher, Item.items, Item.chain]
    refine (Operand.traced o hfits.2).andThen fun m hm => ?_
    refine (hm none).andThen fun inner hinner => ?_
    rw [finish_of_settled (settled_negated _ _)]
    refine gives_value (.of_sourced (.plain (by simp)) fun x hx => ?_)
    cases hx with
    | refl => exact .inl rfl
    | inner hx =>
      have hsub : o.items ⊆ o.items ++ [.negated bang o] := List.subset_append_left _ _
      refine .inr ⟨inner, hx, (hinner.mono hsub).sourced ⟨_, hself, ?_⟩⟩
      rw [Item.spine]
  | .plain capture? o, hfits => by
    rw [Item.tokens, List.forall_mem_append] at hfits
    rw [Item.matcher, Item.items, Item.chain]
    refine (Operand.traced o hfits.2).andThen fun m hm => ?_
    exact (hm capture?).mono fun m' hm' => hm'.mono (List.subset_append_left _ _)
  | .repeated capture? b r, hfits => by
    intro w hw
    obtain ⟨m, min, max, hb, hshaped, hbounds, hrepeats, hmany, honce⟩ :=
      Item.Compiles.exists_repeated ⟨hfits, w, hw⟩
    rw [Item.tokens, List.forall_mem_append, List.forall_mem_append] at hfits
    have hm : Traced b.items b.chain m := Basic.traced b hfits.2.1 m hb
    have hm' : Traced (b.items ++ [.repeated capture? b r]) b.chain m :=
      hm.mono (List.subset_append_left _ _)
    obtain ⟨hstands, hspan⟩ := Repeater.stands_bounds hbounds
    rw [Item.items, Item.chain, Repeater.over]
    -- Exactly once adds no wildcard to the matcher and no repeat to the chain.
    by_cases hone : min = 1 ∧ max = 1
    · rw [if_pos (hspan.2 hone)]
      exact hm'.captured hshaped capture? w ((honce hone).symm.trans hw)
    · rw [if_neg (mt hspan.1 hone)]
      obtain rfl := Except.ok.inj ((hmany hone).symm.trans hw)
      exact hm'.around hstands _

/-- The matcher of an operand is not finished before its capture name is known. -/
private theorem Operand.traced : (o : Operand) → (∀ t ∈ o.tokens, t.Fits) →
    Gives (fun m => ∀ capture?, Gives (Traced o.items o.chain) (m.captured capture?))
      (o.matcher g)
  | .optional l c r, hfits => by
    rw [Operand.tokens, List.forall_mem_cons, List.forall_mem_append] at hfits
    rw [Operand.matcher, Operand.items, Operand.chain]
    have hshaped : Gives (Shaped g) ((c.each g).andThen oneOf) :=
      (c.safe_matcher g hfits.2.1).gives
    have htraced : Gives (Traced c.items c.chain) ((c.each g).andThen oneOf) :=
      (Choice.traced_each c hfits.2.1).andThen fun ms hms => hms.oneOf
    have hboth : Gives (fun m => Shaped g m ∧ Traced c.items c.chain m)
        ((c.each g).andThen oneOf) := fun m hm => ⟨hshaped m hm, htraced m hm⟩
    refine hboth.andThen fun m ⟨hm, hm'⟩ => ?_
    rw [repeating_of_valid repeats_zero_one.valid]
    refine gives_value fun capture? => ?_
    rw [captured_around hm repeats_zero_one (by decide)]
    exact gives_value (hm'.around ⟨rfl, .exact (by decide)⟩ _)
  | .basic b, hfits => by
    rw [Operand.tokens] at hfits
    rw [Operand.matcher, Operand.items, Operand.chain]
    intro m hm capture?
    exact (Basic.traced b hfits m hm).captured ((b.safe_matcher g hfits).gives m hm) capture?

private theorem Basic.traced : (b : Basic) → (∀ t ∈ b.tokens, t.Fits) →
    Gives (Traced b.items b.chain) (b.matcher g)
  | .literal w, _ => by
    rw [Basic.matcher, Basic.items, Basic.chain]
    exact traced_literalMatcher _
  | .name w, _ => by
    rw [Basic.matcher, Basic.items, Basic.chain]
    exact traced_nameMatcher _
  | .detailed w l c r, hfits => by
    rw [Basic.tokens, List.forall_mem_cons, List.forall_mem_cons, List.forall_mem_append] at hfits
    rw [Basic.matcher, Basic.items, Basic.chain]
    have hcontent := (Choice.traced_each c hfits.2.2.1).andThen fun ms hms => hms.oneOf
    exact traced_detailedMatcher _ (hcontent.mono fun m hm => hm.sourced c.exists_spine)
  | .group l c r, hfits => by
    rw [Basic.tokens, List.forall_mem_cons, List.forall_mem_append] at hfits
    rw [Basic.matcher, Basic.items, Basic.chain]
    exact (Choice.traced_each c hfits.2.1).andThen fun ms hms => hms.oneOf

end

end

/-! ## Whole patterns -/

/-- A product of upper bounds is infinite only when one of them is. -/
private theorem exists_top_of_prod {rs : List Span} (h : (rs.map Prod.snd).prod = ⊤) :
    ∃ r ∈ rs, r.2 = ⊤ := by
  induction rs with
  | nil => cases h
  | cons r rs ih =>
    rw [List.map_cons, List.prod_cons] at h
    rcases WithTop.mul_eq_top_iff.1 h with ⟨-, hrest⟩ | ⟨hr, -⟩
    · obtain ⟨r', hr', htop⟩ := ih hrest
      exact ⟨r', List.mem_cons_of_mem r hr', htop⟩
    · exact ⟨r, List.mem_cons_self, hr⟩

/-- An upper bound is infinite where one of the repeats is, or where the product is beyond. -/
private theorem Stands.infinite {rs : List Span} {min : Number} (h : Stands rs min .infinity) :
    (∃ r ∈ rs, r.2 = ⊤) ∨ ∃ k : Nat, (rs.map Prod.snd).prod = k ∧ boundLimit < k := by
  have hupper := h.upper
  generalize hprod : (rs.map Prod.snd).prod = P at hupper ⊢
  cases hupper with
  | infinite hbeyond =>
    cases P with
    | top => exact .inl (exists_top_of_prod hprod)
    | coe k => exact .inr ⟨k, rfl, by exact_mod_cast hbeyond⟩

/-- Every unit of a pattern that compiles gives wildcards that stand for its repeats, all of them
and in order. The bounds of each wildcard in the matcher are the products of some repeats of a unit
that stand one around the other; the upper one is exact as long as a repeater may have it. It is
infinite only where one of these repeats is unbounded or where the product is beyond. -/
theorem nests_of_matcherOf {source : Text} {c : Choice} {m : Matcher}
    (hparse : parse source = .ok c.pattern) (hm : g.matcherOf source = .ok m) :
    (∀ i ∈ c.items, ∃ w, (matcherOfTree g i.tree).result = .ok w ∧ Nests i.chain w) ∧
      ∀ as min max name?, Within (wildcard as min max name?) m →
        ∃ i ∈ c.items, ∃ rs, rs <:+: i.spine ∧ Stands rs min max ∧
          (max = .infinity → (∃ r ∈ rs, r.2 = ⊤) ∨
            ∃ k : Nat, (rs.map Prod.snd).prod = k ∧ boundLimit < k) := by
  constructor
  · intro i hi
    obtain ⟨hfits, w, hw⟩ := Choice.compiles hparse hm i hi
    exact ⟨w, (congrArg Outcome.result (i.matcherOfTree_tree g)).trans hw,
      (i.traced g hfits w hw).nests⟩
  · intro as min max name? hwithin
    have htraced : Gives (Traced c.items c.chain) (c.matcher g) :=
      (c.traced_each g (Choice.fits_of_parse hparse)).andThen fun ms hms => hms.oneOf
    have hsourced := (htraced m (Choice.result_of_matcherOf hparse hm)).sourced c.exists_spine
    obtain ⟨rs', hnests, i, hi, hsuffix⟩ := hsourced _ hwithin
    obtain ⟨rs, hprefix, hstands⟩ := hnests.stands
    refine ⟨i, hi, rs, hprefix.isInfix.trans hsuffix.isInfix, hstands, ?_⟩
    rintro rfl
    exact hstands.infinite

/-- Up to three times around up to the largest bound. -/
def roundedRepeat : Item :=
  .repeated none
    (.group (.onFirstLine "(" 0)
      (.single (.single (.repeated none (.name (.onFirstLine "NAME" 1))
        (.between (.onFirstLine "\x7b" 5) (.onFirstLine "0" 6) (.onFirstLine "," 7)
          (.onFirstLine "9007199254740991" 8) (.onFirstLine "\x7d" 24)))))
      (.onFirstLine ")" 25))
    (.between (.onFirstLine "\x7b" 26) (.onFirstLine "0" 27) (.onFirstLine "," 28)
      (.onFirstLine "3" 29) (.onFirstLine "\x7d" 30))

/-- A product beyond the largest bound is rounded: the last digit should be a three. -/
theorem nests_of_matcherOf_rounded :
    parse "(NAME\x7b0,9007199254740991\x7d)\x7b0,3\x7d" =
        .ok (Choice.single (.single roundedRepeat)).pattern ∧
      Grammar.expression.matcherOf "(NAME\x7b0,9007199254740991\x7d)\x7b0,3\x7d" =
        .ok (wildcard [[leaf (some (.int 1)) none none]] 0 (.int 27021597764222972) none) ∧
        ∃ w, (matcherOfTree Grammar.expression roundedRepeat.tree).result = .ok w ∧
          Nests [(0, 3), (0, 9007199254740991)] w := by
  have hparse : parse "(NAME\x7b0,9007199254740991\x7d)\x7b0,3\x7d" =
      .ok (Choice.single (.single roundedRepeat)).pattern :=
    parse_eq_ok_iff_choice.2 ⟨by decide +kernel, _, by decide +kernel, rfl⟩
  have hm : Grammar.expression.matcherOf "(NAME\x7b0,9007199254740991\x7d)\x7b0,3\x7d" =
      .ok (wildcard [[leaf (some (.int 1)) none none]] 0 (.int 27021597764222972) none) :=
    eq_ok_of_toOption (by decide +kernel)
  have hchain : roundedRepeat.chain = [(0, 3), (0, 9007199254740991)] := by decide +kernel
  have hunit := (nests_of_matcherOf hparse hm).1 roundedRepeat roundedRepeat.mem_items
  rw [hchain] at hunit
  exact ⟨hparse, hm, hunit⟩

end TreeMatcher
