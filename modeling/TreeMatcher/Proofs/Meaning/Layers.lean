import Mathlib.Algebra.BigOperators.Group.List.Basic
import TreeMatcher.Proofs.Matcher.Total
import TreeMatcher.Proofs.Meaning.Matcher

/-!
# Normalizing any chain of wildcards

The wildcards at the top of a matcher that is put together by hand, each around the next alone, may
have any bounds and any names. Some of them merge. Where all bounds ascend and the product of the
finite upper bounds is in range, the meaning stays the same.

Without an upper bound of zero every product on the way is in range and exact. An upper bound of
zero makes the whole chain stay where it is, whatever is around it or inside; then products may be
rounded on the way, but the bounds go on ascending and one of the upper bounds goes on being zero.

* `Matcher.layers` — the bounds along the chain, outermost first.
* `finiteMaxima bs` — the finite upper bounds among bounds.
* `Matcher.Vanishes` — bounds that ascend, with an upper bound of zero.

## Main results

* `regular_of_ascending` — bounds that ascend without zero make a matcher regular.
* `Vanishes.composed_eq` — a chain with an upper bound of zero stays where it is.
* `composed_normalize` — normalizing keeps the meaning.
-/

namespace TreeMatcher

universe u

variable {P : Type u}

/-! ## Staying where one is -/

private theorem power_eq (k : Nat) : power (Eq : P → P → Prop) k = Eq := by
  induction k with
  | zero => rfl
  | succ k ih => rw [power, ih, Relation.comp_eq]

/-- To stay, any number of times, is to stay. -/
private theorem repeated_eq {C : Nat → Prop} (h : ∃ k, C k) :
    repeated C (Eq : P → P → Prop) = Eq := by
  obtain ⟨k, hk⟩ := h
  funext p q
  apply propext
  constructor
  · intro ⟨j, _, hj⟩
    rwa [power_eq] at hj
  · intro hpq
    exact ⟨k, hk, by rwa [power_eq]⟩

/-- To go no times is to stay. -/
private theorem repeated_zero {C : Nat → Prop} (h : ∀ k, C k ↔ k = 0) (R : P → P → Prop) :
    repeated C R = Eq := by
  funext p q
  simp [repeated, h]

private theorem Ascending.exists_counts {min max : Number} (h : Ascending min max) :
    ∃ k, Counts min max k := by
  obtain ⟨a, rfl, rfl | ⟨b, rfl, hab⟩⟩ := h
  · exact ⟨a, counts_infinity.2 (Nat.le_refl a)⟩
  · exact ⟨a, counts_int.2 ⟨Nat.le_refl a, hab⟩⟩

private theorem Ascending.counts_zero {min max : Number} (h : Ascending min max) (hmax : max = 0)
    (k : Nat) :
    Counts min max k ↔ k = 0 := by
  obtain ⟨a, rfl, rfl | ⟨b, rfl, hab⟩⟩ := h
  · cases hmax
  · obtain rfl : b = 0 := Int.ofNat.inj (Number.int.inj hmax)
    rw [counts_int]
    omega

/-! ## Products of upper bounds -/

/-- The number of a finite upper bound. -/
def Number.finite? : Number → Option Nat
  | .int n => some n.toNat
  | _ => none

private theorem Number.factor_eq_getD {x : Number} (h : x.finite? ≠ some 0) :
    x.factor = x.finite?.getD 1 := by
  cases x with
  | int n =>
    have hpos : n.toNat ≠ 0 := fun hn => h (congrArg some hn)
    exact Nat.max_eq_right (Nat.one_le_iff_ne_zero.2 hpos)
  | _ => rfl

private theorem Ascending.eq_zero {min max : Number} (h : Ascending min max)
    (hmax : max.finite? = some 0) :
    max = 0 := by
  obtain ⟨a, rfl, rfl | ⟨b, rfl, -⟩⟩ := h
  · cases hmax
  · obtain rfl : b = 0 := by simpa [Number.finite?] using hmax
    rfl

/-- The finite upper bounds among several bounds. -/
def finiteMaxima (bs : List (Number × Number)) : List Nat := bs.filterMap fun b => b.2.finite?

/-- Where none is zero, the product of finite upper bounds is that of their contributions. -/
private theorem prod_finiteMaxima_cons {b : Number × Number} (h : b.2.finite? ≠ some 0)
    (bs : List (Number × Number)) :
    (finiteMaxima (b :: bs)).prod = b.2.factor * (finiteMaxima bs).prod := by
  rw [Number.factor_eq_getD h, finiteMaxima, List.filterMap_cons, ← finiteMaxima]
  cases b.2.finite? with
  | none => exact (Nat.one_mul _).symm
  | some k => exact List.prod_cons

namespace Matcher

/-! ## Chains of wildcards -/

/-- The bounds of the wildcards at the top of a matcher, each around the next alone, outermost
first. -/
def layers : Matcher → List (Number × Number)
  | wildcard [[m]] min max _ => (min, max) :: layers m
  | wildcard _ min max _ => [(min, max)]
  | _ => []

private theorem layers_around (m : Matcher) (min max : Number) (n : Option Text) :
    (wildcard [[m]] min max n).layers = (min, max) :: m.layers := by
  rw [layers]

private theorem layers_group {as : List (List Matcher)} (has : ∀ m, as ≠ [[m]]) (min max : Number)
    (n : Option Text) : (wildcard as min max n).layers = [(min, max)] := by
  unfold layers
  split
  · next heq =>
    cases heq
    exact absurd rfl (has _)
  · next heq =>
    cases heq
    rfl
  · next hne => exact absurd rfl (hne as min max n)

/-- What follows the bounds of a wildcard depends on its alternatives alone. -/
theorem exists_layers (as : List (List Matcher)) :
    ∃ rest, ∀ min max n, (wildcard as min max n).layers = (min, max) :: rest := by
  by_cases h : ∃ m, as = [[m]]
  · obtain ⟨m, rfl⟩ := h
    exact ⟨m.layers, layers_around m⟩
  · exact ⟨[], layers_group fun m hm => h ⟨m, hm⟩⟩

private theorem layers_plain {m : Matcher} (hm : ∀ as min max n, m ≠ wildcard as min max n) :
    m.layers = [] := by
  cases m with
  | wildcard as min max n => exact absurd rfl (hm as min max n)
  | _ => rfl

/-- A chain goes on where a wildcard is around one matcher, and ends at any other wildcard or where
there is none. -/
private theorem chain_induction {motive : Matcher → Prop}
    (around : ∀ m min max n, motive m → motive (wildcard [[m]] min max n))
    (group : ∀ as min max n, (∀ m, as ≠ [[m]]) → motive (wildcard as min max n))
    (plain : ∀ m, (∀ as min max n, m ≠ wildcard as min max n) → motive m) (m : Matcher) :
    motive m := by
  induction m using layers.induct with
  | case1 m min max n ih => exact around m min max n ih
  | case2 as min max n hne => exact group as min max n fun m hm => hne m hm
  | case3 m _ hne => exact plain m fun as min max n hm => hne as min max n hm

/-- The bounds along the chain of a matcher with valid bounds are valid. -/
private theorem valid_layers {m : Matcher} (h : ¬Contains IsInvalid m) :
    ∀ b ∈ m.layers, ValidBounds b.1 b.2 := by
  induction m using chain_induction with
  | around m min max n ih =>
    rw [layers_around, List.forall_mem_cons]
    exact ⟨valid_of_not_contains h, ih (not_contains_of_parts h (List.mem_singleton_self m))⟩
  | group as min max n has =>
    rw [layers_group has, List.forall_mem_singleton]
    exact valid_of_not_contains h
  | plain m hm =>
    rw [layers_plain hm]
    exact List.forall_mem_nil _

/-- Valid bounds of which the lower one is not above the upper one ascend. -/
private theorem ValidBounds.ascending {min max : Number} (h : ValidBounds min max)
    (hle : min.le max) :
    Ascending min max := by
  obtain ⟨hmin, hmax⟩ := h
  obtain ⟨a, rfl⟩ := Number.isNat_iff.1 hmin
  rcases hmax with rfl | hmax
  · exact ascending_infinity a
  · obtain ⟨b, rfl⟩ := Number.isNat_iff.1 hmax
    rw [Number.le_int, decide_eq_true_eq, Int.ofNat_le] at hle
    exact ascending_int hle

/-! ## Chains without zero -/

/-- Along a chain the finite upper bounds multiply to the largest product there is. -/
theorem regular_of_ascending {m : Matcher} (h : ∀ b ∈ m.layers, Ascending b.1 b.2)
    (hzero : ∀ b ∈ m.layers, b.2.finite? ≠ some 0) : Regular (finiteMaxima m.layers).prod m := by
  induction m using chain_induction with
  | around m min max n ih =>
    rw [layers_around] at h hzero ⊢
    rw [List.forall_mem_cons] at h hzero
    rw [prod_finiteMaxima_cons hzero.1]
    exact .around h.1 (Nat.le_refl _) (ih h.2 hzero.2)
  | group as min max n has =>
    rw [layers_group has] at h hzero ⊢
    rw [List.forall_mem_singleton] at h hzero
    rw [prod_finiteMaxima_cons hzero]
    exact .group h (Nat.le_of_eq (Nat.mul_one _).symm) has
  | plain m hm =>
    rw [layers_plain hm]
    exact .plain (Nat.le_refl 1) hm

/-! ## Chains with zero -/

/-- The bounds along a chain ascend, and one of the upper bounds is zero. -/
structure Vanishes (m : Matcher) : Prop where
  ascending : ∀ b ∈ m.layers, Ascending b.1 b.2
  zero : ∃ b ∈ m.layers, b.2 = 0

variable {A : Matcher → P → P → Prop} {m m' : Matcher}

/-- A chain with an upper bound of zero stays where it is. -/
theorem Vanishes.composed_eq (h : Vanishes m) : composed A m = Eq := by
  obtain ⟨hasc, hzero⟩ := h
  induction m using chain_induction with
  | around m min max n ih =>
    rw [layers_around, List.forall_mem_cons] at hasc
    rw [layers_around, List.exists_mem_cons_iff] at hzero
    rw [composed_around]
    rcases hzero with hmax | hzero
    · exact repeated_zero (hasc.1.counts_zero hmax) _
    · rw [ih hasc.2 hzero]
      exact repeated_eq hasc.1.exists_counts
  | group as min max n has =>
    rw [layers_group has, List.forall_mem_singleton] at hasc
    obtain ⟨b, hb, hmax⟩ := hzero
    rw [layers_group has, List.mem_singleton] at hb
    obtain rfl := hb
    rw [composed]
    exact repeated_zero (hasc.counts_zero hmax) _
  | plain m hm =>
    rw [layers_plain hm] at hzero
    simp at hzero

/-- A collapse takes the bounds one and one away, or multiplies the first two bounds: an upper bound
of zero remains, or its product is zero. -/
private theorem Vanishes.collapses (h : Vanishes m) (hc : Collapses m m') : Vanishes m' := by
  obtain ⟨hasc, hzero⟩ := h
  obtain ⟨sub, min, max, rfl, ⟨rfl, rfl, rfl⟩ | ⟨as, min', max', n, rfl, hle, hle', rfl⟩⟩ :=
    collapse_cases hc
  · rw [layers_around, List.forall_mem_cons] at hasc
    rw [layers_around, List.exists_mem_cons_iff] at hzero
    exact ⟨hasc.2, hzero.resolve_left (by decide)⟩
  · obtain ⟨rest, hrest⟩ := exists_layers as
    rw [layers_around, hrest, List.forall_mem_cons, List.forall_mem_cons] at hasc
    rw [layers_around, hrest, List.exists_mem_cons_iff, List.exists_mem_cons_iff] at hzero
    obtain ⟨hb, hb', hbs⟩ := hasc
    constructor
    · rw [hrest, List.forall_mem_cons]
      exact ⟨hb.mul hb' hle hle', hbs⟩
    · rw [hrest, List.exists_mem_cons_iff]
      rcases hzero with rfl | rfl | hzero
      · exact .inl (Number.zero_mulMax hb'.upper)
      · exact .inl (Number.mulMax_zero hb.upper)
      · exact .inr hzero

private theorem Vanishes.normalize (h : Vanishes m) (hm : normalize m = .ok m') : Vanishes m' := by
  refine normalize_related (R := fun m m' => Vanishes m → Vanishes m') (fun _ h => h) ?_ hm h
  intro m m' m'' hc hrest h
  exact hrest (h.collapses hc)

/-! ## Any chain -/

/-- A matcher that is built, with bounds that ascend along the chain of wildcards at its top and
finite upper bounds whose product is in range, has a normal form of the same meaning, whatever
leaves, nodes and negations mean. -/
theorem composed_normalize (A : Matcher → P → P → Prop) (hm : Built m)
    (hascending : ∀ b ∈ m.layers, b.1.le b.2)
    (hlimit : (finiteMaxima m.layers).prod ≤ boundLimit) :
    ∃ r, m.normalize = .ok r ∧ composed A r = composed A m := by
  obtain ⟨r, hr, -⟩ := exists_normalize m hm.valid
  refine ⟨r, hr, ?_⟩
  have hasc (b : Number × Number) (hb : b ∈ m.layers) : Ascending b.1 b.2 :=
    (valid_layers hm.valid b hb).ascending (hascending b hb)
  -- The whole product is zero with one factor, and says nothing of the products on the way.
  by_cases hzero : ∃ b ∈ m.layers, b.2 = 0
  · have hvanishes : Vanishes m := ⟨hasc, hzero⟩
    rw [hvanishes.composed_eq, (hvanishes.normalize hr).composed_eq]
  · have hpos (b : Number × Number) (hb : b ∈ m.layers) : b.2.finite? ≠ some 0 :=
      fun hfinite => hzero ⟨b, hb, (hasc b hb).eq_zero hfinite⟩
    have hexact : boundLimit ≤ Number.exactLimit := by decide
    exact ((regular_of_ascending hasc hpos).normalize (Nat.le_trans hlimit hexact) hr).2

/-- A repeat from zero to two around one from one on, which is around one from zero to three. -/
def nestedRepeats : Matcher :=
  wildcard [[wildcard [[wildcard [[leaf none none none]] 0 3 none]] 1 .infinity none]] 0 2 none

/-- Three repeats collapse into one. -/
theorem composed_normalize_nestedRepeats :
    Built nestedRepeats ∧ nestedRepeats.layers = [(0, 2), (1, .infinity), (0, 3)] ∧
      ∃ r, nestedRepeats.normalize = .ok r ∧ r = wildcard [[leaf none none none]] 0 .infinity none ∧
        composed (fun _ p q => q = p + 1) r =
          composed (fun _ (p q : Nat) => q = p + 1) nestedRepeats := by
  have hlayers : nestedRepeats.layers = [(0, 2), (1, .infinity), (0, 3)] := by
    rw [nestedRepeats, layers_around, layers_around, layers_around, layers_plain (by simp)]
  have hleaf : Built (leaf none none none) := .leaf none none
  have hthree : Built (wildcard [[leaf none none none]] 0 3 none) :=
    .wildcard (by simpa using hleaf) (wildcard?_eq_ok_iff.2 ⟨by decide, .inr (by decide)⟩)
  have hmany : Built (wildcard [[wildcard [[leaf none none none]] 0 3 none]] 1 .infinity none) :=
    .wildcard (by simpa using hthree) (wildcard?_eq_ok_iff.2 ⟨by decide, .inl rfl⟩)
  have hbuilt : Built nestedRepeats :=
    .wildcard (by simpa using hmany) (wildcard?_eq_ok_iff.2 ⟨by decide, .inr (by decide)⟩)
  obtain ⟨r, hr, hsame⟩ := composed_normalize (fun _ (p q : Nat) => q = p + 1) hbuilt
    (by rw [hlayers]; decide) (by rw [hlayers]; decide)
  have hvalue : nestedRepeats.normalize =
      .ok (wildcard [[leaf none none none]] 0 .infinity none) :=
    eq_ok_of_toOption (by decide +kernel)
  obtain rfl := Except.ok.inj (hr.symm.trans hvalue)
  exact ⟨hbuilt, hlayers, _, hr, rfl, hsame⟩

end Matcher

end TreeMatcher
