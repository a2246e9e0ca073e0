import Mathlib.Logic.Relation
import TreeMatcher.Matcher.Basic
import TreeMatcher.Proofs.Number.Bounds

/-!
# Repeating a relation

A relation between positions is repeated by composing it with itself, a number of times that is one
of several counts. Repeating what is repeated already is repeating the relation for the sums of the
counts. Where the counts are those between bounds, and the lower bounds are at most one, the sums
are again the counts between bounds, with none left out between them: the bounds are the products.

* `power R k` — the `k`-fold composition of a relation.
* `repeated C R` — the relation composed as often as one of the counts `C` says.
* `Counts min max` — the counts between two bounds.

## Main results

* `repeated_repeated` — repeating twice is repeating for the sums of counts.
* `counts_mul` — the sums of counts between bounds are the counts between the products.
* `counts_of_composes` — the same for bounds that need not ascend.
-/

namespace TreeMatcher

universe u

variable {P : Type u}

/-! ## Powers -/

/-- A relation composed with itself `k` times. -/
def power (R : P → P → Prop) : Nat → P → P → Prop
  | 0 => Eq
  | k + 1 => Relation.Comp R (power R k)

@[simp] theorem power_zero (R : P → P → Prop) : power R 0 = Eq := rfl

@[simp] theorem power_one (R : P → P → Prop) : power R 1 = R := by
  rw [power, power, Relation.comp_eq]

private theorem power_add (R : P → P → Prop) (j k : Nat) :
    power R (j + k) = Relation.Comp (power R j) (power R k) := by
  induction j with
  | zero => rw [Nat.zero_add, power_zero, Relation.eq_comp]
  | succ j ih => rw [Nat.succ_add, power, ih, power, Relation.comp_assoc]

/-! ## Repeating -/

/-- A relation composed as often as one of several counts says. -/
def repeated (C : Nat → Prop) (R : P → P → Prop) : P → P → Prop :=
  fun p q => ∃ k, C k ∧ power R k p q

theorem repeated_congr {C D : Nat → Prop} (h : ∀ k, C k ↔ D k) (R : P → P → Prop) :
    repeated C R = repeated D R := by
  obtain rfl : C = D := funext fun k => propext (h k)
  rfl

/-- Once is the relation itself. -/
theorem repeated_once {C : Nat → Prop} (h : ∀ k, C k ↔ k = 1) (R : P → P → Prop) :
    repeated C R = R := by
  funext p q
  apply propext
  constructor
  · intro ⟨k, hk, hR⟩
    rwa [(h k).1 hk, power_one] at hR
  · exact fun hR => ⟨1, (h 1).2 rfl, by rwa [power_one]⟩

/-- The sums of `j` counts. -/
def sums (C : Nat → Prop) : Nat → Nat → Prop
  | 0 => fun n => n = 0
  | j + 1 => fun n => ∃ k n', C k ∧ sums C j n' ∧ n = k + n'

private theorem power_repeated (C : Nat → Prop) (R : P → P → Prop) (j : Nat) :
    power (repeated C R) j = repeated (sums C j) R := by
  induction j with
  | zero =>
    funext p q
    simp [repeated, sums]
  | succ j ih =>
    funext p q
    apply propext
    rw [power, ih]
    constructor
    · intro ⟨x, ⟨k, hk, hfirst⟩, n, hn, hrest⟩
      refine ⟨k + n, ⟨k, n, hk, hn, rfl⟩, ?_⟩
      rw [power_add]
      exact ⟨x, hfirst, hrest⟩
    · rintro ⟨_, ⟨k, n, hk, hn, rfl⟩, hR⟩
      rw [power_add] at hR
      obtain ⟨x, hfirst, hrest⟩ := hR
      exact ⟨x, ⟨k, hk, hfirst⟩, n, hn, hrest⟩

/-- Repeating twice is repeating for the sums of counts. -/
theorem repeated_repeated (A C : Nat → Prop) (R : P → P → Prop) :
    repeated A (repeated C R) = repeated (fun n => ∃ j, A j ∧ sums C j n) R := by
  funext p q
  apply propext
  constructor
  · intro ⟨j, hj, hR⟩
    rw [power_repeated] at hR
    obtain ⟨n, hn, hR⟩ := hR
    exact ⟨n, ⟨j, hj, hn⟩, hR⟩
  · intro ⟨n, ⟨j, hj, hn⟩, hR⟩
    refine ⟨j, hj, ?_⟩
    rw [power_repeated]
    exact ⟨n, hn, hR⟩

/-! ## Counts between bounds -/

/-- The counts between two bounds. -/
def Counts (min max : Number) (k : Nat) : Prop := min.le (.int k) ∧ (Number.int k).le max

theorem counts_int {a b k : Nat} : Counts (.int a) (.int b) k ↔ a ≤ k ∧ k ≤ b := by
  rw [Counts, Number.le_int, Number.le_int, decide_eq_true_eq, decide_eq_true_eq, Int.ofNat_le,
    Int.ofNat_le]

theorem counts_infinity {a k : Nat} : Counts (.int a) .infinity k ↔ a ≤ k := by
  have hle : (Number.int k).le .infinity = true := rfl
  rw [Counts, Number.le_int, decide_eq_true_eq, Int.ofNat_le, and_iff_left hle]

theorem counts_one {k : Nat} : Counts 1 1 k ↔ k = 1 := by
  rw [show (1 : Number) = .int (1 : Nat) from rfl, counts_int]
  omega

/-- To repeat at most once is to stay or to go once. -/
theorem repeated_zero_one (R : P → P → Prop) :
    repeated (Counts 0 1) R = fun p q => p = q ∨ R p q := by
  have hcounts : ∀ k, Counts 0 1 k ↔ k = 0 ∨ k = 1 := by
    intro k
    rw [show (0 : Number) = .int (0 : Nat) from rfl, show (1 : Number) = .int (1 : Nat) from rfl,
      counts_int]
    omega
  funext p q
  simp [repeated, hcounts, or_and_right, exists_or]

/-- The sums of counts between finite bounds fill the multiples of the bounds. -/
private theorem sums_int {a b : Nat} (hab : a ≤ b) (j n : Nat) :
    sums (Counts (.int a) (.int b)) j n ↔ j * a ≤ n ∧ n ≤ j * b := by
  induction j generalizing n with
  | zero => simp [sums]
  | succ j ih =>
    have hmul : j * a ≤ j * b := Nat.mul_le_mul_left j hab
    simp only [sums, counts_int, ih, Nat.succ_mul]
    constructor
    · rintro ⟨k, n', hk, hn', rfl⟩
      omega
    · intro hn
      -- As many as fit into the rest are left to the other counts.
      rcases Nat.le_total (n - a) (j * b) with hrest | hrest
      · exact ⟨a, n - a, by omega, by omega, by omega⟩
      · exact ⟨n - j * b, j * b, by omega, by omega, by omega⟩

/-- Without an upper bound they are all from the multiple of the lower bound on. -/
private theorem sums_infinity (a j n : Nat) :
    sums (Counts (.int a) .infinity) j n ↔ j * a ≤ n ∧ (j = 0 → n = 0) := by
  induction j generalizing n with
  | zero => simp [sums]
  | succ j ih =>
    simp only [sums, counts_infinity, ih, Nat.succ_mul]
    constructor
    · rintro ⟨k, n', hk, hn', rfl⟩
      omega
    · intro hn
      refine ⟨n - j * a, j * a, by omega, ⟨Nat.le_refl _, ?_⟩, by omega⟩
      rintro rfl
      exact Nat.zero_mul a

/-! ## Products of bounds -/

/-- A natural lower bound and an upper bound that is not below it. -/
def Ascending (min max : Number) : Prop :=
  ∃ a : Nat, min = .int a ∧ (max = .infinity ∨ ∃ b : Nat, max = .int b ∧ a ≤ b)

theorem ascending_int {a b : Nat} (h : a ≤ b) : Ascending (.int a) (.int b) :=
  ⟨a, rfl, .inr ⟨b, rfl, h⟩⟩

theorem ascending_infinity (a : Nat) : Ascending (.int a) .infinity := ⟨a, rfl, .inl rfl⟩

/-- What an upper bound contributes to products of finite bounds: its number, if it has one other
than zero. -/
def Number.factor : Number → Nat
  | .int n => max 1 n.toNat
  | _ => 1

@[simp] theorem Number.factor_int (n : Nat) : (Number.int n).factor = max 1 n := rfl

@[simp] theorem Number.factor_infinity : Number.infinity.factor = 1 := rfl

section

variable {a b a' b' n : Nat}

/-- With a lower bound of at most one no count between the products is left out. -/
private theorem exists_between (hab : a ≤ b) (hab' : a' ≤ b') (ha' : a' ≤ 1) :
    (∃ j, (a ≤ j ∧ j ≤ b) ∧ j * a' ≤ n ∧ n ≤ j * b') ↔ a * a' ≤ n ∧ n ≤ b * b' := by
  constructor
  · intro ⟨j, ⟨haj, hjb⟩, hle, hge⟩
    exact ⟨Nat.le_trans (Nat.mul_le_mul_right a' haj) hle,
      Nat.le_trans hge (Nat.mul_le_mul_right b' hjb)⟩
  · intro ⟨hle, hge⟩
    rcases (by omega : a' = 0 ∨ a' = 1) with rfl | rfl
    · exact ⟨b, ⟨hab, Nat.le_refl b⟩, by omega, hge⟩
    · refine ⟨min n b, by omega, by omega, ?_⟩
      rcases Nat.le_total n b with hnb | hnb
      · rw [Nat.min_eq_left hnb]
        exact Nat.le_mul_of_pos_right n hab'
      · rwa [Nat.min_eq_right hnb]

private theorem exists_finite_unbounded (hab : a ≤ b) (hb : b ≠ 0) (ha' : a' ≤ 1) :
    (∃ j, (a ≤ j ∧ j ≤ b) ∧ j * a' ≤ n ∧ (j = 0 → n = 0)) ↔ a * a' ≤ n := by
  constructor
  · rintro ⟨j, ⟨haj, -⟩, hle, -⟩
    exact Nat.le_trans (Nat.mul_le_mul_right a' haj) hle
  · intro hle
    rcases (by omega : a' = 0 ∨ a' = 1) with rfl | rfl
    · exact ⟨b, ⟨hab, Nat.le_refl b⟩, by omega, fun h => absurd h hb⟩
    · exact ⟨min n b, by omega, by omega, by omega⟩

private theorem exists_unbounded_finite (hb' : b' ≠ 0) (ha' : a' ≤ 1) :
    (∃ j, a ≤ j ∧ j * a' ≤ n ∧ n ≤ j * b') ↔ a * a' ≤ n := by
  have hpos : 0 < b' := Nat.pos_of_ne_zero hb'
  constructor
  · rintro ⟨j, haj, hle, -⟩
    exact Nat.le_trans (Nat.mul_le_mul_right a' haj) hle
  · intro hle
    rcases (by omega : a' = 0 ∨ a' = 1) with rfl | rfl
    · exact ⟨max a n, Nat.le_max_left a n, by omega,
        Nat.le_trans (Nat.le_max_right a n) (Nat.le_mul_of_pos_right _ hpos)⟩
    · exact ⟨n, by omega, by omega, Nat.le_mul_of_pos_right n hpos⟩

private theorem exists_unbounded (ha' : a' ≤ 1) :
    (∃ j, a ≤ j ∧ j * a' ≤ n ∧ (j = 0 → n = 0)) ↔ a * a' ≤ n := by
  constructor
  · rintro ⟨j, haj, hle, -⟩
    exact Nat.le_trans (Nat.mul_le_mul_right a' haj) hle
  · intro hle
    rcases (by omega : a' = 0 ∨ a' = 1) with rfl | rfl
    · exact ⟨a + 1, by omega, by omega, by omega⟩
    · exact ⟨n, by omega, by omega, id⟩

end

/-- Finite upper bounds are multiplied exactly. -/
def MultipliesExactly (max max' : Number) : Prop :=
  ∀ b b' : Nat, max = .int b → max' = .int b' → max.mulMax max' = .int (b * b' : Nat)

/-- The sums of counts between bounds that ascend are the counts between the products of the
bounds. -/
private theorem counts_mul_exact {min max min' max' : Number} (h : Ascending min max)
    (h' : Ascending min' max') (hle : min.le 1) (hle' : min'.le 1)
    (hexact : MultipliesExactly max max') (n : Nat) :
    (∃ j, Counts min max j ∧ sums (Counts min' max') j n) ↔
      Counts (min.mul min') (max.mulMax max') n := by
  obtain ⟨a, rfl, hmax⟩ := h
  obtain ⟨a', rfl, hmax'⟩ := h'
  have ha : a ≤ 1 := Number.le_one_iff.1 hle
  have ha' : a' ≤ 1 := Number.le_one_iff.1 hle'
  rw [Number.mul_of_le_one ha ha']
  rcases hmax with rfl | ⟨b, rfl, hab⟩ <;> rcases hmax' with rfl | ⟨b', rfl, hab'⟩
  · simp only [counts_infinity, sums_infinity, exists_unbounded ha']
    exact counts_infinity.symm
  · rw [Number.mulMax_infinity_int]
    simp only [counts_infinity, sums_int hab']
    by_cases hb' : b' = 0
    · obtain rfl : a' = 0 := by omega
      rw [if_pos hb', hb', show (Number.int 0) = .int (0 : Nat) from rfl, counts_int]
      exact ⟨fun ⟨j, _, _, hn⟩ => by omega, fun hn => ⟨a, Nat.le_refl a, by omega, by omega⟩⟩
    · rw [if_neg hb', counts_infinity, exists_unbounded_finite hb' ha']
  · rw [Number.mulMax_int_infinity]
    simp only [counts_int, sums_infinity]
    by_cases hb : b = 0
    · obtain rfl : a = 0 := by omega
      rw [if_pos hb, hb, show (Number.int 0) = .int (0 : Nat) from rfl, counts_int]
      constructor
      · rintro ⟨j, ⟨-, hj⟩, -, hn⟩
        have := hn (by omega)
        omega
      · exact fun hn => ⟨0, ⟨Nat.le_refl 0, Nat.le_refl 0⟩, by omega, fun _ => by omega⟩
    · rw [if_neg hb, counts_infinity, exists_finite_unbounded hab hb ha']
  · simp only [counts_int, sums_int hab']
    rw [hexact b b' rfl rfl, counts_int, exists_between hab hab' ha']

/-- Up to the limit of exactness finite upper bounds are multiplied exactly. -/
theorem counts_mul {min max min' max' : Number} (h : Ascending min max) (h' : Ascending min' max')
    (hle : min.le 1) (hle' : min'.le 1) (hlimit : max.factor * max'.factor ≤ Number.exactLimit)
    (n : Nat) :
    (∃ j, Counts min max j ∧ sums (Counts min' max') j n) ↔
      Counts (min.mul min') (max.mulMax max') n := by
  refine counts_mul_exact h h' hle hle' ?_ n
  rintro b b' rfl rfl
  refine Number.mulMax_natCast (Nat.le_trans (Nat.mul_le_mul ?_ ?_) hlimit)
  · exact Nat.le_max_right 1 b
  · exact Nat.le_max_right 1 b'

/-! ### Bounds that do not ascend -/

open Matcher (ValidBounds)

/-- Repeating twice comes to the products of the bounds: finite upper bounds are multiplied exactly,
and it is not that the outer bounds leave no count while the inner ones begin at zero. -/
def Composes (min max min' max' : Number) : Prop :=
  ¬(min = 1 ∧ max = 0 ∧ min' = 0) ∧ MultipliesExactly max max'

private theorem not_counts_one_zero (k : Nat) : ¬Counts 1 0 k := by
  rw [show (1 : Number) = .int (1 : Nat) from rfl, show (0 : Number) = .int (0 : Nat) from rfl,
    counts_int]
  omega

/-- Where there is no count, no sum is left but that of no counts at all. -/
private theorem sums_one_zero {j n : Nat} : sums (Counts 1 0) j n ↔ j = 0 ∧ n = 0 := by
  cases j with
  | zero => simp [sums]
  | succ j => simp [sums, not_counts_one_zero]

/-- With a lower bound of at most one, bounds ascend or leave no count. -/
private theorem ascending_or_empty {min max : Number} (h : ValidBounds min max) (hle : min.le 1) :
    Ascending min max ∨ min = 1 ∧ max = 0 := by
  obtain ⟨hmin, hmax⟩ := h
  obtain ⟨a, rfl⟩ := Number.isNat_iff.1 hmin
  have ha : a ≤ 1 := Number.le_one_iff.1 hle
  rcases hmax with rfl | hmax
  · exact .inl (ascending_infinity a)
  · obtain ⟨b, rfl⟩ := Number.isNat_iff.1 hmax
    by_cases hab : a ≤ b
    · exact .inl (ascending_int hab)
    · obtain ⟨rfl, rfl⟩ : a = 1 ∧ b = 0 := by omega
      exact .inr ⟨rfl, rfl⟩

/-- Around bounds that leave no count, only no counts at all are left, which the outer lower bound
admits or not. -/
private theorem counts_mul_one_zero {min max : Number} (h : Ascending min max) (hle : min.le 1)
    (n : Nat) :
    (∃ j, Counts min max j ∧ sums (Counts 1 0) j n) ↔ Counts (min.mul 1) (max.mulMax 0) n := by
  obtain ⟨a, rfl, hmax⟩ := h
  have hmin : (Number.int a).mul 1 = .int a := by
    have hmul := Number.mul_of_le_one (Number.le_one_iff.1 hle) (Nat.le_refl 1)
    rwa [Nat.mul_one] at hmul
  have hfirst : Counts (.int a) max 0 ↔ a = 0 := by
    rcases hmax with rfl | ⟨b, rfl, -⟩
    · rw [counts_infinity]
      omega
    · rw [counts_int]
      omega
  have hzero : max.mulMax 0 = .int (0 : Nat) := by
    rcases hmax with rfl | ⟨b, rfl, -⟩
    · exact Number.mulMax_zero (.inl rfl)
    · exact Number.mulMax_zero (.inr (Number.isNat_int b))
  rw [hmin, hzero, counts_int]
  constructor
  · rintro ⟨j, hj, hsum⟩
    obtain ⟨rfl, rfl⟩ := sums_one_zero.1 hsum
    have := hfirst.1 hj
    omega
  · intro hn
    exact ⟨0, hfirst.2 (by omega), sums_one_zero.2 ⟨rfl, by omega⟩⟩

/-- The sums of counts between bounds that compose are the counts between the products of the
bounds. -/
theorem counts_of_composes {min max min' max' : Number} (hb : ValidBounds min max)
    (hb' : ValidBounds min' max') (hle : min.le 1) (hle' : min'.le 1)
    (h : Composes min max min' max') (n : Nat) :
    (∃ j, Counts min max j ∧ sums (Counts min' max') j n) ↔
      Counts (min.mul min') (max.mulMax max') n := by
  rcases ascending_or_empty hb hle with hasc | ⟨rfl, rfl⟩
  · rcases ascending_or_empty hb' hle' with hasc' | ⟨rfl, rfl⟩
    · exact counts_mul_exact hasc hasc' hle hle' h.2 n
    · exact counts_mul_one_zero hasc hle n
  · obtain rfl : min' = 1 := by
      obtain ⟨a, rfl⟩ := Number.isNat_iff.1 hb'.1
      have ha : a ≤ 1 := Number.le_one_iff.1 hle'
      have hne : a ≠ 0 := fun ha => h.1 ⟨rfl, rfl, by rw [ha]; rfl⟩
      obtain rfl : a = 1 := by omega
      rfl
    rw [Number.zero_mulMax hb'.2]
    exact iff_of_false (fun ⟨j, hj, _⟩ => not_counts_one_zero j hj) (not_counts_one_zero n)

/-! ### What products contribute to others -/

theorem Number.one_le_factor (x : Number) : 1 ≤ x.factor := by
  cases x with
  | int n => exact Nat.le_max_left 1 n.toNat
  | _ => exact Nat.le_refl 1

/-- What a product contributes is no more than the factors together, up to the limit of
exactness. -/
theorem Number.factor_mulMax {max max' : Number} (hmax : max = .infinity ∨ max.isNat)
    (hmax' : max' = .infinity ∨ max'.isNat)
    (hlimit : max.factor * max'.factor ≤ Number.exactLimit) :
    (max.mulMax max').factor ≤ max.factor * max'.factor := by
  have hpos : 1 ≤ max.factor * max'.factor :=
    Nat.mul_le_mul (Number.one_le_factor max) (Number.one_le_factor max')
  simp only [isNat_iff] at hmax hmax'
  rcases hmax with rfl | ⟨b, rfl⟩ <;> rcases hmax' with rfl | ⟨b', rfl⟩
  · exact hpos
  · rw [Number.mulMax_infinity_int]
    split <;> exact hpos
  · rw [Number.mulMax_int_infinity]
    split <;> exact hpos
  · have hprod : b * b' ≤ (Number.int b).factor * (Number.int b').factor :=
      Nat.mul_le_mul (Nat.le_max_right 1 b) (Nat.le_max_right 1 b')
    rw [Number.mulMax_natCast (Nat.le_trans hprod hlimit)]
    exact Nat.max_le.2 ⟨hpos, hprod⟩

theorem Ascending.upper {min max : Number} (h : Ascending min max) :
    max = .infinity ∨ max.isNat := by
  obtain ⟨a, rfl, hmax⟩ := h
  exact hmax.imp_right fun ⟨b, hb, _⟩ => Number.isNat_iff.2 ⟨b, hb⟩

/-- The products of bounds that ascend do so, too. A product of finite upper bounds that is rounded
is at least the limit of exactness, so it is above the lower bound, which is at most one. -/
theorem Ascending.mul {min max min' max' : Number} (h : Ascending min max)
    (h' : Ascending min' max') (hle : min.le 1) (hle' : min'.le 1) :
    Ascending (min.mul min') (max.mulMax max') := by
  obtain ⟨a, rfl, hmax⟩ := h
  obtain ⟨a', rfl, hmax'⟩ := h'
  have ha : a ≤ 1 := Number.le_one_iff.1 hle
  have ha' : a' ≤ 1 := Number.le_one_iff.1 hle'
  rw [Number.mul_of_le_one ha ha']
  rcases hmax with rfl | ⟨b, rfl, hab⟩ <;> rcases hmax' with rfl | ⟨b', rfl, hab'⟩
  · exact ascending_infinity _
  · rw [Number.mulMax_infinity_int]
    by_cases hb' : b' = 0
    · obtain rfl : a' = 0 := by omega
      rw [if_pos hb']
      exact ascending_int (Nat.le_refl 0)
    · rw [if_neg hb']
      exact ascending_infinity _
  · rw [Number.mulMax_int_infinity]
    by_cases hb : b = 0
    · obtain rfl : a = 0 := by omega
      rw [if_pos hb, Nat.zero_mul]
      exact ascending_int (Nat.le_refl 0)
    · rw [if_neg hb]
      exact ascending_infinity _
  · rw [Number.mulMax_int_int]
    rcases Number.ofInt_natCast (b * b') with hinf | ⟨c, hc, hexact, hlarge⟩
    · rw [hinf]
      exact ascending_infinity _
    · rw [hc]
      apply ascending_int
      by_cases hlimit : b * b' ≤ Number.exactLimit
      · rw [hexact hlimit]
        exact Nat.mul_le_mul hab hab'
      · calc a * a' ≤ 1 := Nat.mul_le_mul ha ha'
          _ ≤ Number.exactLimit := by decide
          _ ≤ c := hlarge (Nat.lt_of_not_le hlimit)

end TreeMatcher
