import Mathlib.Data.ENat.Basic
import Mathlib.Data.List.Sublists
import TreeMatcher.Proofs.Compile.Excerpt
import TreeMatcher.Proofs.Compile.Written
import TreeMatcher.Proofs.Meaning.Layers
import TreeMatcher.Proofs.Pattern.Continued
import TreeMatcher.Proofs.Repeat.Units
import TreeMatcher.Proofs.Spelling.RoundTrip

/-!
# Repeats around repeats

A source in parentheses under a repeat, in parentheses again under another one, compiles as under
the one repeat that has the products as bounds. A repeat from one to one leaves no trace. Around any
other matcher than a wildcard that merges, the inner repeat becomes a wildcard of its own, which
merges with the outer repeat; around a wildcard that merges, both repeats become part of it, one
after the other or at once.

The closing parenthesis stands on a line of its own, where no comment of the source swallows it.

* `underRepeat s a b` — a source in parentheses under a repeat.
* `upper b` — an upper bound, which may be infinite, as a number.
* `ProductsInRange bs` — the products of several finite upper bounds are numbers up to the limit.

## Main results

* `matcherOf_underRepeat` — such a source compiles to the matcher of the source, wrapped.
* `around_around` — a wildcard around a wildcard around a matcher is one in the products.
* `wrapped_wrapped` — two repeats wrap a matcher as their product does.
* `nested_repeats_multiply` — nested repeats compose by multiplication.
-/

namespace TreeMatcher

open Outcome Grammar Matcher

variable {g : Grammar} {s : Text} {m : Matcher} {a c : Nat} {b d f : ℕ∞}

/-! ## Sources under a repeat -/

/-- The text of a repeat from `a` to `b` times; without an upper bound it is `*` or `+`. -/
def repeatText (a : Nat) (b : ℕ∞) : Text :=
  if b = ⊤ then if a = 0 then "*" else "+"
  else "\x7b" ++ Text.ofNat a ++ "," ++ Text.ofNat b.toNat ++ "\x7d"

/-- A source in parentheses under a repeat, the closing one at the beginning of a line. -/
def underRepeat (s : Text) (a : Nat) (b : ℕ∞) : Text :=
  "(" ++ s ++ "\n)" ++ repeatText a b

/-- The repeater that the text of a repeat is read as. -/
def repeatOf (a : Nat) (b : ℕ∞) : Repeater :=
  if b = ⊤ then if a = 0 then .star (markWord 0x2A) else .plus (markWord 0x2B)
  else .between (markWord 0x7B) (boundWord a) (markWord 0x2C) (boundWord b.toNat) (markWord 0x7D)

/-- The unit that a source in parentheses under a repeat is read as. -/
def repeatedGroup (c : Choice) (a : Nat) (b : ℕ∞) : Item :=
  .repeated none (.group (markWord 0x28) c (markWord 0x29)) (repeatOf a b)

/-- An upper bound as a number. -/
def upper (b : ℕ∞) : Number := if b = ⊤ then .infinity else .int b.toNat

@[simp] theorem upper_top : upper ⊤ = .infinity := rfl

@[simp] theorem upper_coe (n : Nat) : upper n = .int n := rfl

/-- An upper bound that a repeater may have. -/
def InRange (b : ℕ∞) : Prop := ∀ n : Nat, b = n → n ≤ boundLimit

theorem inRange_natCast (n : Nat) (h : n ≤ boundLimit) : InRange n := by
  intro k hk
  rwa [← Nat.cast_inj.1 hk]

private theorem text_repeatOf (ha : a ≤ boundLimit) (hb : InRange b) :
    (repeatOf a b).text = repeatText a b := by
  cases b with
  | top =>
    rw [repeatOf, repeatText, if_pos rfl, if_pos rfl]
    split <;> rfl
  | coe n =>
    have hword {k : Nat} (hk : k ≤ boundLimit) : (boundWord k).text = Text.ofNat k :=
      Number.toText_of_le hk
    rw [repeatOf, repeatText, if_neg (ENat.natCast_ne_top n), if_neg (ENat.natCast_ne_top n),
      ENat.toNat_natCast, Repeater.text, hword ha, hword (hb n rfl)]
    simp only [List.append_assoc]
    rfl

private theorem legible_repeatOf (ha : a ≤ boundLimit) (hb : InRange b) :
    ∀ t ∈ (repeatOf a b).tokens, t.Legible False := by
  have hword {k : Nat} (hk : k ≤ boundLimit) : ((boundWord k).token .number).Legible False :=
    legible_boundWord fun h => absurd hk (Nat.not_le.2 h)
  cases b with
  | top =>
    rw [repeatOf, if_pos rfl]
    split <;> simpa [Repeater.tokens] using legible_mark rfl
  | coe n =>
    rw [repeatOf, if_neg (ENat.natCast_ne_top n), ENat.toNat_natCast]
    simpa [Repeater.tokens] using
      ⟨legible_mark rfl, hword ha, legible_mark rfl, hword (hb n rfl), legible_mark rfl⟩

private theorem bounds_repeatOf (ha : a ≤ 1) (hb : InRange b) :
    (repeatOf a b).bounds = .ok (.int a, upper b) := by
  have hlimit : a ≤ boundLimit := Nat.le_trans ha (by decide)
  cases b with
  | top =>
    rw [repeatOf, if_pos rfl]
    rcases (by omega : a = 0 ∨ a = 1) with rfl | rfl <;> rfl
  | coe n =>
    rw [repeatOf, if_neg (ENat.natCast_ne_top n), ENat.toNat_natCast, Repeater.bounds,
      boundOf_boundWord hlimit, boundOf_boundWord (hb n rfl)]
    rfl

private theorem repeats_upper (ha : a ≤ 1) (b : ℕ∞) : Repeats (.int a) (upper b) := by
  cases b with
  | top => exact repeats_infinity a ha
  | coe n => exact repeats_int a n (Nat.le_trans ha (by decide))

private theorem quoteless_ofNat (n : Nat) : Quoteless (Text.ofNat n) := by
  have hdigits := Text.isDecimal_ofNat n
  rw [Text.isDecimal, Bool.and_eq_true, List.all_eq_true] at hdigits
  intro c hc
  have hdigit := hdigits.2 c hc
  grind [CodeUnit.isDigit, CodeUnit.isQuote]

private theorem quoteless_repeatText (a : Nat) (b : ℕ∞) : Quoteless (repeatText a b) := by
  have hopen : Quoteless "\x7b" := by decide
  have hcomma : Quoteless "," := by decide
  have hclose : Quoteless "\x7d" := by decide
  rw [repeatText]
  split
  · split <;> decide
  · exact (((hopen.append (quoteless_ofNat a)).append hcomma).append (quoteless_ofNat _)).append
      hclose

/-! ## What they compile to -/

/-- A source that compiles is lexed, and its tokens are those of a phrase that compiles alike. -/
theorem exists_choice_of_matcherOf (hm : g.matcherOf s = .ok m) :
    unrecognized s = [] ∧ ∃ c : Choice, tokens s = c.tokens ∧ (c.matcher g).result = .ok m := by
  obtain ⟨tree, hparse⟩ := exists_tree_of_matcherOf hm
  obtain ⟨hlex, c, htokens, rfl⟩ := parse_eq_ok_iff_choice.1 hparse
  exact ⟨hlex, c, htokens, Choice.result_of_matcherOf hparse hm⟩

/-- A group under a repeater compiles to the matcher of the group, wrapped in the bounds. -/
theorem result_repeated_group {c : Choice} {r : Repeater} {min max : Number} (l l' : Word)
    (hc : (c.matcher g).result = .ok m) (hm : Shaped g m) (hbounds : r.bounds = .ok (min, max))
    (hb : Repeats min max) :
    ((Item.repeated none (.group l c l') r).matcher g).result = .ok (m.wrapped min max none) := by
  have hrepeat := result_repeatMatcher hm.settled (r.boundsOf_trees.trans hbounds) hb.valid
  rw [Item.matcher, Basic.matcher, ← Choice.matcher, bind_eq_andThen, result_andThen_of_ok hc,
    bind_eq_andThen, result_andThen_of_ok hrepeat, wrapped]
  by_cases hone : min = 1 ∧ max = 1
  · rw [if_pos hone, if_pos hone]
    exact congrArg Outcome.result (finish_of_settled hm.settled)
  · rw [if_neg hone, if_neg hone]
    exact congrArg Outcome.result (captured_around hm hb hone none)

private theorem scans_underRepeat (ha : a ≤ boundLimit) (hb : InRange b)
    (hlex : unrecognized s = []) :
    Scans (underRepeat s a b)
      ((TokenKind.lpar, [0x28]) :: ((tokens s).map Token.bare ++ [(TokenKind.rpar, [0x29])]) ++
        (repeatOf a b).tokens.map Token.bare) [] := by
  have hgroup := scans_enclosed (o := TokenKind.lpar) (k := TokenKind.rpar) rfl rfl
    (quoteless_repeatText a b) hlex
  have hrepeat : Scans (repeatText a b) ((repeatOf a b).tokens.map Token.bare) [] := by
    have hreads := (repeatOf a b).reads (legible_repeatOf ha hb) []
    rw [List.append_nil, text_repeatOf ha hb] at hreads
    exact hreads.resolve_right fun h => h.1
  have htext : underRepeat s a b =
      0x28 :: (s ++ CodeUnit.lineFeed :: 0x29 :: repeatText a b) := by
    rw [underRepeat, List.append_assoc, List.append_assoc]
    rfl
  rw [htext]
  exact hgroup.append hrepeat

/-- A source in parentheses under a repeat compiles to its matcher, wrapped in the bounds. -/
theorem matcherOf_underRepeat (hm : g.matcherOf s = .ok m) (ha : a ≤ 1) (hb : InRange b) :
    g.matcherOf (underRepeat s a b) = .ok (m.wrapped (.int a) (upper b) none) := by
  have hlimit : a ≤ boundLimit := Nat.le_trans ha (by decide)
  obtain ⟨hlex, c, htokens, hc⟩ := exists_choice_of_matcherOf hm
  obtain ⟨hlex', hwords⟩ := (scans_underRepeat hlimit hb hlex).lexed
  have htokens' : (tokens (underRepeat s a b)).map Token.bare =
      (Choice.single (.single (repeatedGroup c a b))).tokens.map Token.bare := by
    rw [hwords, htokens, Choice.tokens, Sequence.tokens, repeatedGroup, Item.tokens, Basic.tokens,
      captureTokens]
    simp only [List.nil_append, List.cons_append, List.map_cons, List.map_append, List.map_nil]
    rfl
  rw [matcherOf_eq_ok_iff hlex' htokens', Choice.matcher_single, Sequence.matcher_single]
  exact result_repeated_group _ _ hc (shaped_of_matcherOf hm) (bounds_repeatOf ha hb)
    (repeats_upper ha b)

/-! ## Products of bounds -/

/-- Lower bounds of at most one multiply in any order. -/
private theorem mul_assoc_of_le_one {i : Nat} (ha : a ≤ 1) (hc : c ≤ 1) (hi : i ≤ 1) :
    Number.mul (.int a) (Number.mul (.int c) (.int i)) =
      Number.mul (Number.mul (.int a) (.int c)) (.int i) := by
  rw [Number.mul_of_le_one hc hi, Number.mul_of_le_one ha (Nat.mul_le_mul hc hi),
    Number.mul_of_le_one ha hc, Number.mul_of_le_one (Nat.mul_le_mul ha hc) hi, Nat.mul_assoc]

/-- Finite upper bounds have a product that is a number. -/
def FitTogether (b d : ℕ∞) : Prop := ∀ n k : Nat, b = n → d = k → n * k ≤ Number.exactLimit

/-- Where finite bounds have a product that is a number, upper bounds are multiplied exactly. -/
private theorem mulMax_upper (h : FitTogether b d) :
    (upper b).mulMax (upper d) = upper (b * d) := by
  cases b with
  | top =>
    cases d with
    | top => rfl
    | coe k =>
      rw [upper_top, upper_coe, Number.mulMax_infinity_int]
      by_cases hk : k = 0
      · rw [if_pos hk, hk, Nat.cast_zero, mul_zero]
        rfl
      · rw [if_neg hk, ENat.top_mul (Nat.cast_ne_zero.2 hk), upper_top]
  | coe n =>
    cases d with
    | top =>
      rw [upper_top, upper_coe, Number.mulMax_int_infinity]
      by_cases hn : n = 0
      · rw [if_pos hn, hn, Nat.cast_zero, zero_mul]
        rfl
      · rw [if_neg hn, ENat.mul_top (Nat.cast_ne_zero.2 hn), upper_top]
    | coe k => exact Number.mulMax_natCast (h n k rfl rfl)

/-- A finite product is zero, or its factors are finite. -/
private theorem zero_or_finite_of_mul {n : Nat} (h : b * d = n) :
    n = 0 ∨ ∃ k l : Nat, b = k ∧ d = l ∧ n = k * l := by
  have hfinite : b * d ≠ ⊤ := h ▸ ENat.natCast_ne_top n
  by_cases hb : b = 0
  · rw [hb, zero_mul] at h
    exact .inl (Nat.cast_eq_zero.1 h.symm)
  · by_cases hd : d = 0
    · rw [hd, mul_zero] at h
      exact .inl (Nat.cast_eq_zero.1 h.symm)
    · cases b with
      | top => exact absurd (ENat.top_mul hd) hfinite
      | coe k =>
        cases d with
        | top => exact absurd (ENat.mul_top hb) hfinite
        | coe l => exact .inr ⟨k, l, rfl, rfl, by exact_mod_cast h.symm⟩

private theorem upper_eq_one : upper b = 1 ↔ b = 1 := by
  cases b with
  | top => simp [upper_top]
  | coe n =>
    rw [upper_coe, Nat.cast_eq_one]
    constructor
    · intro h
      exact Int.ofNat.inj (Number.int.inj h)
    · rintro rfl
      rfl

private theorem exists_upper {max : Number} (h : max = .infinity ∨ max.isNat) :
    ∃ b, max = upper b := by
  rcases h with rfl | h
  · exact ⟨⊤, rfl⟩
  · obtain ⟨n, rfl⟩ := Number.isNat_iff.1 h
    exact ⟨n, rfl⟩

@[simp] theorem finite?_upper_coe (n : Nat) : (upper n).finite? = some n := rfl

/-- The products of two or more finite upper bounds, in any combination, are in range. -/
def ProductsInRange (bs : List (Number × Number)) : Prop :=
  ∀ ks : List Nat, ks.Sublist (finiteMaxima bs) → 2 ≤ ks.length → ks.prod ≤ boundLimit

namespace ProductsInRange

variable {bs bs' : List (Number × Number)} {x y z : Number}

private theorem sublist (h : ProductsInRange bs) (hsub : bs'.Sublist bs) : ProductsInRange bs' :=
  fun ks hks => h ks (hks.trans (hsub.filterMap _))

private theorem two {n k : Nat} (h : ProductsInRange [(x, upper n), (y, upper k)]) :
    n * k ≤ boundLimit := by
  simpa using h [n, k] (List.Sublist.refl _) (by simp)

private theorem three {n k l : Nat}
    (h : ProductsInRange [(x, upper n), (y, upper k), (z, upper l)]) :
    n * k * l ≤ boundLimit := by
  simpa [mul_assoc] using h [n, k, l] (List.Sublist.refl _) (by simp)

private theorem fitTogether (h : ProductsInRange [(x, upper b), (y, upper d)]) :
    FitTogether b d := by
  rintro n k rfl rfl
  exact Nat.le_trans h.two (by decide)

/-- The product of two upper bounds that are in range is in range. -/
private theorem inRange_mul (h : ProductsInRange [(x, upper b), (y, upper d)]) :
    InRange (b * d) := by
  intro n hn
  rcases zero_or_finite_of_mul hn with rfl | ⟨k, l, rfl, rfl, rfl⟩
  · exact Nat.zero_le _
  · exact h.two

private theorem fitTogether_mul (h : ProductsInRange [(x, upper b), (y, upper d), (z, upper f)]) :
    FitTogether (b * d) f ∧ FitTogether b (d * f) := by
  constructor
  · rintro n l hn rfl
    rcases zero_or_finite_of_mul hn with rfl | ⟨n, k, rfl, rfl, rfl⟩
    · rw [Nat.zero_mul]
      exact Nat.zero_le _
    · exact Nat.le_trans h.three (by decide)
  · rintro n l rfl hl
    rcases zero_or_finite_of_mul hl with rfl | ⟨k, l, rfl, rfl, rfl⟩
    · exact Nat.zero_le _
    · rw [← Nat.mul_assoc]
      exact Nat.le_trans h.three (by decide)

/-- Where all products are in range, three upper bounds multiply in any order. -/
private theorem mulMax_assoc (h : ProductsInRange [(x, upper b), (y, upper d), (z, upper f)]) :
    (upper b).mulMax ((upper d).mulMax (upper f)) =
      ((upper b).mulMax (upper d)).mulMax (upper f) := by
  obtain ⟨hleft, hright⟩ := h.fitTogether_mul
  have hbd : FitTogether b d :=
    (h.sublist (.cons_cons _ (.cons_cons _ (.cons _ .slnil)))).fitTogether
  have hdf : FitTogether d f := (h.sublist (.cons _ (.refl _))).fitTogether
  rw [mulMax_upper hdf, mulMax_upper hright, mulMax_upper hbd, mulMax_upper hleft, mul_assoc]

end ProductsInRange

/-! ## Wrapping twice -/

namespace Matcher

/-- A wildcard around a wildcard around a matcher, each merged where it can be, is one wildcard with
the products as bounds. Where the matcher itself merges, its bounds are a factor in any order. -/
theorem around_around {min max min' max' : Number} (hle : min.le 1) (hle' : min'.le 1)
    (hprod : (min.mul min').le 1)
    (hassoc : ∀ as e f, m = wildcard as e f none → e.le 1 → (min'.mul e).le 1 ∧
      min.mul (min'.mul e) = (min.mul min').mul e ∧
        max.mulMax (max'.mulMax f) = (max.mulMax max').mulMax f) :
    (m.around min' max' none).around min max none =
      m.around (min.mul min') (max.mulMax max') none := by
  by_cases hmerge : Merges min' none m
  · cases m with
    | wildcard as e f name? =>
      obtain ⟨-, he, rfl⟩ := hmerge
      obtain ⟨hinner, hmin, hmax⟩ := hassoc as e f rfl he
      rw [around_of_merges hle' he, around_of_merges hle hinner, around_of_merges hprod he, hmin,
        hmax]
    | _ => exact absurd hmerge (fun h => h)
  · have hmerge' : ¬Merges (min.mul min') none m := by
      cases m with
      | wildcard as e f name? => exact fun h => hmerge ⟨hle', h.2⟩
      | _ => exact fun h => h
    -- The inner repeat stays outside of `m` and is what the outer one merges with.
    rw [around_of_not_merges hmerge, around_of_merges hle hle', around_of_not_merges hmerge']

theorem wrapped_once {min max : Number} (hone : min = 1 ∧ max = 1) :
    m.wrapped min max none = m := if_pos hone

/-- Repeats whose bounds have products in range, with those of the wildcard they are around, wrap a
matcher one after the other as their product does at once. -/
theorem wrapped_wrapped (hm : Shaped g m) (ha : a ≤ 1) (hc : c ≤ 1)
    (hprod : ProductsInRange ((.int a, upper b) :: (.int c, upper d) :: m.layers.take 1)) :
    (m.wrapped (.int c) (upper d) none).wrapped (.int a) (upper b) none =
      m.wrapped (.int (a * c : Nat)) (upper (b * d)) none := by
  have hone {i : Nat} {f : ℕ∞} (h : (.int i : Number) = 1 ∧ upper f = 1) : i = 1 ∧ f = 1 :=
    ⟨Int.ofNat.inj (Number.int.inj h.1), upper_eq_one.1 h.2⟩
  have hbd : FitTogether b d :=
    (hprod.sublist (.cons_cons _ (.cons_cons _ (List.nil_sublist _)))).fitTogether
  have hmin : Number.mul (.int a) (.int c) = .int (a * c : Nat) := Number.mul_of_le_one ha hc
  have hmax : (upper b).mulMax (upper d) = upper (b * d) := mulMax_upper hbd
  have hle : (Number.int a).le 1 := Number.le_one_iff.2 ha
  have hle' : (Number.int c).le 1 := Number.le_one_iff.2 hc
  -- A repeat from one to one puts nothing around the matcher, so it cannot take part in merging.
  by_cases hinner : (.int c : Number) = 1 ∧ upper d = 1
  · rw [wrapped_once hinner]
    obtain ⟨rfl, rfl⟩ := hone hinner
    rw [Nat.mul_one, mul_one]
  · by_cases houter : (.int a : Number) = 1 ∧ upper b = 1
    · rw [wrapped_once houter]
      obtain ⟨rfl, rfl⟩ := hone houter
      rw [Nat.one_mul, one_mul]
    · have hboth : ¬((.int (a * c : Nat) : Number) = 1 ∧ upper (b * d) = 1) := by
        rw [← hmin, ← hmax]
        intro h
        exact houter ((repeats_upper ha b).one_of_mul (repeats_upper hc d) hle hle' h.1 h.2)
      rw [wrapped_of_ne hinner, wrapped_of_ne houter, wrapped_of_ne hboth, ← hmin, ← hmax]
      refine around_around hle hle' (hmin ▸ Number.le_one_iff.2 (Nat.mul_le_mul ha hc)) ?_
      rintro as e f' rfl he
      obtain ⟨he', hf'⟩ := hm.valid
      obtain ⟨i, rfl⟩ := Number.isNat_iff.1 he'
      obtain ⟨f, rfl⟩ := exists_upper hf'
      obtain ⟨rest, hrest⟩ := exists_layers as
      rw [hrest, List.take_succ_cons, List.take_zero] at hprod
      have hi : i ≤ 1 := Number.le_one_iff.1 he
      refine ⟨?_, mul_assoc_of_le_one ha hc hi, hprod.mulMax_assoc⟩
      rw [Number.mul_of_le_one hc hi]
      exact Number.le_one_iff.2 (Nat.mul_le_mul hc hi)

end Matcher

/-! ## Sources under two repeats -/

/-- A source that compiles, in parentheses under a repeat and in parentheses again under another
one, compiles to the same matcher as under the one repeat with the products as bounds, where the
products of the finite upper bounds of the two and of the wildcard that the source compiles to, if
it does, are in range. -/
theorem nested_repeats_multiply (hm : g.matcherOf s = .ok m) (ha : a ≤ 1) (hc : c ≤ 1)
    (hb : InRange b) (hd : InRange d)
    (hprod : ProductsInRange ((.int a, upper b) :: (.int c, upper d) :: m.layers.take 1)) :
    ∃ m', g.matcherOf (underRepeat (underRepeat s c d) a b) = .ok m' ∧
      g.matcherOf (underRepeat s (a * c) (b * d)) = .ok m' := by
  have hbd : InRange (b * d) :=
    (hprod.sublist (.cons_cons _ (.cons_cons _ (List.nil_sublist _)))).inRange_mul
  have hinner := matcherOf_underRepeat hm hc hd
  refine ⟨_, matcherOf_underRepeat hinner ha hb, ?_⟩
  rw [matcherOf_underRepeat hm (Nat.mul_le_mul ha hc) hbd,
    wrapped_wrapped (shaped_of_matcherOf hm) ha hc hprod]

/-- A repeat of a sequence with a comment after it, under two repeats and under their product. -/
theorem nested_repeats_multiply_comment :
    underRepeat (underRepeat "(NAME STRING)\x7b0,5\x7d # pairs" 0 3) 1 2 =
        "(((NAME STRING)\x7b0,5\x7d # pairs\n)\x7b0,3\x7d\n)\x7b1,2\x7d" ∧
      underRepeat "(NAME STRING)\x7b0,5\x7d # pairs" 0 6 =
        "((NAME STRING)\x7b0,5\x7d # pairs\n)\x7b0,6\x7d" ∧
      ∃ m', expression.matcherOf
          (underRepeat (underRepeat "(NAME STRING)\x7b0,5\x7d # pairs" 0 3) 1 2) = .ok m' ∧
        expression.matcherOf (underRepeat "(NAME STRING)\x7b0,5\x7d # pairs" (1 * 0) (2 * 3)) =
          .ok m' := by
  have hm : expression.matcherOf "(NAME STRING)\x7b0,5\x7d # pairs" =
      .ok (wildcard [[leaf (some (.int 1)) none none, leaf (some (.int 3)) none none]] 0 5 none) :=
    eq_ok_of_toOption (by decide +kernel)
  have hprod : ProductsInRange [(.int 1, upper 2), (.int 0, upper 3), (0, 5)] := by
    have hall : ∀ ks ∈ [2, 3, 5].sublists, ks.prod ≤ boundLimit := by decide
    intro ks hks _
    exact hall ks (List.mem_sublists.2 hks)
  exact ⟨by decide, by decide, nested_repeats_multiply hm (Nat.le_refl 1) (Nat.zero_le 1)
    (inRange_natCast 2 (by decide)) (inRange_natCast 3 (by decide)) hprod⟩

end TreeMatcher
