import Mathlib.Logic.Relation
import TreeMatcher.Grammar.Expression
import TreeMatcher.Proofs.Compile.Shape
import TreeMatcher.Proofs.Matcher.Built

/-!
# Normal forms exist

A collapse fails only on a bound that no wildcard has. It multiplies lower bounds of at most one,
whose product is exact, and upper bounds, of which zero wins over infinity; so from bounds that a
wildcard may have it gets bounds that a wildcard may have, however large they are. A matcher that is
built therefore has a normal form: as many collapses as it takes, each of which shortens the chain
of wildcards at the top.

Nothing at the top of a normal form is redundant, so it is its own normal form; and its name is that
of the matcher, since a wildcard is taken away only where what remains has the same name. A unit
with a capture name is finished under that name and keeps it.

* `Matcher.Collapses m m'` — one collapse leads from `m` to `m'`.

## Main results

* `exists_normalize` — a matcher with valid bounds has a normal form, by collapses alone.
* `exists_normal_form` — the normal form of a matcher that is built, its name, and that of a unit.
-/

namespace TreeMatcher

open Outcome Grammar

namespace Matcher

/-! ## One collapse does not fail -/

/-- One collapse leads from one matcher to another. -/
def Collapses (m m' : Matcher) : Prop := collapse m = .ok (some m')

private theorem ValidBounds.mul {min max min' max' : Number} (h : ValidBounds min max)
    (h' : ValidBounds min' max') (hle : min.le 1) (hle' : min'.le 1) :
    ValidBounds (min.mul min') (max.mulMax max') :=
  ((Repeats.of_valid h hle).mul (.of_valid h' hle') hle hle').1

variable {m m' : Matcher}

theorem valid_of_not_contains {as : List (List Matcher)} {min max : Number} {n : Option Text}
    (h : ¬Contains IsInvalid (wildcard as min max n)) : ValidBounds min max := by
  rw [contains_iff, not_or] at h
  exact Classical.not_not.1 h.1

theorem not_contains_of_parts {x : Matcher} (h : ¬Contains IsInvalid m) (hx : x ∈ m.parts) :
    ¬Contains IsInvalid x :=
  fun hc => h (contains_iff.2 (.inr ⟨x, hx, hc⟩))

/-- A matcher with valid bounds collapses, or nothing at its top is redundant. -/
private theorem exists_collapse (h : ¬Contains IsInvalid m) : Settled m ∨ ∃ m', Collapses m m' := by
  unfold Settled Collapses collapse
  split
  · next sub min max name? =>
    split
    · exact .inr ⟨sub, rfl⟩
    · split
      · next as min' max' name'? _ =>
        split
        · next hmerge =>
          have hsub :=
            not_contains_of_parts h (List.mem_singleton_self (wildcard as min' max' name'?))
          have hb := (valid_of_not_contains h).mul (valid_of_not_contains hsub) hmerge.1 hmerge.2.1
          rw [wildcard?_eq_ok_iff.2 hb]
          exact .inr ⟨_, rfl⟩
        · exact .inl rfl
      · exact .inl rfl
  · exact .inl rfl

/-- Where two wildcards merge, the parts are those of the inner one and the bounds are products of
valid bounds. -/
theorem Collapses.valid (hc : Collapses m m') (h : ¬Contains IsInvalid m) :
    ¬Contains IsInvalid m' := by
  obtain ⟨sub, min, max, rfl, ⟨-, -, rfl⟩ | ⟨as, min', max', n, rfl, hle, hle', rfl⟩⟩ :=
    collapse_cases hc
  · exact not_contains_of_parts h (List.mem_singleton_self _)
  · have hsub := not_contains_of_parts h (List.mem_singleton_self (wildcard as min' max' n))
    have hb := (valid_of_not_contains h).mul (valid_of_not_contains hsub) hle hle'
    rw [contains_iff, not_or]
    constructor
    · intro hinvalid
      exact hinvalid hb
    · rintro ⟨x, hx, hinvalid⟩
      exact not_contains_of_parts hsub hx hinvalid

/-! ## All collapses -/

/-- A matcher with valid bounds has a normal form, which collapses lead to. -/
theorem exists_normalize (m : Matcher) (h : ¬Contains IsInvalid m) :
    ∃ r, normalize m = .ok r ∧ Relation.ReflTransGen Collapses m r := by
  rcases exists_collapse h with hsettled | ⟨m', hc⟩
  · exact ⟨m, normalize_of_settled hsettled, .refl⟩
  · obtain ⟨r, hr, hsteps⟩ := exists_normalize m' (hc.valid h)
    exact ⟨r, (normalize_step hc).trans hr, .head hc hsteps⟩
termination_by m.nesting
decreasing_by exact nesting_collapse hc

end Matcher

/-! ## Units under a capture name -/

/-- A unit whose first children are a token and an equals sign, with something behind them, has the
text of the token as its name, if it compiles. -/
private theorem name?_unit {g : Grammar} {l : Leaf} {e t : Tree} {ts : List Tree} {u : Matcher}
    (he : e.label = .token .equal)
    (hu : (g.matcherOfTree (.branch (.phrase .unit) (.leaf l :: e :: t :: ts))).result = .ok u) :
    u.name? = some l.value := by
  have hcapture : takeCapture ((.leaf l :: e :: t :: ts).map (part g)) =
      .value (some l.value, (t :: ts).map (part g)) := by
    simp only [List.map_cons, takeCapture, Part.label, tree_part]
    rw [if_pos he]
  rw [matcherOfTree_branch, phraseMatcher, unitMatcher, hcapture] at hu
  simp only [bind_eq_andThen, value_andThen] at hu
  obtain ⟨m, -, hu⟩ := exists_of_andThen hu
  obtain ⟨m', hfinish⟩ : ∃ m' : Matcher, (m'.withName l.value).finish.result = .ok u := by
    split at hu
    · obtain ⟨m', -, hu⟩ := exists_of_andThen hu
      exact ⟨m', hu⟩
    · exact ⟨m, hu⟩
  rw [(Matcher.sameNames_finish hfinish).name?_eq, Matcher.name?_withName]

namespace Matcher

/-! ## Normal forms -/

/-- A matcher that is built has a normal form, whatever its bounds. Collapses lead to it, none is
left, it is its own normal form, and it has the name of the matcher. So a unit with a capture name
that compiles does so to a matcher of that name, whatever its operand and its repeater are. -/
theorem exists_normal_form :
    (∀ m : Matcher, Built m → ∃ r, m.normalize = .ok r ∧ Relation.ReflTransGen Collapses m r ∧
      Settled r ∧ r.normalize = .ok r ∧ r.name? = m.name?) ∧
    ∀ (g : Grammar) (l : Leaf) (e t : Tree) (ts : List Tree) (u : Matcher),
      e.label = .token .equal →
      (g.matcherOfTree (.branch (.phrase .unit) (.leaf l :: e :: t :: ts))).result = .ok u →
      u.name? = some l.value := by
  refine ⟨fun m hm => ?_, fun g l e t ts u he hu => name?_unit he hu⟩
  obtain ⟨r, hr, hsteps⟩ := exists_normalize m hm.valid
  have hsettled : Settled r := collapse_normalize hr
  exact ⟨r, hr, hsteps, hsettled, normalize_of_settled hsettled, (sameNames_normalize hr).name?_eq⟩

/-- Two repeats of the same name with bounds whose product is beyond every number. -/
def overflowingRepeats : Matcher :=
  wildcard [[wildcard [[leaf none none none]] 1 (.int (2 ^ 600 : Nat)) (some "n")]] 0
    (.int (2 ^ 600 : Nat)) (some "n")

/-- The unit `n=NAME+`, put together by hand. -/
def repeatedUnit : List Tree :=
  [.leaf ⟨.token .name, "n", 1, 1, 0⟩, .leaf ⟨.token .equal, "=", 1, 2, 1⟩,
    .leaf ⟨.token .name, "NAME", 1, 3, 2⟩,
    .branch (.phrase .repeater) [.leaf ⟨.token .plus, "+", 1, 7, 6⟩]]

/-- An upper bound that overflows is infinite. -/
theorem exists_normal_form_overflowing :
    (Built overflowingRepeats ∧ ∃ r, overflowingRepeats.normalize = .ok r ∧ Settled r ∧
      r = wildcard [[leaf none none none]] 0 .infinity (some "n")) ∧
    ∃ u, (expression.matcherOfTree (.branch (.phrase .unit) repeatedUnit)).result = .ok u ∧
      u.name? = some "n" := by
  obtain ⟨hform, hunit⟩ := exists_normal_form
  have hleaf : Built (leaf none none none) := .leaf none none
  have hinner : Built (wildcard [[leaf none none none]] 1 (.int (2 ^ 600 : Nat)) (some "n")) :=
    .wildcard (by simpa using hleaf)
      (wildcard?_eq_ok_iff.2 ⟨Number.isNat_int 1, .inr (Number.isNat_int _)⟩)
  have hbuilt : Built overflowingRepeats :=
    .wildcard (by simpa only [List.forall_mem_singleton] using hinner)
      (wildcard?_eq_ok_iff.2 ⟨Number.isNat_int 0, .inr (Number.isNat_int _)⟩)
  obtain ⟨r, hr, -, hsettled, -⟩ := hform overflowingRepeats hbuilt
  have hvalue : overflowingRepeats.normalize =
      .ok (wildcard [[leaf none none none]] 0 .infinity (some "n")) :=
    eq_ok_of_toOption (by decide +kernel)
  obtain rfl := Except.ok.inj (hr.symm.trans hvalue)
  have hresult : (expression.matcherOfTree (.branch (.phrase .unit) repeatedUnit)).result =
      .ok (wildcard [[leaf (some (.int 1)) none none]] 1 .infinity (some "n")) :=
    eq_ok_of_toOption (by decide +kernel)
  exact ⟨⟨hbuilt, _, hr, hsettled, rfl⟩, _, hresult, hunit _ _ _ _ _ _ rfl hresult⟩

end Matcher

end TreeMatcher
