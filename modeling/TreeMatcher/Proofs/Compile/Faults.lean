import TreeMatcher.Proofs.Matcher.Total

/-!
# Faults that the checks of a compilation raise

A pattern may have a fault, and a tree that was built by hand may have a shape that no pattern has.
Both are found by checks. A bound that no wildcard has is no possible fault, whatever the tree: the
bounds of a repeater are checked where they are read, and collapses keep valid bounds valid.

* `Matcher.Valid m` — the wildcards of a matcher have valid bounds.
* `Outcome.Guarded P o` — `o` is a value with `P`, a fault of the pattern or of the shape.

## Main results

* `guarded_boundsOf`, `guarded_repeatMatcher` — a repeater has valid bounds or a fault.
* `Valid.guarded_finish`, `guarded_repeating` — what is put together from valid matchers is valid.
-/

namespace TreeMatcher

open Outcome Matcher

/-! ## Guarded outcomes -/

/-- The wildcards of a matcher have bounds that a wildcard may have. -/
def Matcher.Valid (m : Matcher) : Prop := ¬m.Contains IsInvalid

/-- A fault of the pattern or of the shape of its tree. -/
def CompileError.IsFault : CompileError → Prop
  | pattern _ => True
  | shape _ => True
  | bounds _ => False
  | missingNode => False

namespace Outcome

variable {α β : Type} {P : α → Prop} {Q : β → Prop}

/-- A value with a given property or a fault, and no other error. -/
def Guarded (P : α → Prop) (o : Outcome α) : Prop :=
  match o.result with
  | .ok a => P a
  | .error e => e.IsFault

theorem guarded_value {a : α} (h : P a) : Guarded P (value a) := h

theorem guarded_refuse (e : PatternError) : Guarded P (refuse e : Outcome α) := trivial

theorem guarded_misshapen (e : ShapeError) : Guarded P (misshapen e : Outcome α) := trivial

theorem Guarded.andThen {o : Outcome α} {f : α → Outcome β} (h : Guarded P o)
    (hf : ∀ a, P a → Guarded Q (f a)) : Guarded Q (o.andThen f) := by
  obtain ⟨es, e | a⟩ := o
  · exact h
  · exact hf a h

theorem Guarded.of_ok {o : Outcome α} {a : α} (h : Guarded P o) (ho : o.result = .ok a) : P a := by
  rw [Guarded, ho] at h
  exact h

theorem Guarded.of_error {o : Outcome α} {e : CompileError} (h : Guarded P o)
    (ho : o.result = .error e) : e.IsFault := by
  rw [Guarded, ho] at h
  exact h

theorem guarded_of_error {o : Outcome α} {e : CompileError} (he : e.IsFault)
    (ho : o.result = .error e) : Guarded P o := by
  rw [Guarded, ho]
  exact he

/-- What a guarded outcome may be. -/
theorem Guarded.cases {o : Outcome α} (h : Guarded P o) :
    (∃ a, o.result = .ok a) ∨ (∃ e, o.result = .error (.pattern e)) ∨
      ∃ e, o.result = .error (.shape e) := by
  cases ho : o.result with
  | ok a => exact .inl ⟨a, rfl⟩
  | error e =>
    have hfault := h.of_error ho
    cases e with
    | pattern e => exact .inr (.inl ⟨e, rfl⟩)
    | shape e => exact .inr (.inr ⟨e, rfl⟩)
    | bounds e => exact hfault.elim
    | missingNode => exact hfault.elim

end Outcome

/-! ## Matchers that are valid -/

namespace Matcher

variable {m : Matcher}

/-- A matcher is valid if its bounds are and its parts are. -/
private theorem valid_iff : m.Valid ↔ ¬IsInvalid m ∧ ∀ x ∈ m.parts, x.Valid := by
  rw [Valid, contains_iff, not_or]
  simp [Valid]

private theorem valid_leaf (k : Option Number) (v n : Option Text) : (leaf k v n).Valid :=
  valid_iff.2 ⟨fun h => h, by simp [parts]⟩

theorem valid_bare (s : Option Number) (n : Option Text) : (node s none n).Valid :=
  valid_iff.2 ⟨fun h => h, by simp [parts]⟩

theorem Valid.node (h : m.Valid) (s : Option Number) (n : Option Text) :
    (node s (some [m]) n).Valid :=
  valid_iff.2 ⟨fun h => h, by simpa [parts] using h⟩

theorem Valid.negated (h : m.Valid) (n : Option Text) : (negated m n).Valid :=
  valid_iff.2 ⟨fun h => h, by simpa [parts] using h⟩

private theorem Valid.withName (h : m.Valid) (n : Text) : (m.withName n).Valid := by
  rw [valid_iff, isInvalid_withName, parts_withName]
  exact valid_iff.1 h

/-- A valid matcher is finished without a fault. -/
theorem Valid.guarded_finish (h : m.Valid) : Guarded Valid m.finish := by
  obtain ⟨r, hr, hsteps⟩ := exists_normalize m h
  have hvalid : r.Valid := by
    clear hr
    induction hsteps with
    | refl => exact h
    | tail _ hc ih => exact hc.valid ih
  rw [finish, hr]
  exact guarded_value hvalid

/-- A wildcard with valid bounds around valid matchers is valid. -/
theorem guarded_repeating {as : List (List Matcher)} {min max : Number}
    (has : ∀ m ∈ as.flatten, m.Valid) (hb : ValidBounds min max) :
    Guarded Valid (repeating as min max) := by
  rw [repeating, wildcard?_eq_ok_iff.2 hb]
  refine guarded_value (valid_iff.2 ⟨fun h => h hb, has⟩)

/-- A valid matcher is finished under any name. -/
theorem Valid.guarded_named (hm : m.Valid) (name? : Option Text) :
    Guarded Valid (match name? with
      | some name => (m.withName name).finish
      | none => m.finish) := by
  cases name? with
  | none => exact hm.guarded_finish
  | some name => exact (hm.withName name).guarded_finish

theorem guarded_inSequence {ms : List Matcher} (h : ∀ m ∈ ms, m.Valid) :
    Guarded Valid (inSequence ms) := by
  unfold inSequence
  split
  · exact guarded_value (h _ List.mem_cons_self)
  · apply (guarded_repeating (by simpa using h) repeats_one_one.valid).andThen
    intro w hw
    exact hw.guarded_finish

theorem guarded_oneOf {ms : List Matcher} (h : ∀ m ∈ ms, m.Valid) : Guarded Valid (oneOf ms) := by
  unfold oneOf
  split
  · exact guarded_value (h _ List.mem_cons_self)
  · have hflatten : ∀ m ∈ (ms.map fun m => [m]).flatten, m.Valid := by
      intro m hm
      rw [← List.flatMap_def, List.flatMap_singleton'] at hm
      exact h m hm
    apply (guarded_repeating hflatten repeats_one_one.valid).andThen
    intro w hw
    exact hw.guarded_finish

end Matcher

/-! ## Bounds and names -/

open Grammar

private theorem ofExcept_bind {α β : Type} (r : Except CompileError α)
    (f : α → Except CompileError β) :
    Outcome.ofExcept (r >>= f) = (Outcome.ofExcept r).andThen fun a => Outcome.ofExcept (f a) := by
  cases r <;> rfl

/-- A number is read, or there is a fault. -/
private theorem guarded_boundOf (t : Tree) :
    Guarded (fun _ => True) (Outcome.ofExcept (boundOf t)) := by
  cases t with
  | branch k ts => trivial
  | leaf l =>
    rw [boundOf]
    by_cases hk : l.label = .token .number
    · rw [if_pos hk]
      by_cases hd : l.value.isDecimal
      · rw [if_pos hd]
        by_cases hle : l.value.decimalValue ≤ boundLimit
        · rw [if_pos hle]
          trivial
        · rw [if_neg hle]
          trivial
      · rw [if_neg hd]
        trivial
    · rw [if_neg hk]
      trivial

private theorem guarded_bracedBounds (ts : List Tree) :
    Guarded (fun b => ValidBounds b.1 b.2) (Outcome.ofExcept (bracedBounds ts)) := by
  have hvalid : ∀ n m : Nat, ValidBounds (.int n) (.int m) :=
    fun n m => ⟨Number.isNat_int n, .inr (Number.isNat_int m)⟩
  unfold bracedBounds
  by_cases hclosed : ts.getLast?.map Tree.label = some (.token .rbrace)
  · rw [if_pos hclosed]
    split
    · next t _ =>
      rw [ofExcept_bind]
      apply (guarded_boundOf t).andThen
      intro n _
      exact hvalid n n
    · next t _ t' _ =>
      rw [ofExcept_bind]
      apply (guarded_boundOf t).andThen
      intro n _
      rw [ofExcept_bind]
      apply (guarded_boundOf t').andThen
      intro m _
      exact hvalid n m
    · trivial
  · rw [if_neg hclosed]
    trivial

/-- The bounds of a repeater are bounds that a wildcard may have, or there is a fault. -/
theorem guarded_boundsOf (ts : List Tree) :
    Guarded (fun b => ValidBounds b.1 b.2) (Outcome.ofExcept (boundsOf ts)) := by
  unfold boundsOf
  split
  · next l _ =>
    by_cases hstar : l.label = .token .star
    · rw [if_pos hstar]
      exact ⟨Number.isNat_int 0, .inl rfl⟩
    rw [if_neg hstar]
    by_cases hplus : l.label = .token .plus
    · rw [if_pos hplus]
      exact ⟨Number.isNat_int 1, .inl rfl⟩
    rw [if_neg hplus]
    by_cases hbrace : l.label = .token .lbrace
    · rw [if_pos hbrace]
      exact guarded_bracedBounds _
    · rw [if_neg hbrace]
      trivial
  · trivial

theorem guarded_repeatMatcher {m : Matcher} (hm : m.Valid) (ts : List Tree) :
    Guarded Valid (repeatMatcher m ts) := by
  rw [repeatMatcher]
  apply (guarded_boundsOf ts).andThen
  rintro ⟨min, max⟩ hb
  have hrest : Guarded Valid (if min = 1 ∧ max = 1 then pure m else do
      let inner ← m.finish
      Matcher.repeating [[inner]] min max) := by
    by_cases hone : min = 1 ∧ max = 1
    · rw [if_pos hone]
      exact guarded_value hm
    · rw [if_neg hone]
      apply hm.guarded_finish.andThen
      intro inner hinner
      exact guarded_repeating (by simpa using hinner) hb
  -- The report of bounds that never match changes nothing but the events.
  dsimp only
  split
  · exact hrest
  · exact hrest

section Names

variable (g : Grammar)

theorem guarded_literalMatcher (l : Leaf) : Guarded Valid (g.literalMatcher l) := by
  rw [literalMatcher]
  split
  · exact guarded_refuse _
  · next value _ =>
    have hkind : Guarded (fun _ => True) (g.literalKind value) := by
      unfold literalKind
      split
      · trivial
      · split
        · trivial
        · trivial
    exact hkind.andThen fun k _ => guarded_value (valid_leaf _ _ _)

theorem guarded_tokenMatcher (l : Leaf) (details? : Option Part) :
    Guarded Valid (g.tokenMatcher l details?) := by
  rw [tokenMatcher]
  split
  · exact guarded_refuse _
  · split
    · exact guarded_refuse _
    · exact guarded_value (valid_leaf _ _ _)

end Names

end TreeMatcher
