import TreeMatcher.Compile.Basic
import TreeMatcher.Proofs.Matcher.Normal
import TreeMatcher.Proofs.Matcher.Within

/-!
# The names that a matcher carries

A capture name may stand on a matcher or on one inside it. A name given to a matcher takes the place
of the name on it and leaves those inside alone. Removing redundant wildcards takes a wildcard away
only where what remains has the same name.

* `Matcher.parts` — the matchers directly in a matcher.
* `Matcher.Carries n m` — the name `n` stands on `m` or on a matcher in it.
* `Matcher.CarriesInside n m` — the name `n` stands on a matcher in `m`.
* `Matcher.SameNames m m'` — `m'` carries the names of `m`, and has the same name on top.

## Main results

* `contains_iff` — a matcher contains what it is and what its parts contain.
* `parts_induction` — what matchers inherit from their parts holds for all of them.
* `carries_iff` — a name that is carried stands on top or inside.
* `sameNames_normalize` — normalizing a matcher loses no name and moves none inside.
-/

namespace TreeMatcher.Matcher

variable {n : Text} {m m' : Matcher}

/-! ## Names on top and inside -/

/-- The matchers directly in a matcher. -/
def parts : Matcher → List Matcher
  | leaf .. => []
  | node _ content? _ => content?.getD []
  | wildcard as _ _ _ => as.flatten
  | negated m _ => [m]

/-- A matcher contains what it is and what its parts contain. -/
theorem contains_iff {P : Matcher → Prop} : Contains P m ↔ P m ∨ ∃ x ∈ m.parts, Contains P x := by
  match m with
  | leaf t v k => rw [contains_leaf]; simp [parts]
  | node s none k => rw [contains_bare]; simp [parts]
  | node s (some c) k => rw [contains_node]; rfl
  | negated m k => rw [contains_negated]; simp [parts]
  | wildcard as min max k =>
    rw [contains_wildcard]
    refine or_congr_right ⟨?_, ?_⟩
    · rintro ⟨s, hs, x, hx, h⟩
      exact ⟨x, List.mem_flatten.2 ⟨s, hs, hx⟩, h⟩
    · rintro ⟨x, hx, h⟩
      obtain ⟨s, hs, hx⟩ := List.mem_flatten.1 hx
      exact ⟨s, hs, x, hx, h⟩

theorem within_of_mem_parts {x : Matcher} (h : x ∈ m.parts) : Within x m := by
  match m with
  | leaf t v k => simp [parts] at h
  | node s none k => simp [parts] at h
  | node s (some c) k => exact .content h .refl
  | negated m k =>
    obtain rfl := List.mem_singleton.1 h
    exact .inner .refl
  | wildcard as min max k =>
    obtain ⟨s, hs, hx⟩ := List.mem_flatten.1 h
    exact .alternative hs hx .refl

mutual

/-- What a matcher inherits from its parts holds for all matchers. -/
theorem parts_induction {motive : Matcher → Prop}
    (step : ∀ m, (∀ x ∈ m.parts, motive x) → motive m) : (m : Matcher) → motive m
  | leaf t v k => step _ (by simp [parts])
  | node s none k => step _ (by simp [parts])
  | node s (some c) k => step _ (parts_induction_all step c)
  | wildcard as min max k => step _ (parts_induction_each step as)
  | negated m k => step _ (by simpa [parts] using parts_induction step m)

theorem parts_induction_all {motive : Matcher → Prop}
    (step : ∀ m, (∀ x ∈ m.parts, motive x) → motive m) :
    (ms : List Matcher) → ∀ m ∈ ms, motive m
  | [] => by simp
  | m :: ms => List.forall_mem_cons.2 ⟨parts_induction step m, parts_induction_all step ms⟩

theorem parts_induction_each {motive : Matcher → Prop}
    (step : ∀ m, (∀ x ∈ m.parts, motive x) → motive m) :
    (as : List (List Matcher)) → ∀ m ∈ as.flatten, motive m
  | [] => by simp
  | s :: as => by
    rw [List.flatten_cons, List.forall_mem_append]
    exact ⟨parts_induction_all step s, parts_induction_each step as⟩

end

/-- A name stands on a matcher or on one in it. -/
def Carries (n : Text) (m : Matcher) : Prop := Contains (fun x => x.name? = some n) m

/-- A name stands on a matcher in a matcher. -/
def CarriesInside (n : Text) (m : Matcher) : Prop := ∃ x ∈ m.parts, Carries n x

theorem carries_iff : Carries n m ↔ m.name? = some n ∨ CarriesInside n m := contains_iff

theorem carries_node {s : Option Number} {c : List Matcher} {k : Option Text} :
    Carries n (node s (some c) k) ↔ k = some n ∨ ∃ m ∈ c, Carries n m := contains_node

theorem carries_wildcard {as : List (List Matcher)} {min max : Number} {k : Option Text} :
    Carries n (wildcard as min max k) ↔ k = some n ∨ ∃ s ∈ as, ∃ m ∈ s, Carries n m :=
  contains_wildcard

theorem carries_negated {k : Option Text} :
    Carries n (negated m k) ↔ k = some n ∨ Carries n m := contains_negated

theorem carriesInside_single {min max : Number} {name? : Option Text} :
    CarriesInside n (wildcard [[m]] min max name?) ↔ Carries n m := by
  simp [CarriesInside, parts]

theorem carriesInside_withName (name : Text) :
    CarriesInside n (m.withName name) ↔ CarriesInside n m := by
  cases m <;> rfl

/-! ## Redundant wildcards -/

/-- One matcher in place of another: the name on top is the same, and so are the names carried. A
name inside may only go where it stands on top. -/
structure SameNames (m m' : Matcher) : Prop where
  name?_eq : m'.name? = m.name?
  inside : ∀ n, CarriesInside n m' → CarriesInside n m
  carries : ∀ n, Carries n m → Carries n m'

private theorem SameNames.refl (m : Matcher) : SameNames m m := ⟨rfl, fun _ h => h, fun _ h => h⟩

private theorem SameNames.trans {m'' : Matcher} (h : SameNames m m') (h' : SameNames m' m'') :
    SameNames m m'' :=
  ⟨h'.name?_eq.trans h.name?_eq, fun n hn => h.inside n (h'.inside n hn),
    fun n hn => h'.carries n (h.carries n hn)⟩

theorem SameNames.carries_iff (h : SameNames m m') : Carries n m' ↔ Carries n m := by
  refine ⟨fun hn => ?_, h.carries n⟩
  rcases Matcher.carries_iff.1 hn with hn | hn
  · exact Matcher.carries_iff.2 (.inl (h.name?_eq ▸ hn))
  · exact Matcher.carries_iff.2 (.inr (h.inside n hn))

/-- Around a single matcher of the same name a wildcard adds nothing to the names. Any other matcher
with the same parts and the same name is as good. -/
private theorem sameNames_around {sub : Matcher} {min max : Number} (hparts : m'.parts = sub.parts)
    (hname : m'.name? = sub.name?) : SameNames (wildcard [[sub]] min max sub.name?) m' := by
  have hinside (n : Text) : CarriesInside n m' ↔ CarriesInside n sub := by
    rw [CarriesInside, CarriesInside, hparts]
  have hsub (n : Text) : Carries n m' ↔ Carries n sub := by
    rw [carries_iff, carries_iff, hname, hinside]
  refine ⟨hname, fun n hn => ?_, fun n hn => ?_⟩
  · exact carriesInside_single.2 (carries_iff.2 (.inr ((hinside n).1 hn)))
  · rw [hsub]
    rcases carries_iff.1 hn with hn | hn
    · exact carries_iff.2 (.inl hn)
    · exact carriesInside_single.1 hn

/-- One collapse loses no name. -/
private theorem sameNames_collapse (h : collapse m = .ok (some m')) : SameNames m m' := by
  obtain ⟨sub, min, max, rfl, ⟨-, -, rfl⟩ | ⟨as, min', max', name?, rfl, -, -, rfl⟩⟩ :=
    collapse_cases h
  · exact sameNames_around rfl rfl
  · exact sameNames_around rfl rfl

/-- Normalizing loses no name and moves none inside. -/
theorem sameNames_normalize (h : normalize m = .ok m') : SameNames m m' := by
  refine normalize_related (R := SameNames) .refl ?_ h
  exact fun _ _ _ hc hrest => (sameNames_collapse hc).trans hrest

theorem sameNames_finish (h : m.finish.result = .ok m') : SameNames m m' := by
  unfold finish at h
  split at h
  · next hnormal =>
    cases h
    exact sameNames_normalize hnormal
  · cases h

end TreeMatcher.Matcher
