import Mathlib.Computability.Language
import TreeMatcher.Text.Basic

/-!
# Regular expressions that backtrack

A regular expression is searched from one place of a text. The search tries the ways to match in a
fixed order and stops at the first that succeeds: the left branch of an alternation before the right
one, one more round of a repeat before none. A round that takes no unit is not tried. So an
expression gives a list, what each way to match leaves of the text, in the order of the search.

Which rests are in the list does not depend on the order. They are those of the words of a regular
language. An expression that leaves at most one rest is matched alike by every search, and there the
language is all that has to be known.

* `Regex.rests r t` — what the matches of `r` at the beginning of `t` leave, in order.
* `Regex.behind? r t` — what the first match leaves.
* `Regex.language r` — the words that `r` matches.

## Main results

* `Regex.mem_rests` — what a match leaves is what stands behind a word of the language.
* `Regex.behind?_alt` — an alternation is matched by its left branch if that matches.
-/

namespace TreeMatcher

/-- A regular expression over code units. -/
inductive Regex where
  /-- One unit of a class. -/
  | unit (p : CodeUnit → Bool)
  | seq (r s : Regex)
  | alt (r s : Regex)
  /-- Once or not at all, preferably once. -/
  | opt (r : Regex)
  /-- Any number of times, preferably once more. -/
  | many (r : Regex)

namespace Regex

/-- This unit and no other. -/
def only (c : CodeUnit) : Regex := unit (· == c)

/-! ## The search -/

/-- What the matches of one round leave, where the round takes at least one unit. -/
def advancing (step : Text → List Text) (t : Text) : List Text :=
  (step t).filter fun u => u.length < t.length

/-- What any number of rounds leave, at most `n` of them. -/
def rounds (step : Text → List Text) : Nat → Text → List Text
  | 0, t => [t]
  | n + 1, t => (advancing step t).flatMap (rounds step n) ++ [t]

/-- What the matches at the beginning of a text leave of it, in the order of the search. Every round
of a repeat takes a unit, so there are no more rounds than units. -/
def rests : Regex → Text → List Text
  | unit _, [] => []
  | unit p, c :: t => if p c then [t] else []
  | seq r s, t => (r.rests t).flatMap s.rests
  | alt r s, t => r.rests t ++ s.rests t
  | opt r, t => advancing r.rests t ++ [t]
  | many r, t => rounds r.rests t.length t

/-- What the first match leaves, if there is a match. -/
def behind? (r : Regex) (t : Text) : Option Text := (r.rests t).head?

/-- An alternation is matched by its left branch if that matches, and else by the right one. -/
theorem behind?_alt (r s : Regex) (t : Text) :
    (alt r s).behind? t = (r.behind? t).or (s.behind? t) := by
  rw [behind?, rests, List.head?_append]
  rfl

/-- A unit in front is matched, or nothing is. -/
theorem behind?_unit_seq (p : CodeUnit → Bool) (r : Regex) (c : CodeUnit) (t : Text) :
    (seq (unit p) r).behind? (c :: t) = if p c then r.behind? t else none := by
  rw [behind?, rests, rests]
  by_cases hc : p c
  · rw [if_pos hc, if_pos hc, List.flatMap_singleton]
    rfl
  · rw [if_neg hc, if_neg hc]
    rfl

theorem behind?_unit (p : CodeUnit → Bool) (c : CodeUnit) (t : Text) :
    (unit p).behind? (c :: t) = if p c then some t else none := by
  rw [behind?, rests]
  split <;> rfl

/-- An option is matched if that takes a unit. -/
private theorem behind?_opt_of_shorter {r : Regex} {t u : Text} (h : r.behind? t = some u)
    (hlt : u.length < t.length) : (opt r).behind? t = some u := by
  rw [behind?, List.head?_eq_some_iff] at h
  obtain ⟨us, hus⟩ := h
  have hfirst : advancing r.rests t = u :: advancing (fun _ => us) t := by
    rw [advancing, hus]
    exact List.filter_cons_of_pos (by simpa using hlt)
  rw [behind?, rests, hfirst]
  rfl

/-- An option of what does not match takes nothing. -/
private theorem behind?_opt_of_none {r : Regex} {t : Text} (h : r.behind? t = none) :
    (opt r).behind? t = some t := by
  rw [behind?, List.head?_eq_none_iff] at h
  rw [behind?, rests, advancing, h]
  rfl

/-- At most `n + 1` units of a class, as many as there are. -/
def upTo (p : CodeUnit → Bool) : Nat → Regex
  | 0 => opt (unit p)
  | n + 1 => opt (seq (unit p) (upTo p n))

/-- A bounded repeat takes the run of the class, cut at the bound. -/
theorem behind?_upTo (p : CodeUnit → Bool) (n : Nat) (t : Text) :
    (upTo p n).behind? t = some (t.drop (Text.run p (t.take (n + 1)))) := by
  induction n generalizing t with
  | zero =>
    cases t with
    | nil => rfl
    | cons c t =>
      rw [upTo, List.take_succ_cons, List.take_zero, Text.run_cons]
      by_cases hc : p c
      · rw [if_pos hc]
        apply behind?_opt_of_shorter
        · rw [behind?_unit, if_pos hc]
          rfl
        · simp
      · rw [if_neg hc]
        apply behind?_opt_of_none
        rw [behind?_unit, if_neg hc]
  | succ n ih =>
    cases t with
    | nil => rfl
    | cons c t =>
      rw [upTo, List.take_succ_cons, Text.run_cons]
      by_cases hc : p c
      · rw [if_pos hc]
        apply behind?_opt_of_shorter
        · rw [behind?_unit_seq, if_pos hc, ih, List.drop_succ_cons]
        · rw [List.drop_succ_cons, List.length_drop, List.length_cons]
          omega
      · rw [if_neg hc]
        apply behind?_opt_of_none
        rw [behind?_unit_seq, if_neg hc]

/-- Where at most one rest is left, the first match leaves it. -/
theorem behind?_eq {r : Regex} {t : Text} {u? : Option Text}
    (h : ∀ u, u ∈ r.rests t ↔ u? = some u) : r.behind? t = u? := by
  rw [behind?]
  cases hrests : r.rests t with
  | nil =>
    rw [hrests] at h
    cases u? with
    | none => rfl
    | some u => exact absurd ((h u).2 rfl) (by simp)
  | cons u us =>
    have hu : u ∈ r.rests t := by
      rw [hrests]
      exact List.mem_cons_self
    rw [List.head?_cons, (h u).1 hu]

/-! ## The language -/

/-- The words that an expression matches. -/
def language : Regex → Language CodeUnit
  | unit p => {w | ∃ c, p c ∧ w = [c]}
  | seq r s => r.language * s.language
  | alt r s => r.language + s.language
  | opt r => r.language + 1
  | many r => KStar.kstar r.language

section

variable {r s : Regex} {w : Text}

theorem mem_language_unit {p : CodeUnit → Bool} :
    w ∈ (unit p).language ↔ ∃ c, p c ∧ w = [c] := Iff.rfl

theorem mem_language_seq :
    w ∈ (seq r s).language ↔ ∃ a ∈ r.language, ∃ b ∈ s.language, a ++ b = w := Iff.rfl

theorem mem_language_alt : w ∈ (alt r s).language ↔ w ∈ r.language ∨ w ∈ s.language := Iff.rfl

theorem mem_language_opt : w ∈ (opt r).language ↔ w ∈ r.language ∨ w = [] := Iff.rfl

theorem nil_mem_language_many : [] ∈ (many r).language := Language.nil_mem_kstar r.language

/-- Exactly one unit. -/
theorem mem_language_only {c : CodeUnit} : w ∈ (only c).language ↔ w = [c] := by
  rw [only, mem_language_unit]
  simp

/-- A unit in front of a word. -/
theorem mem_language_only_seq {c : CodeUnit} :
    w ∈ (seq (only c) r).language ↔ ∃ v ∈ r.language, w = c :: v := by
  rw [mem_language_seq]
  constructor
  · intro h
    obtain ⟨a, ha, v, hv, rfl⟩ := h
    rw [mem_language_only.1 ha]
    exact ⟨v, hv, rfl⟩
  · intro h
    obtain ⟨v, hv, rfl⟩ := h
    exact ⟨[c], mem_language_only.2 rfl, v, hv, rfl⟩

/-- A word in front of repeated words. -/
theorem append_mem_language_many {v : Text} (hw : w ∈ r.language) (hv : v ∈ (many r).language) :
    w ++ v ∈ (many r).language := by
  obtain ⟨ws, rfl, hws⟩ := Language.mem_kstar.1 hv
  have hall : ∀ y ∈ w :: ws, y ∈ r.language := List.forall_mem_cons.2 ⟨hw, hws⟩
  exact Language.join_mem_kstar hall

/-- What holds of no word, and with any word in front, holds of repeated words. -/
theorem many_induction {P : Text → Prop} (hnil : P [])
    (happend : ∀ a ∈ r.language, ∀ v, P v → P (a ++ v)) : ∀ w ∈ (many r).language, P w := by
  intro w hw
  obtain ⟨ws, hflat, hws⟩ := Language.mem_kstar.1 hw
  rw [hflat]
  clear hw hflat
  induction ws with
  | nil => exact hnil
  | cons a ws ih =>
    have hall := List.forall_mem_cons.1 hws
    rw [List.flatten_cons]
    exact happend a hall.1 _ (ih hall.2)

/-- Repeated words are none, or one that is not empty in front of repeated words. -/
theorem many_cases (h : w ∈ (many r).language) :
    w = [] ∨ ∃ a v, a ∈ r.language ∧ a ≠ [] ∧ v ∈ (many r).language ∧ w = a ++ v := by
  obtain ⟨ws, rfl, hws⟩ := Language.mem_kstar_iff_exists_nonempty.1 h
  cases ws with
  | nil => exact .inl rfl
  | cons a ws =>
    have hall := List.forall_mem_cons.1 hws
    have hrest : ws.flatten ∈ (many r).language :=
      Language.join_mem_kstar fun y hy => (hall.2 y hy).1
    exact .inr ⟨a, ws.flatten, hall.1.1, hall.1.2, hrest, List.flatten_cons⟩

end

/-! ## The search finds the language -/

/-- What a round leaves, when its matches leave what stands behind the words of a language. -/
private theorem mem_advancing {step : Text → List Text} {l : Language CodeUnit} {t u : Text}
    (hstep : ∀ u, u ∈ step t ↔ ∃ w ∈ l, t = w ++ u) :
    u ∈ advancing step t ↔ ∃ w ∈ l, w ≠ [] ∧ t = w ++ u := by
  rw [advancing, List.mem_filter, hstep, decide_eq_true_eq]
  constructor
  · intro h
    obtain ⟨⟨w, hw, ht⟩, hlt⟩ := h
    refine ⟨w, hw, ?_, ht⟩
    intro hnil
    rw [ht, hnil, List.nil_append] at hlt
    omega
  · intro h
    obtain ⟨w, hw, hne, ht⟩ := h
    have hpos := List.length_pos_iff.2 hne
    refine ⟨⟨w, hw, ht⟩, ?_⟩
    rw [ht, List.length_append]
    omega

/-- Rounds leave what stands behind repeated words. -/
private theorem mem_rounds {r : Regex} (hr : ∀ t u, u ∈ r.rests t ↔ ∃ w ∈ r.language, t = w ++ u)
    {n : Nat} {t u : Text} (hn : t.length ≤ n) :
    u ∈ rounds r.rests n t ↔ ∃ w ∈ (many r).language, t = w ++ u := by
  induction n generalizing t with
  | zero =>
    obtain rfl : t = [] := List.length_eq_zero_iff.1 (Nat.le_zero.1 hn)
    rw [rounds, List.mem_singleton]
    constructor
    · intro hu
      exact ⟨[], nil_mem_language_many, hu.symm⟩
    · intro h
      obtain ⟨w, -, hw⟩ := h
      exact (List.append_eq_nil_iff.1 hw.symm).2
  | succ n ih =>
    rw [rounds, List.mem_append, List.mem_flatMap, List.mem_singleton]
    have hshorter : ∀ {a t' : Text}, a ≠ [] → t = a ++ t' → t'.length ≤ n := by
      intro a t' ha ht
      have hpos := List.length_pos_iff.2 ha
      rw [ht, List.length_append] at hn
      omega
    constructor
    · intro h
      rcases h with ⟨t', ht', hu⟩ | hu
      · obtain ⟨a, ha, hne, ht⟩ := (mem_advancing (hr t)).1 ht'
        obtain ⟨w, hw, hsplit⟩ := (ih (hshorter hne ht)).1 hu
        refine ⟨a ++ w, append_mem_language_many ha hw, ?_⟩
        rw [ht, hsplit, List.append_assoc]
      · exact ⟨[], nil_mem_language_many, hu.symm⟩
    · intro h
      obtain ⟨w, hw, ht⟩ := h
      rcases many_cases hw with hnil | ⟨a, v, ha, hne, hv, hw⟩
      · rw [hnil, List.nil_append] at ht
        exact .inr ht.symm
      · rw [hw, List.append_assoc] at ht
        refine .inl ⟨v ++ u, (mem_advancing (hr t)).2 ⟨a, ha, hne, ht⟩, ?_⟩
        exact (ih (hshorter hne ht)).2 ⟨v, hv, rfl⟩

/-- What a match leaves is what stands behind a word of the language. -/
theorem mem_rests {r : Regex} {t u : Text} :
    u ∈ r.rests t ↔ ∃ w ∈ r.language, t = w ++ u := by
  induction r generalizing t u with
  | unit p =>
    cases t with
    | nil =>
      rw [rests]
      refine iff_of_false List.not_mem_nil ?_
      intro h
      obtain ⟨w, hw, ht⟩ := h
      obtain ⟨c, -, rfl⟩ := mem_language_unit.1 hw
      cases ht
    | cons c t =>
      rw [rests]
      constructor
      · intro h
        by_cases hc : p c
        · rw [if_pos hc, List.mem_singleton] at h
          exact ⟨[c], ⟨c, hc, rfl⟩, by rw [h]; rfl⟩
        · rw [if_neg hc] at h
          exact absurd h List.not_mem_nil
      · intro h
        obtain ⟨w, hw, ht⟩ := h
        obtain ⟨d, hd, rfl⟩ := mem_language_unit.1 hw
        obtain ⟨rfl, rfl⟩ := List.cons.inj ht
        rw [if_pos hd]
        exact List.mem_singleton.2 rfl
  | seq r s ihr ihs =>
    rw [rests, List.mem_flatMap]
    constructor
    · intro h
      obtain ⟨t', ht', hu⟩ := h
      obtain ⟨a, ha, ht⟩ := ihr.1 ht'
      obtain ⟨b, hb, hsplit⟩ := ihs.1 hu
      refine ⟨a ++ b, Language.append_mem_mul ha hb, ?_⟩
      rw [ht, hsplit, List.append_assoc]
    · intro h
      obtain ⟨w, hw, ht⟩ := h
      obtain ⟨a, ha, b, hb, rfl⟩ := mem_language_seq.1 hw
      rw [List.append_assoc] at ht
      exact ⟨b ++ u, ihr.2 ⟨a, ha, ht⟩, ihs.2 ⟨b, hb, rfl⟩⟩
  | alt r s ihr ihs =>
    rw [rests, List.mem_append, ihr, ihs]
    simp only [mem_language_alt, or_and_right, exists_or]
  | opt r ih =>
    rw [rests, List.mem_append, mem_advancing fun u => ih, List.mem_singleton]
    constructor
    · intro h
      rcases h with ⟨w, hw, -, ht⟩ | hu
      · exact ⟨w, mem_language_opt.2 (.inl hw), ht⟩
      · exact ⟨[], mem_language_opt.2 (.inr rfl), hu.symm⟩
    · intro h
      obtain ⟨w, hw, ht⟩ := h
      by_cases hne : w = []
      · rw [hne, List.nil_append] at ht
        exact .inr ht.symm
      · exact .inl ⟨w, (mem_language_opt.1 hw).resolve_right hne, hne, ht⟩
  | many r ih =>
    rw [rests]
    exact mem_rounds (fun t u => ih) (Nat.le_refl _)

end Regex

end TreeMatcher
