import TreeMatcher.Proofs.Pattern.Escapes
import TreeMatcher.Proofs.Text.Backtracking

/-!
# The regular expression of a literal

A literal has one of four forms: its marks are single or double quotes, and there are three of them
on each side or one. Each form is a regular expression, and a literal is searched by their
alternation, those in three marks first.

Between three marks stand units, escaped units, and runs of up to two marks with one of these behind
them. The expression says that with an alternation under a repeat and an optional mark, so there are
many ways to go wrong and come back. All of them end at one place: where three marks stand in a row
for the first time, escaped units passed over. There the scan that looks ahead for three marks stops
too.

* `tripleItem q`, `singleItem q` — what may stand between marks, item after item.
* `LiteralForm` — the forms; `LiteralForm.pattern` is the regular expression of one.
* `literalPattern` — the regular expression of all, and `matchedForm?` the form that it matches by.

## Main results

* `LiteralForm.scan_eq_some_iff` — the scan for closing marks stops behind a body and its marks.
* `LiteralForm.behind?_pattern` — a form is matched as it is scanned.
* `behind?_literalPattern` — the regular expression matches what the lexer takes.
-/

namespace TreeMatcher

open Regex

/-! ## What stands between marks -/

/-- A unit that is neither a mark nor a backslash. -/
def ordinaryUnit (q : CodeUnit) : Regex := .unit fun c => c != q && c != CodeUnit.backslash

/-- A backslash and the unit behind it. -/
def escapedUnit : Regex := .seq (only CodeUnit.backslash) (.unit fun _ => true)

/-- A unit, or an escaped one. -/
def anyUnit (q : CodeUnit) : Regex := .alt (ordinaryUnit q) escapedUnit

/-- A unit, an escaped one, or one of these behind one or two marks. -/
def tripleItem (q : CodeUnit) : Regex :=
  .alt (ordinaryUnit q) (.alt escapedUnit (.seq (only q) (.seq (.opt (only q)) (anyUnit q))))

/-- A unit within the line, or an escaped one that ends no line. -/
def singleItem (q : CodeUnit) : Regex :=
  .alt (.unit fun c => c != q && c != CodeUnit.backslash && !c.isLineEnd)
    (.seq (only CodeUnit.backslash) (.unit fun c => !c.isLineTerminator))

section

variable {q : CodeUnit} {w t : Text} {n : Nat}

private theorem mem_language_anyUnit :
    w ∈ (anyUnit q).language ↔
      (∃ c, c ≠ q ∧ c ≠ CodeUnit.backslash ∧ w = [c]) ∨ ∃ d, w = [CodeUnit.backslash, d] := by
  rw [anyUnit, mem_language_alt, ordinaryUnit, mem_language_unit, escapedUnit,
    mem_language_only_seq]
  simp [mem_language_unit, and_assoc]

private theorem mem_language_tripleItem :
    w ∈ (tripleItem q).language ↔
      ∃ a ∈ (anyUnit q).language, w = a ∨ w = q :: a ∨ w = q :: q :: a := by
  have hopt : ∀ v, v ∈ (Regex.seq (.opt (only q)) (anyUnit q)).language ↔
      ∃ a ∈ (anyUnit q).language, v = a ∨ v = q :: a := by
    intro v
    rw [mem_language_seq]
    simp only [mem_language_opt, mem_language_only]
    aesop
  rw [tripleItem, mem_language_alt, mem_language_alt, mem_language_only_seq, ← or_assoc,
    ← mem_language_alt, ← anyUnit]
  simp only [hopt]
  aesop

private theorem mem_language_singleItem :
    w ∈ (singleItem q).language ↔
      (∃ c, c ≠ q ∧ c ≠ CodeUnit.backslash ∧ c.isLineEnd = false ∧ w = [c]) ∨
        ∃ d, d.isLineTerminator = false ∧ w = [CodeUnit.backslash, d] := by
  rw [singleItem, mem_language_alt, mem_language_unit, mem_language_only_seq]
  simp [mem_language_unit, and_assoc]

/-! ## The scans of a body -/

/-- A unit that is no backslash is passed over unless it begins three marks. -/
theorem tripleBodyLength?_unit {c : CodeUnit} (hc : c ≠ CodeUnit.backslash)
    (ht : (c :: t).take 3 ≠ [q, q, q]) :
    tripleBodyLength? q (c :: t) = (tripleBodyLength? q t).map (· + 1) := by
  rcases t with _ | ⟨d, t⟩
  · rfl
  have hmarks : ¬(c = q ∧ d = q ∧ t.head? = some q) := by
    intro h
    obtain ⟨rfl, rfl, hd⟩ := h
    obtain ⟨u, rfl⟩ := List.head?_eq_some_iff.1 hd
    exact ht rfl
  rw [tripleBodyLength?, if_neg hc, if_neg hmarks]

/-- A backslash is passed over together with the unit behind it. -/
theorem tripleBodyLength?_escaped (d : CodeUnit) (t : Text) :
    tripleBodyLength? q (CodeUnit.backslash :: d :: t) = (tripleBodyLength? q t).map (· + 2) := by
  rw [tripleBodyLength?, if_pos rfl]

/-- A unit that is no mark begins no closing marks, and neither does an escaped unit. -/
private theorem tripleBodyLength?_anyUnit (hw : w ∈ (anyUnit q).language) (t : Text) :
    tripleBodyLength? q (w ++ t) = (tripleBodyLength? q t).map (· + w.length) := by
  rcases mem_language_anyUnit.1 hw with ⟨c, hc, hb, rfl⟩ | ⟨d, rfl⟩
  · exact tripleBodyLength?_unit hb fun h => hc (List.cons.inj h).1
  · exact tripleBodyLength?_escaped d t

/-- A mark is passed over unless it begins three marks. -/
private theorem tripleBodyLength?_mark (hq : CodeUnit.backslash ≠ q) (ht : t.take 2 ≠ [q, q]) :
    tripleBodyLength? q (q :: t) = (tripleBodyLength? q t).map (· + 1) :=
  tripleBodyLength?_unit hq.symm fun h => ht (List.cons.inj h).2

theorem tripleBodyLength?_marks (hq : CodeUnit.backslash ≠ q) (t : Text) :
    tripleBodyLength? q (q :: q :: q :: t) = some 3 := by
  rw [tripleBodyLength?, if_neg hq.symm, if_pos ⟨rfl, rfl, rfl⟩]

/-- A unit that is no mark, or an escaped unit, begins with no mark. -/
private theorem head_anyUnit (hq : CodeUnit.backslash ≠ q) (hw : w ∈ (anyUnit q).language) :
    ∃ c v, w = c :: v ∧ c ≠ q := by
  rcases mem_language_anyUnit.1 hw with ⟨c, hc, -, rfl⟩ | ⟨d, rfl⟩
  · exact ⟨c, [], rfl, hc⟩
  · exact ⟨_, [d], rfl, hq⟩

/-- The scan for three marks passes over the items of a body. -/
private theorem tripleBodyLength?_item (hq : CodeUnit.backslash ≠ q)
    (hw : w ∈ (tripleItem q).language)
    (t : Text) : tripleBodyLength? q (w ++ t) = (tripleBodyLength? q t).map (· + w.length) := by
  obtain ⟨a, ha, hwa⟩ := mem_language_tripleItem.1 hw
  have hunit := tripleBodyLength?_anyUnit ha t
  obtain ⟨c, v, rfl, hc⟩ := head_anyUnit hq ha
  have hone : tripleBodyLength? q (q :: (c :: v ++ t)) =
      (tripleBodyLength? q t).map (· + (q :: c :: v).length) := by
    have hmark : (c :: v ++ t).take 2 ≠ [q, q] := fun h => hc (List.cons.inj h).1
    rw [tripleBodyLength?_mark hq hmark, hunit, Option.map_map]
    rfl
  rcases hwa with rfl | rfl | rfl
  · exact hunit
  · exact hone
  · have hmark : (q :: (c :: v ++ t)).take 2 ≠ [q, q] := by
      intro h
      exact hc (List.cons.inj (List.cons.inj h).2).1
    rw [List.cons_append, List.cons_append, tripleBodyLength?_mark hq hmark, hone, Option.map_map]
    rfl

private theorem singleBodyLength?_item (hq : CodeUnit.backslash ≠ q)
    (hw : w ∈ (singleItem q).language)
    (t : Text) : singleBodyLength? q (w ++ t) = (singleBodyLength? q t).map (· + w.length) := by
  rcases mem_language_singleItem.1 hw with ⟨c, hc, hb, hl, rfl⟩ | ⟨d, hd, rfl⟩
  · exact Literal.singleBodyLength?_plain t hc hb hl
  · exact Literal.singleBodyLength?_backslash t hq hd

theorem singleBodyLength?_mark (q : CodeUnit) (t : Text) :
    singleBodyLength? q (q :: t) = some 1 := by
  cases t <;> rw [singleBodyLength?, if_pos rfl]

/-- A scan that passes over the items of a body passes over the body. -/
private theorem scan_body {r : Regex} {scan : Text → Option Nat}
    (hitem : ∀ a ∈ r.language, ∀ t, scan (a ++ t) = (scan t).map (· + a.length))
    (hw : w ∈ (many r).language) (t : Text) : scan (w ++ t) = (scan t).map (· + w.length) := by
  apply many_induction (P := fun w => scan (w ++ t) = (scan t).map (· + w.length)) ?_ ?_ w hw
  · simp
  · intro a ha v ih
    rw [List.append_assoc, hitem a ha, ih, Option.map_map, List.length_append]
    congr 1
    funext n
    show n + v.length + a.length = n + (a.length + v.length)
    omega

/-- A mark in front of a body that does not close with it belongs to the first item. -/
private theorem mark_append_body (hw : w ∈ (many (tripleItem q)).language)
    (hmarks : (w ++ q :: q :: q :: t).take 2 ≠ [q, q]) :
    q :: w ∈ (many (tripleItem q)).language := by
  rcases many_cases hw with rfl | ⟨i, v, hi, -, hv, rfl⟩
  · exact absurd rfl hmarks
  obtain ⟨a, ha, hia⟩ := mem_language_tripleItem.1 hi
  rcases hia with rfl | rfl | rfl
  · exact append_mem_language_many (mem_language_tripleItem.2 ⟨i, ha, .inr (.inl rfl)⟩) hv
  · exact append_mem_language_many (mem_language_tripleItem.2 ⟨a, ha, .inr (.inr rfl)⟩) hv
  · exact absurd rfl hmarks

/-- The scan for three marks stops behind a body and its three marks. -/
private theorem exists_body_of_tripleBodyLength? (h : tripleBodyLength? q t = some n) :
    ∃ w ∈ (many (tripleItem q)).language, ∃ rest,
      t = w ++ q :: q :: q :: rest ∧ n = w.length + 3 := by
  fun_induction tripleBodyLength? q t generalizing n with
  | case1 => cases h
  | case2 => cases h
  | case3 d rest ih =>
    obtain ⟨m, hm, rfl⟩ := Option.map_eq_some_iff.1 h
    obtain ⟨w, hw, u, hu, rfl⟩ := ih hm
    have hitem : [CodeUnit.backslash, d] ∈ (tripleItem q).language :=
      mem_language_tripleItem.2 ⟨_, mem_language_anyUnit.2 (.inr ⟨d, rfl⟩), .inl rfl⟩
    refine ⟨_, append_mem_language_many hitem hw, u, ?_, ?_⟩
    · rw [hu]
      rfl
    · rw [List.length_append, List.length_cons, List.length_singleton]
      omega
  | case4 c d rest _ hmarks =>
    obtain ⟨rfl, rfl, hd⟩ := hmarks
    obtain ⟨u, rfl⟩ := List.head?_eq_some_iff.1 hd
    exact ⟨[], nil_mem_language_many, u, rfl, (Option.some.inj h).symm⟩
  | case5 c d rest hb hmarks ih =>
    obtain ⟨m, hm, rfl⟩ := Option.map_eq_some_iff.1 h
    obtain ⟨w, hw, u, hu, rfl⟩ := ih hm
    refine ⟨c :: w, ?_, u, by rw [hu]; rfl, by rw [List.length_cons]⟩
    by_cases hc : c = q
    · subst hc
      apply mark_append_body (t := u) hw
      intro htake
      rw [← hu] at htake
      apply hmarks
      cases rest with
      | nil => cases htake
      | cons e rest =>
        obtain ⟨rfl, htail⟩ := List.cons.inj htake
        exact ⟨rfl, rfl, congrArg some (List.cons.inj htail).1⟩
    · have hitem : [c] ∈ (tripleItem q).language :=
        mem_language_tripleItem.2 ⟨_, mem_language_anyUnit.2 (.inl ⟨c, hc, hb, rfl⟩), .inl rfl⟩
      exact append_mem_language_many hitem hw

/-- The scan for one mark stops behind a body and its mark. -/
private theorem exists_body_of_singleBodyLength? (h : singleBodyLength? q t = some n) :
    ∃ w ∈ (many (singleItem q)).language, ∃ rest, t = w ++ q :: rest ∧ n = w.length + 1 := by
  fun_induction singleBodyLength? q t generalizing n with
  | case1 => cases h
  | case2 => exact ⟨[], nil_mem_language_many, [], rfl, (Option.some.inj h).symm⟩
  | case3 => cases h
  | case4 d rest => exact ⟨[], nil_mem_language_many, d :: rest, rfl, (Option.some.inj h).symm⟩
  | case5 => cases h
  | case6 d rest hd _ ih =>
    obtain ⟨m, hm, rfl⟩ := Option.map_eq_some_iff.1 h
    obtain ⟨w, hw, u, hu, rfl⟩ := ih hm
    have hitem : [CodeUnit.backslash, d] ∈ (singleItem q).language :=
      mem_language_singleItem.2 (.inr ⟨d, by simpa using hd, rfl⟩)
    refine ⟨_, append_mem_language_many hitem hw, u, ?_, ?_⟩
    · rw [hu]
      rfl
    · rw [List.length_append, List.length_cons, List.length_singleton]
      omega
  | case7 => cases h
  | case8 c d rest hc hb hl ih =>
    obtain ⟨m, hm, rfl⟩ := Option.map_eq_some_iff.1 h
    obtain ⟨w, hw, u, hu, rfl⟩ := ih hm
    have hitem : [c] ∈ (singleItem q).language :=
      mem_language_singleItem.2 (.inl ⟨c, hc, hb, by simpa using hl, rfl⟩)
    exact ⟨_, append_mem_language_many hitem hw, u, by rw [hu]; rfl, by simp⟩

end

/-! ## The forms of a literal -/

/-- A form of a literal: its mark, and whether there are three of them on each side or one. -/
structure LiteralForm where
  mark : CodeUnit
  tripled : Bool
  isQuote : mark.isQuote

namespace LiteralForm

/-- The marks on each side. -/
def marks (f : LiteralForm) : Text := if f.tripled then [f.mark, f.mark, f.mark] else [f.mark]

/-- The regular expression of the marks. -/
def marksPattern (f : LiteralForm) : Regex :=
  if f.tripled then .seq (only f.mark) (.seq (only f.mark) (only f.mark)) else only f.mark

/-- The regular expression of what stands between the marks. -/
def body (f : LiteralForm) : Regex :=
  many (if f.tripled then tripleItem f.mark else singleItem f.mark)

/-- The regular expression of the form. -/
def pattern (f : LiteralForm) : Regex := .seq f.marksPattern (.seq f.body f.marksPattern)

/-- The length of the rest of a literal behind its opening marks. -/
def scan (f : LiteralForm) : Text → Option Nat :=
  if f.tripled then tripleBodyLength? f.mark else singleBodyLength? f.mark

/-- The length of the literal of this form at the beginning of a text. -/
def length? (f : LiteralForm) (t : Text) : Option Nat :=
  if t.take f.marks.length = f.marks then
    (f.scan (t.drop f.marks.length)).map (· + f.marks.length)
  else none

variable {f : LiteralForm} {t w : Text} {n : Nat}

theorem backslash_ne_mark (f : LiteralForm) : CodeUnit.backslash ≠ f.mark := by
  intro h
  have hquote := f.isQuote
  rw [← h] at hquote
  exact absurd hquote (by decide)

private theorem mem_language_marksPattern : w ∈ f.marksPattern.language ↔ w = f.marks := by
  rw [marksPattern, marks]
  split
  · simp [mem_language_only_seq, mem_language_only]
  · exact mem_language_only

/-- A word of the form is a body between its marks. -/
private theorem mem_language_pattern :
    w ∈ f.pattern.language ↔ ∃ b ∈ f.body.language, w = f.marks ++ b ++ f.marks := by
  rw [pattern, mem_language_seq]
  simp only [mem_language_seq, mem_language_marksPattern]
  constructor
  · intro h
    obtain ⟨_, rfl, _, ⟨b, hb, _, rfl, rfl⟩, rfl⟩ := h
    exact ⟨b, hb, (List.append_assoc ..).symm⟩
  · intro h
    obtain ⟨b, hb, rfl⟩ := h
    exact ⟨_, rfl, _, ⟨b, hb, _, rfl, rfl⟩, (List.append_assoc ..).symm⟩

/-- The scan stops behind a body and its marks, and wherever these stand at the beginning of a text
it stops behind them. So there is only one such place. -/
theorem scan_eq_some_iff :
    f.scan t = some n ↔ ∃ b ∈ f.body.language, ∃ rest,
      t = b ++ f.marks ++ rest ∧ n = b.length + f.marks.length := by
  have hmark := f.backslash_ne_mark
  rw [scan, body, marks]
  constructor
  · intro h
    split at h
    · next htripled =>
      obtain ⟨b, hb, rest, ht, hn⟩ := exists_body_of_tripleBodyLength? h
      rw [if_pos htripled, if_pos htripled]
      exact ⟨b, hb, rest, by rw [ht, List.append_assoc]; rfl, hn⟩
    · next hsingle =>
      obtain ⟨b, hb, rest, ht, hn⟩ := exists_body_of_singleBodyLength? h
      rw [if_neg hsingle, if_neg hsingle]
      exact ⟨b, hb, rest, by rw [ht, List.append_assoc]; rfl, hn⟩
  · intro h
    obtain ⟨b, hb, rest, rfl, rfl⟩ := h
    split at hb
    · next htripled =>
      rw [if_pos htripled, if_pos htripled, List.append_assoc,
        scan_body (fun a ha t => tripleBodyLength?_item hmark ha t) hb, List.cons_append,
        List.cons_append, List.cons_append, tripleBodyLength?_marks hmark, Option.map_some,
        Nat.add_comm]
      rfl
    · next hsingle =>
      rw [if_neg hsingle, if_neg hsingle, List.append_assoc,
        scan_body (fun a ha t => singleBodyLength?_item hmark ha t) hb, List.singleton_append,
        singleBodyLength?_mark, Option.map_some, Nat.add_comm]
      rfl

/-- A literal of this form is a body between its marks. -/
theorem length?_eq_some_iff :
    f.length? t = some n ↔ ∃ b ∈ f.body.language, ∃ rest,
      t = f.marks ++ b ++ f.marks ++ rest ∧ n = b.length + 2 * f.marks.length := by
  rw [length?]
  constructor
  · intro h
    split at h
    · next hmarks =>
      obtain ⟨m, hm, rfl⟩ := Option.map_eq_some_iff.1 h
      obtain ⟨b, hb, rest, ht, rfl⟩ := scan_eq_some_iff.1 hm
      refine ⟨b, hb, rest, ?_, by omega⟩
      rw [List.append_assoc, List.append_assoc, ← List.append_assoc b, ← ht]
      conv => lhs; rw [← List.take_append_drop f.marks.length t, hmarks]
    · cases h
  · intro h
    obtain ⟨b, hb, rest, rfl, rfl⟩ := h
    have hscan := scan_eq_some_iff.2 ⟨b, hb, rest, rfl, rfl⟩
    rw [List.append_assoc, List.append_assoc, List.take_left, if_pos rfl, List.drop_left,
      ← List.append_assoc b, hscan, Option.map_some]
    congr 1
    omega

/-- Every way to match a form ends where it is scanned to. -/
theorem mem_rests_pattern {u : Text} :
    u ∈ f.pattern.rests t ↔ (f.length? t).map t.drop = some u := by
  rw [mem_rests, Option.map_eq_some_iff]
  constructor
  · intro h
    obtain ⟨w, hw, rfl⟩ := h
    obtain ⟨b, hb, rfl⟩ := mem_language_pattern.1 hw
    refine ⟨_, length?_eq_some_iff.2 ⟨b, hb, u, rfl, rfl⟩, ?_⟩
    apply List.drop_left'
    simp only [List.length_append]
    omega
  · intro h
    obtain ⟨n, hn, rfl⟩ := h
    obtain ⟨b, hb, rest, ht, rfl⟩ := length?_eq_some_iff.1 hn
    refine ⟨_, mem_language_pattern.2 ⟨b, hb, rfl⟩, ?_⟩
    have hdrop : t.drop (b.length + 2 * f.marks.length) = rest := by
      rw [ht]
      apply List.drop_left'
      simp only [List.length_append]
      omega
    rw [hdrop]
    exact ht

/-- A form is matched as it is scanned. -/
theorem behind?_pattern (f : LiteralForm) (t : Text) :
    f.pattern.behind? t = (f.length? t).map t.drop :=
  behind?_eq fun _ => mem_rests_pattern

end LiteralForm

/-! ## The choice of a form -/

/-- The form with single quotes, three or one on each side. -/
def singleQuoted (tripled : Bool) : LiteralForm := ⟨CodeUnit.singleQuote, tripled, by decide⟩

/-- The form with double quotes, three or one on each side. -/
def doubleQuoted (tripled : Bool) : LiteralForm := ⟨CodeUnit.doubleQuote, tripled, by decide⟩

/-- The forms in the order in which they are tried. -/
def literalForms : List LiteralForm :=
  [singleQuoted true, doubleQuoted true, singleQuoted false, doubleQuoted false]

/-- The regular expression of a literal: the alternation of its forms. -/
def literalPattern : Regex :=
  .alt (singleQuoted true).pattern (.alt (doubleQuoted true).pattern
    (.alt (singleQuoted false).pattern (doubleQuoted false).pattern))

/-- The first form that matches, and what its match leaves. -/
def matchedForm? (t : Text) : Option (LiteralForm × Text) :=
  literalForms.findSome? fun f => (f.pattern.behind? t).map (f, ·)

/-- In front of the scans stand three marks or one. -/
theorem LiteralForm.length?_cons (f : LiteralForm) (q : CodeUnit) (rest : Text) :
    f.length? (q :: rest) =
      if q = f.mark then
        if f.tripled then tripleLength? q rest else (singleBodyLength? q rest).map (· + 1)
      else none := by
  rw [length?, marks, scan, tripleLength?]
  by_cases hq : q = f.mark
  · subst hq
    cases f.tripled <;> simp
  · cases f.tripled <;> simp [hq]

/-- The lexer takes the first form of which there is a literal. -/
private theorem stringLength?_eq_findSome? (t : Text) :
    stringLength? t = literalForms.findSome? (·.length? t) := by
  rcases t with _ | ⟨q, rest⟩
  · rfl
  rw [stringLength?, literalForms]
  simp only [List.findSome?_cons, List.findSome?_nil, LiteralForm.length?_cons, singleQuoted,
    doubleQuoted, if_true, Bool.false_eq_true, if_false]
  by_cases hs : q = CodeUnit.singleQuote
  · subst hs
    cases tripleLength? CodeUnit.singleQuote rest <;>
      cases singleBodyLength? CodeUnit.singleQuote rest <;> rfl
  · by_cases hd : q = CodeUnit.doubleQuote
    · subst hd
      cases tripleLength? CodeUnit.doubleQuote rest <;>
        cases singleBodyLength? CodeUnit.doubleQuote rest <;> rfl
    · have hquote : q.isQuote = false := by simp [CodeUnit.isQuote, hs, hd]
      simp [hquote, hs, hd]

/-- A literal is matched by one of the forms, and the form is scanned to the same end. -/
theorem exists_matchedForm? {t : Text} {n : Nat} (h : stringLength? t = some n) :
    ∃ f, matchedForm? t = some (f, t.drop n) ∧ f.length? t = some n := by
  rw [stringLength?_eq_findSome?] at h
  rw [matchedForm?]
  generalize literalForms = fs at h
  induction fs with
  | nil => cases h
  | cons f fs ih =>
    rw [List.findSome?_cons] at h
    cases hf : f.length? t with
    | some m =>
      rw [hf] at h
      obtain rfl := Option.some.inj h
      exact ⟨f, by rw [List.findSome?_cons, f.behind?_pattern, hf]; rfl, hf⟩
    | none =>
      rw [hf] at h
      obtain ⟨f', hmatch, hlength⟩ := ih h
      exact ⟨f', by rw [List.findSome?_cons, f.behind?_pattern, hf]; exact hmatch, hlength⟩

/-- The regular expression matches what the lexer takes. -/
theorem behind?_literalPattern (t : Text) :
    literalPattern.behind? t = (stringLength? t).map t.drop := by
  rw [literalPattern, behind?_alt, behind?_alt, behind?_alt, stringLength?_eq_findSome?,
    literalForms]
  simp only [List.findSome?_cons, List.findSome?_nil, LiteralForm.behind?_pattern]
  cases (singleQuoted true).length? t <;> cases (doubleQuoted true).length? t <;>
    cases (singleQuoted false).length? t <;> cases (doubleQuoted false).length? t <;> rfl

end TreeMatcher
