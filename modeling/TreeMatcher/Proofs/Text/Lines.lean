import Mathlib.Data.List.Basic
import TreeMatcher.Pattern.Token

/-!
# Lines and positions

There are two ways to count the lines of a text. The lines are split at line feeds, with a carriage
return in front as part of the break; a position goes on to the next line at a carriage return too.
So the two counts differ by the carriage returns that no line feed follows, the stray ones, and as
long as there are none, a position is where it should be: on the last line that has begun, behind
its units.

* `Text.strayReturns t` — the number of carriage returns without a line feed.
* `Text.firstLine t`, `Text.lastLine t` — the first and the last line of a text.
* `Text.columnBehind k t` — the column behind a text if only line feeds open lines.

## Main results

* `Position.line_after` — the line of a position counts line feeds and stray carriage returns.
* `Position.column_after` — without stray ones the column is behind the units of the last line, and
  otherwise it is nearer to the beginning of a line, by `Position.column_after_le`.
* `Text.getElem?_lines_append` — the line on which one text ends and another one begins.
-/

namespace TreeMatcher

namespace Text

/-! ## Carriage returns -/

/-- The number of carriage returns that no line feed follows. -/
def strayReturns : Text → Nat
  | [] => 0
  | c :: rest =>
    if c = CodeUnit.carriageReturn ∧ rest.head? ≠ some CodeUnit.lineFeed then strayReturns rest + 1
    else strayReturns rest

theorem strayReturns_append {s : Text} (hs : s.getLast? ≠ some CodeUnit.carriageReturn) (t : Text) :
    strayReturns (s ++ t) = strayReturns s + strayReturns t := by
  induction s with
  | nil => exact (Nat.zero_add _).symm
  | cons c s ih =>
    cases s with
    | nil =>
      have hc : c ≠ CodeUnit.carriageReturn := fun hc => hs (congrArg some hc)
      simp [strayReturns, hc]
    | cons d s =>
      rw [List.getLast?_cons_cons] at hs
      rw [List.cons_append, strayReturns, strayReturns, ih hs, List.cons_append, List.head?_cons,
        List.head?_cons]
      by_cases hc : c = CodeUnit.carriageReturn ∧ some d ≠ some CodeUnit.lineFeed
      · rw [if_pos hc, if_pos hc]
        omega
      · rw [if_neg hc, if_neg hc]

/-! ## First and last lines -/

/-- The first line of a text. -/
def firstLine (t : Text) : Text := (lines t).headD []

/-- The last line of a text. -/
def lastLine (t : Text) : Text := (lines t).getLastD []

/-- What a unit in front does to the lines of a text. -/
private theorem lines_cons (c : CodeUnit) (t : Text) :
    (c = CodeUnit.lineFeed ∧ lines (c :: t) = [] :: lines t) ∨
      (c ≠ CodeUnit.lineFeed ∧ c = CodeUnit.carriageReturn ∧ t.head? = some CodeUnit.lineFeed ∧
        lines (c :: t) = lines t) ∨
      c ≠ CodeUnit.lineFeed ∧ ¬(c = CodeUnit.carriageReturn ∧ t.head? = some CodeUnit.lineFeed) ∧
        lines (c :: t) = onFirstLine c (lines t) := by
  rw [lines]
  by_cases hc : c = CodeUnit.lineFeed
  · exact .inl ⟨hc, if_pos (by simpa using hc)⟩
  · right
    rw [if_neg (by simpa using hc)]
    by_cases hr : c = CodeUnit.carriageReturn ∧ t.head? = some CodeUnit.lineFeed
    · exact .inl ⟨hc, hr.1, hr.2, if_pos (by simpa using hr)⟩
    · exact .inr ⟨hc, hr, if_neg (by simpa using hr)⟩

private theorem length_onFirstLine (c : CodeUnit) {ls : List Text} (h : ls ≠ []) :
    (onFirstLine c ls).length = ls.length := by
  cases ls with
  | nil => exact absurd rfl h
  | cons l ls => rfl

/-- There is one line more than line feeds. -/
theorem length_lines (t : Text) : (lines t).length = t.count CodeUnit.lineFeed + 1 := by
  induction t with
  | nil => rfl
  | cons c t ih =>
    rcases lines_cons c t with ⟨hc, h⟩ | ⟨hc, -, -, h⟩ | ⟨hc, -, h⟩
    · rw [h, hc, List.count_cons_self, List.length_cons, ih]
    · rw [h, List.count_cons_of_ne hc, ih]
    · rw [h, List.count_cons_of_ne hc, length_onFirstLine c (lines_ne_nil t), ih]

/-- A text without line feeds is one line. -/
private theorem lines_of_no_lineFeed {t : Text} (h : CodeUnit.lineFeed ∉ t) : lines t = [t] := by
  induction t with
  | nil => rfl
  | cons c t ih =>
    rw [List.mem_cons, not_or] at h
    obtain ⟨hc, ht⟩ := h
    rcases lines_cons c t with ⟨hfeed, -⟩ | ⟨-, -, hhead, -⟩ | ⟨-, -, hl⟩
    · exact absurd hfeed.symm hc
    · exact absurd (List.mem_of_mem_head? hhead) ht
    · rw [hl, ih ht]
      rfl

theorem lastLine_of_no_lineFeed {t : Text} (h : CodeUnit.lineFeed ∉ t) : lastLine t = t := by
  rw [lastLine, lines_of_no_lineFeed h]
  rfl

/-! ## The column behind a text -/

/-- A unit in front of some lines is on the last one if there is no other. -/
private theorem getLastD_onFirstLine (c : CodeUnit) {ls : List Text} (h : ls ≠ []) :
    (onFirstLine c ls).getLastD [] =
      if ls.length = 1 then c :: ls.getLastD [] else ls.getLastD [] := by
  rcases ls with _ | ⟨l, _ | ⟨l', ls⟩⟩
  · exact absurd rfl h
  · rfl
  · rw [if_neg (by simp)]
    rfl

/-- The column behind a text that begins at the column `k`, if only line feeds open lines. -/
def columnBehind (k : Nat) (t : Text) : Nat :=
  (if t.count CodeUnit.lineFeed = 0 then k else 1) + (lastLine t).length

theorem columnBehind_mono {k k' : Nat} (h : k ≤ k') (t : Text) :
    columnBehind k t ≤ columnBehind k' t := by
  unfold columnBehind
  split
  · omega
  · exact Nat.le_refl _

private theorem columnBehind_lineFeed (k : Nat) (t : Text) :
    columnBehind k (CodeUnit.lineFeed :: t) = columnBehind 1 t := by
  have hl : lines (CodeUnit.lineFeed :: t) = [] :: lines t := rfl
  rw [columnBehind, columnBehind, lastLine, hl, List.count_cons_self, if_neg (Nat.succ_ne_zero _),
    ite_self, List.getLastD_cons]
  rfl

/-- A carriage return goes with the line feed behind it. -/
private theorem columnBehind_pair (k : Nat) {t : Text} (h : t.head? = some CodeUnit.lineFeed) :
    columnBehind k (CodeUnit.carriageReturn :: t) = columnBehind k t := by
  rcases lines_cons CodeUnit.carriageReturn t with ⟨hc, -⟩ | ⟨hc, -, -, hl⟩ | ⟨-, hr, -⟩
  · exact absurd hc (by decide)
  · rw [columnBehind, columnBehind, lastLine, hl, List.count_cons_of_ne hc]
    rfl
  · exact absurd ⟨rfl, h⟩ hr

private theorem columnBehind_within (k : Nat) {c : CodeUnit} {t : Text} (hc : c ≠ CodeUnit.lineFeed)
    (hr : ¬(c = CodeUnit.carriageReturn ∧ t.head? = some CodeUnit.lineFeed)) :
    columnBehind k (c :: t) = columnBehind (k + 1) t := by
  rcases lines_cons c t with ⟨hfeed, -⟩ | ⟨-, hreturn, hd, -⟩ | ⟨-, -, hl⟩
  · exact absurd hfeed hc
  · exact absurd ⟨hreturn, hd⟩ hr
  · rw [columnBehind, columnBehind, lastLine, hl, List.count_cons_of_ne hc,
      getLastD_onFirstLine c (lines_ne_nil t), length_lines, ← lastLine]
    by_cases hcount : t.count CodeUnit.lineFeed = 0
    · rw [if_pos hcount, if_pos hcount, if_pos (by rw [hcount]), List.length_cons]
      omega
    · rw [if_neg hcount, if_neg hcount, if_neg (by omega)]

/-! ## The line on which one text ends and another begins -/

/-- Lines and lines behind them, the last of the one and the first of the other being one line. -/
def joinLines : List Text → List Text → List Text
  | [], us => us
  | [l], us => (l ++ us.headD []) :: us.tail
  | l :: l' :: ls, us => l :: joinLines (l' :: ls) us

private theorem onFirstLine_joinLines (c : CodeUnit) {ls : List Text} (h : ls ≠ [])
    (us : List Text) :
    onFirstLine c (joinLines ls us) = joinLines (onFirstLine c ls) us := by
  rcases ls with _ | ⟨l, _ | ⟨l', ls⟩⟩
  · exact absurd rfl h
  · rfl
  · rfl

private theorem joinLines_cons (l : Text) {ls : List Text} (h : ls ≠ []) (us : List Text) :
    joinLines (l :: ls) us = l :: joinLines ls us := by
  obtain ⟨l', ls, rfl⟩ := List.exists_cons_of_ne_nil h
  rfl

/-- Unless a cut separates a carriage return from its line feed, only the line of the cut is made of
two. -/
private theorem lines_append {s t : Text}
    (h : s.getLast? = some CodeUnit.carriageReturn → t.head? ≠ some CodeUnit.lineFeed) :
    lines (s ++ t) = joinLines (lines s) (lines t) := by
  induction s with
  | nil =>
    obtain ⟨l, ls, hls⟩ := List.exists_cons_of_ne_nil (lines_ne_nil t)
    rw [List.nil_append, hls]
    rfl
  | cons c s ih =>
    have hrest : s.getLast? = some CodeUnit.carriageReturn → t.head? ≠ some CodeUnit.lineFeed := by
      intro hs
      apply h
      rw [List.getLast?_cons, hs]
      rfl
    have hne := lines_ne_nil s
    rw [List.cons_append]
    rcases lines_cons c s with ⟨hc, hl⟩ | ⟨hc, hr, hd, hl⟩ | ⟨hc, hr, hl⟩
    · rcases lines_cons c (s ++ t) with ⟨-, hl'⟩ | ⟨hc', -⟩ | ⟨hc', -⟩
      · rw [hl', hl, ih hrest, joinLines_cons _ hne]
      · exact absurd hc hc'
      · exact absurd hc hc'
    · have hd' : (s ++ t).head? = some CodeUnit.lineFeed := by
        rw [List.head?_append, hd]
        rfl
      rcases lines_cons c (s ++ t) with ⟨hc', -⟩ | ⟨-, -, -, hl'⟩ | ⟨-, hr', -⟩
      · exact absurd hc' hc
      · rw [hl', hl, ih hrest]
      · exact absurd ⟨hr, hd'⟩ hr'
    · have hr' : ¬(c = CodeUnit.carriageReturn ∧ (s ++ t).head? = some CodeUnit.lineFeed) := by
        intro hboth
        cases s with
        | nil => exact h (congrArg some hboth.1) hboth.2
        | cons d s => exact hr hboth
      rcases lines_cons c (s ++ t) with ⟨hc', -⟩ | ⟨-, hreturn, hd, -⟩ | ⟨-, -, hl'⟩
      · exact absurd hc' hc
      · exact absurd ⟨hreturn, hd⟩ hr'
      · rw [hl', hl, ih hrest, onFirstLine_joinLines c hne]

private theorem getElem?_joinLines {ls : List Text} (h : ls ≠ []) (us : List Text) :
    (joinLines ls us)[ls.length - 1]? = some (ls.getLastD [] ++ us.headD []) := by
  induction ls with
  | nil => exact absurd rfl h
  | cons l ls ih =>
    cases ls with
    | nil => rfl
    | cons l' ls => exact ih (List.cons_ne_nil l' ls)

/-- The line on which one text ends and another one begins. -/
theorem getElem?_lines_append {s t : Text}
    (h : s.getLast? = some CodeUnit.carriageReturn → t.head? ≠ some CodeUnit.lineFeed) :
    (lines (s ++ t))[s.count CodeUnit.lineFeed]? = some (lastLine s ++ firstLine t) := by
  have hjoin := getElem?_joinLines (lines_ne_nil s) (lines t)
  rw [length_lines, Nat.add_sub_cancel] at hjoin
  rw [lines_append h, hjoin]
  rfl

private theorem getLastD_joinLines {ls us : List Text} (hls : ls ≠ []) (hus : us ≠ []) :
    (joinLines ls us).getLastD [] =
      if us.length = 1 then ls.getLastD [] ++ us.getLastD [] else us.getLastD [] := by
  induction ls with
  | nil => exact absurd rfl hls
  | cons l ls ih =>
    cases ls with
    | nil =>
      obtain ⟨u, us, rfl⟩ := List.exists_cons_of_ne_nil hus
      cases us with
      | nil => rfl
      | cons u' us =>
        rw [if_neg (by simp)]
        rfl
    | cons l' ls =>
      have hne : joinLines (l' :: ls) us ≠ [] := by
        cases ls <;> simp [joinLines]
      have ih := ih (List.cons_ne_nil l' ls)
      rw [joinLines_cons l (List.cons_ne_nil l' ls), List.getLastD_cons, List.getLastD_cons]
      obtain ⟨m, ms, hm⟩ := List.exists_cons_of_ne_nil hne
      rw [hm] at ih ⊢
      exact ih

/-- The last line of two texts is that of the second one, with that of the first one in front if
the second one does not begin another line. -/
private theorem lastLine_append {s t : Text}
    (h : s.getLast? = some CodeUnit.carriageReturn → t.head? ≠ some CodeUnit.lineFeed) :
    lastLine (s ++ t) =
      if t.count CodeUnit.lineFeed = 0 then lastLine s ++ lastLine t else lastLine t := by
  rw [lastLine, lines_append h, getLastD_joinLines (lines_ne_nil s) (lines_ne_nil t), length_lines]
  by_cases hcount : t.count CodeUnit.lineFeed = 0
  · rw [if_pos hcount, if_pos (by omega)]
    rfl
  · rw [if_neg hcount, if_neg (by omega)]
    rfl

theorem columnBehind_append (k : Nat) {s t : Text}
    (h : s.getLast? = some CodeUnit.carriageReturn → t.head? ≠ some CodeUnit.lineFeed) :
    columnBehind k (s ++ t) = columnBehind (columnBehind k s) t := by
  rw [columnBehind, columnBehind, columnBehind, List.count_append, lastLine_append h]
  by_cases hcount : t.count CodeUnit.lineFeed = 0
  · rw [if_pos hcount, if_pos hcount, List.length_append, hcount, Nat.add_zero]
    omega
  · rw [if_neg hcount, if_neg hcount, if_neg (by omega)]

/-- A line ends in front of its line feed. -/
private theorem length_firstLine_le (s t : Text) :
    (firstLine (s ++ CodeUnit.lineFeed :: t)).length ≤ s.length := by
  induction s with
  | nil => exact Nat.le_refl 0
  | cons c s ih =>
    rw [List.cons_append, firstLine]
    rcases lines_cons c (s ++ CodeUnit.lineFeed :: t) with ⟨-, hl⟩ | ⟨-, -, -, hl⟩ | ⟨-, -, hl⟩
    · rw [hl]
      exact Nat.zero_le _
    · rw [hl]
      exact Nat.le_succ_of_le ih
    · obtain ⟨l, ls, hls⟩ := List.exists_cons_of_ne_nil
        (lines_ne_nil (s ++ CodeUnit.lineFeed :: t))
      rw [firstLine, hls] at ih
      rw [hl, hls]
      exact Nat.succ_le_succ ih

/-- What a text begins with is on its first line exactly if no line feed is in it. -/
theorem length_le_firstLine_iff {s t : Text}
    (h : s.getLast? = some CodeUnit.carriageReturn → t.head? ≠ some CodeUnit.lineFeed) :
    s.length ≤ (firstLine (s ++ t)).length ↔ CodeUnit.lineFeed ∉ s := by
  constructor
  · intro hle hmem
    obtain ⟨a, b, rfl⟩ := List.append_of_mem hmem
    have hshort := length_firstLine_le a (b ++ t)
    rw [List.append_assoc, List.cons_append, List.length_append, List.length_cons] at hle
    omega
  · intro hfeed
    obtain ⟨l, ls, hls⟩ := List.exists_cons_of_ne_nil (lines_ne_nil t)
    have hfirst : firstLine (s ++ t) = s ++ l := by
      rw [firstLine, lines_append h, lines_of_no_lineFeed hfeed, hls]
      rfl
    rw [hfirst, List.length_append]
    omega

/-- Up to its first line end, what a text begins with is on the first line. -/
theorem takeWhile_prefix_firstLine (s t : Text) :
    s.takeWhile (!·.isLineEnd) <+: firstLine (s ++ t) := by
  induction s with
  | nil => exact List.nil_prefix
  | cons c s ih =>
    by_cases hc : c.isLineEnd
    · rw [List.takeWhile_cons_of_neg (by simp [hc])]
      exact List.nil_prefix
    · rw [List.takeWhile_cons_of_pos (by simp [hc])]
      have hne : c ≠ CodeUnit.lineFeed ∧ c ≠ CodeUnit.carriageReturn := by
        simpa [CodeUnit.isLineEnd] using hc
      rw [List.cons_append]
      rcases lines_cons c (s ++ t) with ⟨hfeed, -⟩ | ⟨-, hreturn, -⟩ | ⟨-, -, hl⟩
      · exact absurd hfeed hne.1
      · exact absurd hreturn hne.2
      · obtain ⟨l, ls, hls⟩ := List.exists_cons_of_ne_nil (lines_ne_nil (s ++ t))
        rw [firstLine, hls] at ih
        rw [firstLine, hl, hls]
        exact (List.prefix_cons_inj c).2 ih

end Text

/-! ## Positions -/

namespace Position

open Text

private theorem step_lineFeed (p : Position) : p.step CodeUnit.lineFeed = p.nextLine := rfl

private theorem step_carriageReturn (p : Position) :
    p.step CodeUnit.carriageReturn = p.nextLine := rfl

/-- What the position behind a text owes to its first unit. -/
private theorem after_cons (p : Position) (c : CodeUnit) (t : Text) :
    (c = CodeUnit.lineFeed ∧ p.after (c :: t) = p.nextLine.after t) ∨
      (c = CodeUnit.carriageReturn ∧ t.head? = some CodeUnit.lineFeed ∧
        p.after (c :: t) = p.after t) ∨
      (c = CodeUnit.carriageReturn ∧ t.head? ≠ some CodeUnit.lineFeed ∧
        p.after (c :: t) = p.nextLine.after t) ∨
      c ≠ CodeUnit.lineFeed ∧ c ≠ CodeUnit.carriageReturn ∧
        p.after (c :: t) = (p.right 1).after t := by
  rw [after]
  by_cases hc : c = CodeUnit.lineFeed
  · have hr : c ≠ CodeUnit.carriageReturn := by
      rw [hc]
      decide
    exact .inl ⟨hc, by rw [if_neg fun h => hr h.1, hc, step_lineFeed]⟩
  by_cases hr : c = CodeUnit.carriageReturn
  · by_cases hd : t.head? = some CodeUnit.lineFeed
    · exact .inr (.inl ⟨hr, hd, if_pos ⟨hr, hd⟩⟩)
    · exact .inr (.inr (.inl ⟨hr, hd, by rw [if_neg fun h => hd h.2, hr, step_carriageReturn]⟩))
  · have hstep : p.step c = p.right 1 := by
      rw [step, if_neg (by simp [CodeUnit.isLineEnd, hc, hr])]
    exact .inr (.inr (.inr ⟨hc, hr, by rw [if_neg fun h => hr h.1, hstep]⟩))

/-- The line of a position counts line feeds and stray carriage returns. -/
theorem line_after (p : Position) (t : Text) :
    (p.after t).line = p.line + t.count CodeUnit.lineFeed + strayReturns t := by
  induction t generalizing p with
  | nil => rfl
  | cons c t ih =>
    rw [strayReturns]
    rcases after_cons p c t with ⟨hc, ha⟩ | ⟨hr, hd, ha⟩ | ⟨hr, hd, ha⟩ | ⟨hc, hr, ha⟩
    · rw [ha, ih, hc, List.count_cons_self, if_neg fun h => absurd h.1 (by decide), nextLine]
      dsimp only
      omega
    · rw [ha, ih, hr, if_neg fun h => h.2 hd, List.count_cons_of_ne (by decide)]
    · rw [ha, ih, hr, if_pos ⟨rfl, hd⟩, List.count_cons_of_ne (by decide), nextLine]
      dsimp only
      omega
    · rw [ha, ih, if_neg fun h => hr h.1, List.count_cons_of_ne hc, right]

/-- Without stray carriage returns, the column of a position is behind the units of the last
line. -/
theorem column_after (p : Position) {t : Text} (h : strayReturns t = 0) :
    (p.after t).column =
      (if t.count CodeUnit.lineFeed = 0 then p.column else 1) + (lastLine t).length := by
  show _ = columnBehind p.column t
  induction t generalizing p with
  | nil => rfl
  | cons c t ih =>
    rw [strayReturns] at h
    split at h
    · cases h
    next hstray =>
    rcases after_cons p c t with ⟨hc, ha⟩ | ⟨hr, hd, ha⟩ | ⟨hr, hd, -⟩ | ⟨hc, hr, ha⟩
    · rw [ha, ih _ h, hc, columnBehind_lineFeed]
      rfl
    · rw [ha, ih _ h, hr, columnBehind_pair _ hd]
    · exact absurd ⟨hr, hd⟩ hstray
    · rw [ha, ih _ h, columnBehind_within _ hc fun hpair => hr hpair.1]
      rfl

/-- A stray carriage return only brings the column nearer to the beginning of a line. -/
theorem column_after_le (p : Position) (t : Text) :
    (p.after t).column ≤ columnBehind p.column t := by
  induction t generalizing p with
  | nil => exact Nat.le_refl p.column
  | cons c t ih =>
    rcases after_cons p c t with ⟨hc, ha⟩ | ⟨hr, hd, ha⟩ | ⟨hr, hd, ha⟩ | ⟨hc, hr, ha⟩
    · rw [ha, hc, columnBehind_lineFeed]
      exact ih p.nextLine
    · rw [ha, hr, columnBehind_pair _ hd]
      exact ih p
    · have hfeed : c ≠ CodeUnit.lineFeed := by
        rw [hr]
        decide
      rw [ha, columnBehind_within _ hfeed fun hpair => hd hpair.2]
      exact Nat.le_trans (ih p.nextLine) (columnBehind_mono (Nat.le_add_left 1 p.column) t)
    · rw [ha, columnBehind_within _ hc fun hpair => hr hpair.1]
      exact ih (p.right 1)

end Position

end TreeMatcher
