import TreeMatcher.Proofs.Repeat.Nested

/-!
# Brackets around a source

A source that compiles is finished, so nothing is left to do when parentheses are put around it: a
group, a group that is repeated once, and what stands behind an exclamation mark all hand on the
matcher of the source. Square brackets are the repeat from zero to one. An optional group is
finished by the unit or by the negation around it, a repeated group by its unit, and all three ways
end with the same wildcard.

The closing bracket stands on a line of its own, where no comment of the source swallows it.

* `Brackets` — the two pairs of brackets, with the texts and the operands they make.
* `Brackets.compiled b m` — what a source in brackets compiles to, when the source compiles to `m`.

## Main results

* `Brackets.scans` — a source in brackets is read as its tokens between two marks.
* `Brackets.matcherOf_enclose`, `Brackets.matcherOf_negated` — what it compiles to, on its own and
  behind an exclamation mark.
* `grouping_transparent` — all ways to group a source agree.
-/

namespace TreeMatcher

open Outcome Grammar Matcher

variable {g : Grammar} {s : Text} {m : Matcher}

/-- A text that is read as one unit compiles as the unit does. -/
private theorem matcherOf_of_scans {t : Text} {i : Item} (hs : Scans t (i.tokens.map Token.bare) [])
    (hi : (i.matcher g).result = .ok m) : g.matcherOf t = .ok m := by
  have hlexed := hs.lexed
  have hwords : (tokens t).map Token.bare =
      (Choice.single (.single i)).tokens.map Token.bare := by
    rw [hlexed.2, Choice.tokens, Sequence.tokens]
  rw [matcherOf_eq_ok_iff hlexed.1 hwords, Choice.matcher_single, Sequence.matcher_single]
  exact hi

/-- The two pairs of brackets that a source may stand in. -/
inductive Brackets where
  | round
  | square

namespace Brackets

/-- A source in brackets, the closing one at the beginning of a line. -/
def enclose : Brackets → Text → Text
  | round, s => "(" ++ s ++ "\n)"
  | square, s => "[" ++ s ++ "\n]"

/-- The operand that a choice in brackets is. -/
def operand : Brackets → Choice → Operand
  | round, c => .basic (.group (markWord 0x28) c (markWord 0x29))
  | square, c => .optional (markWord 0x5B) c (markWord 0x5D)

/-- What brackets make of the matcher of the source. -/
def compiled : Brackets → Matcher → Matcher
  | round, m => m
  | square, m => m.around 0 1 none

/-! ## Reading -/

/-- A source in brackets is read as its tokens between two marks. -/
theorem scans (b : Brackets) {c : Choice} {u : Text} (hu : Quoteless u)
    (hlex : unrecognized s = []) (hc : tokens s = c.tokens) :
    Scans (b.enclose s ++ u) ((b.operand c).tokens.map Token.bare) u := by
  cases b with
  | round =>
    have hread := scans_enclosed (o := .lpar) (k := .rpar) rfl rfl hu hlex
    have htext : enclose round s ++ u = 0x28 :: (s ++ CodeUnit.lineFeed :: 0x29 :: u) := by
      show "(" ++ s ++ "\n)" ++ u = _
      rw [List.append_assoc, List.append_assoc]
      rfl
    rw [htext, operand, Operand.tokens, Basic.tokens, List.map_cons, List.map_append, ← hc]
    exact hread
  | square =>
    have hread := scans_enclosed (o := .lsqb) (k := .rsqb) rfl rfl hu hlex
    have htext : enclose square s ++ u = 0x5B :: (s ++ CodeUnit.lineFeed :: 0x5D :: u) := by
      show "[" ++ s ++ "\n]" ++ u = _
      rw [List.append_assoc, List.append_assoc]
      rfl
    rw [htext, operand, Operand.tokens, List.map_cons, List.map_append, ← hc]
    exact hread

/-- With nothing behind it. -/
private theorem scans_alone (b : Brackets) {c : Choice} (hlex : unrecognized s = [])
    (hc : tokens s = c.tokens) :
    Scans (b.enclose s) ((b.operand c).tokens.map Token.bare) [] := by
  have hread := b.scans (u := []) (by decide) hlex hc
  rwa [List.append_nil] at hread

/-! ## Compiling -/

/-- The operand compiles to a matcher that is finished as the compiled one. Only the optional group
is not finished yet. -/
private theorem result_operand (b : Brackets) {c : Choice} (hc : (c.matcher g).result = .ok m)
    (hm : Shaped g m) :
    ∃ m', ((b.operand c).matcher g).result = .ok m' ∧ m'.finish = .value (b.compiled m) := by
  cases b with
  | round =>
    have hgroup : ((operand round c).matcher g).result = .ok m := by
      rw [operand, Operand.matcher, Basic.matcher]
      exact hc
    exact ⟨m, hgroup, finish_of_settled hm.settled⟩
  | square =>
    have hone : ¬((0 : Number) = 1 ∧ (1 : Number) = 1) := by decide
    have hgroup : ((operand square c).matcher g).result = .ok (wildcard [[m]] 0 1 none) := by
      rw [operand, Operand.matcher, ← Choice.matcher, bind_eq_andThen, result_andThen_of_ok hc,
        repeating_of_valid repeats_zero_one.valid]
      rfl
    exact ⟨_, hgroup, finish_around hm repeats_zero_one hone⟩

/-- A source in brackets compiles to what the brackets make of its matcher. -/
theorem matcherOf_enclose (b : Brackets) (hm : g.matcherOf s = .ok m) :
    g.matcherOf (b.enclose s) = .ok (b.compiled m) := by
  obtain ⟨hlex, c, htokens, hc⟩ := exists_choice_of_matcherOf hm
  obtain ⟨m', hm', hfinish⟩ := b.result_operand hc (shaped_of_matcherOf hm)
  apply matcherOf_of_scans (i := .plain none (b.operand c)) (b.scans_alone hlex htokens)
  rw [Item.matcher, bind_eq_andThen, result_andThen_of_ok hm']
  exact congrArg Outcome.result hfinish

/-- Behind an exclamation mark it compiles to the negation of that. -/
theorem matcherOf_negated (b : Brackets) (hm : g.matcherOf s = .ok m) :
    g.matcherOf ("!" ++ b.enclose s) = .ok (negated (b.compiled m) none) := by
  obtain ⟨hlex, c, htokens, hc⟩ := exists_choice_of_matcherOf hm
  obtain ⟨m', hm', hfinish⟩ := b.result_operand hc (shaped_of_matcherOf hm)
  have hbang : Scans ("!" ++ b.enclose s) [(.bang, [0x21])] (b.enclose s) := .mark rfl _
  apply matcherOf_of_scans (i := .negated (markWord 0x21) (b.operand c))
    (hbang.append (b.scans_alone hlex htokens))
  rw [Item.matcher, bind_eq_andThen, result_andThen_of_ok hm', hfinish, bind_eq_andThen,
    value_andThen]
  exact congrArg Outcome.result (finish_of_settled (settled_negated _ _))

/-- A source in parentheses that is repeated once by a single bound compiles to its matcher. -/
private theorem matcherOf_repeated_once (hm : g.matcherOf s = .ok m) :
    g.matcherOf (round.enclose s ++ "\x7b1\x7d") = .ok m := by
  obtain ⟨hlex, c, htokens, hc⟩ := exists_choice_of_matcherOf hm
  let once : Repeater := .exactly (markWord 0x7B) (boundWord 1) (markWord 0x7D)
  have hbounds : once.bounds = .ok (1, 1) := by
    show Repeater.bounds (.exactly (markWord 0x7B) (boundWord 1) (markWord 0x7D)) = .ok (1, 1)
    rw [Repeater.bounds, boundOf_boundWord (by decide)]
    rfl
  have hrepeat : Scans "\x7b1\x7d" (once.tokens.map Token.bare) [] := by
    have hlegible : ∀ t ∈ once.tokens, t.Legible False := by
      have hword : ((boundWord 1).token .number).Legible False :=
        legible_boundWord fun h => absurd h (by decide)
      simpa [once, Repeater.tokens] using ⟨legible_mark rfl, hword, legible_mark rfl⟩
    exact (once.reads hlegible []).resolve_right fun h => h.1
  apply matcherOf_of_scans
    (i := .repeated none (.group (markWord 0x28) c (markWord 0x29)) once)
  · have hread := (round.scans (by decide) hlex htokens).append hrepeat
    rw [← List.map_append] at hread
    exact hread
  · have hwrapped := result_repeated_group (markWord 0x28) (markWord 0x29) hc
      (shaped_of_matcherOf hm) hbounds repeats_one_one
    rwa [wrapped_once ⟨rfl, rfl⟩] at hwrapped

end Brackets

open Brackets

/-- However a source that compiles is grouped, parentheses add nothing to its matcher, alone or
repeated once, square brackets are the repeat from zero to one, and an exclamation mark negates what
stands behind it. -/
theorem grouping_transparent (hm : g.matcherOf s = .ok m) :
    g.matcherOf (round.enclose s) = .ok m ∧
      g.matcherOf (round.enclose s ++ "\x7b1\x7d") = .ok m ∧
      g.matcherOf (round.enclose s ++ "\x7b1,1\x7d") = .ok m ∧
      g.matcherOf ("!" ++ round.enclose s) = .ok (negated m none) ∧
      ∃ o, g.matcherOf (square.enclose s) = .ok o ∧
        g.matcherOf (round.enclose s ++ "\x7b0,1\x7d") = .ok o ∧
        g.matcherOf ("!" ++ square.enclose s) = .ok (negated o none) := by
  have honce : g.matcherOf (underRepeat s 1 1) = .ok (m.wrapped 1 1 none) :=
    matcherOf_underRepeat hm (Nat.le_refl 1) (inRange_natCast 1 (by decide))
  have hoptional : g.matcherOf (underRepeat s 0 1) = .ok (m.wrapped 0 1 none) :=
    matcherOf_underRepeat hm (Nat.zero_le 1) (inRange_natCast 1 (by decide))
  rw [wrapped_once ⟨rfl, rfl⟩] at honce
  rw [wrapped_of_ne (by decide)] at hoptional
  exact ⟨round.matcherOf_enclose hm, matcherOf_repeated_once hm, honce, round.matcherOf_negated hm,
    _, square.matcherOf_enclose hm, hoptional, square.matcherOf_negated hm⟩

/-- A repeat that merges with the brackets, and a comment behind it. -/
theorem grouping_transparent_comment :
    round.enclose "NAME+ # some" = "(NAME+ # some\n)" ∧
      square.enclose "NAME+ # some" = "[NAME+ # some\n]" ∧
      ∃ m o, expression.matcherOf "NAME+ # some" = .ok m ∧
        expression.matcherOf (round.enclose "NAME+ # some") = .ok m ∧
        expression.matcherOf ("!" ++ round.enclose "NAME+ # some") = .ok (negated m none) ∧
        expression.matcherOf (square.enclose "NAME+ # some") = .ok o ∧
        expression.matcherOf ("!" ++ square.enclose "NAME+ # some") = .ok (negated o none) := by
  have hm : expression.matcherOf "NAME+ # some" =
      .ok (wildcard [[leaf (some (.int 1)) none none]] 1 .infinity none) :=
    eq_ok_of_toOption (by decide +kernel)
  obtain ⟨hround, -, -, hnot, o, hsquare, -, hnotSquare⟩ := grouping_transparent hm
  exact ⟨by decide, by decide, _, o, hm, hround, hnot, hsquare, hnotSquare⟩

end TreeMatcher
