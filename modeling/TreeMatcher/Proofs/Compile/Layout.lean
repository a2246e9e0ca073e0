import TreeMatcher.Proofs.Compile.Excerpt
import TreeMatcher.Proofs.Compile.Safety
import TreeMatcher.Proofs.Pattern.Alike
import TreeMatcher.Proofs.Repeat.Units

/-!
# Layout does not matter

Two texts that are lexed to tokens of the same kinds and texts compile alike, whatever blanks, line
breaks and comments stand between the tokens. Either both have a tree, and then the trees are those
of the same phrase at other places; or the parser meets the same mismatch in both. What is different
in the errors is the line and the column, and of these only the line is named in a message.

* `Outcome.warnings` — the warnings among the events.

## Main results

* `parse_alike` — the same phrase at other places, or errors of the same wording.
* `layout_irrelevant` — the matcher, the warnings and the wording of the error do not depend on
  layout.
-/

namespace TreeMatcher

open Grammar

/-- The warnings among the events of an outcome. -/
def Outcome.warnings {α : Type} (o : Outcome α) : List Event := o.events.filter Event.isWarning

/-- Of two outcomes that differ in nothing but places, both give the same value, or both are
refused for the same cause. -/
private theorem Outcome.Safe.cases_of_unlocated {α : Type} {P : α → Prop} {o o' : Outcome α}
    (hsafe : o.Safe P) (h : o.unlocated = o'.unlocated) :
    (∃ a, o.result = .ok a ∧ o'.result = .ok a) ∨
      ∃ e e', o.result = .error (.pattern e) ∧ o'.result = .error (.pattern e') ∧
        e.cause = e'.cause := by
  rcases results_of_unlocated h with hvalue | ⟨x, x', hx, hx', hunlocated⟩
  · exact .inl hvalue
  · rcases hsafe.cases with ⟨a, ha, -⟩ | ⟨e, he⟩
    · rw [hx] at ha
      cases ha
    · rw [hx] at he
      cases he
      cases x' with
      | pattern e' =>
        have hplace : PatternError.nowhere e.cause = .nowhere e'.cause :=
          CompileError.pattern.inj hunlocated
        exact .inr ⟨e, e', hx, hx', congrArg (·.cause) hplace⟩
      | _ => cases hunlocated

/-- Mismatches that differ in nothing but places are worded alike. -/
private theorem Mismatch.message_of_bare {m m' : Mismatch} (h : m.bare = m'.bare) :
    m.message = m'.message := by
  obtain ⟨hexpected, hfound⟩ := Prod.mk.inj h
  have htext : m.foundText = m'.foundText := by
    have hof (m : Mismatch) : m.foundText = ((m.found?.map Token.bare).map Prod.snd).getD [] := by
      rw [foundText]
      cases m.found? <;> rfl
    rw [hof, hof, hfound]
  rw [message, message, hexpected, htext]

private theorem Mismatch.cause_toError (m : Mismatch) : m.toError.cause = .mismatch m := by
  rw [toError]
  split <;> rfl

variable {s t : Text} {ts us : List Token}

/-- Texts whose tokens differ in nothing but places have trees of the same phrase, or both have
none for errors of the same wording. -/
theorem parse_alike (hs : lex s = .ok ts) (ht : lex t = .ok us)
    (h : ts.map Token.bare = us.map Token.bare) :
    (∃ c c' : Choice, parse s = .ok c.pattern ∧ parse t = .ok c'.pattern ∧ c.erase = c'.erase) ∨
      ∃ e e', parse s = .error e ∧ parse t = .error e' ∧ e.cause.message = e'.cause.message := by
  have hmismatches := bare_mismatches .strict h
  cases hms : (parseTokens .strict ts).2 with
  | nil =>
    obtain ⟨hu, rfl⟩ := lex_eq_ok_iff.1 hs
    obtain ⟨hu', rfl⟩ := lex_eq_ok_iff.1 ht
    have hparse : parse s = .ok (parseTokens .strict (tokens s)).1 :=
      parse_eq_ok_iff.2 ⟨hu, Prod.ext rfl hms⟩
    obtain ⟨-, c, htokens, hc⟩ := parse_eq_ok_iff_choice.1 hparse
    obtain ⟨c', htokens', herase⟩ := c.exists_of_bare (tokens t) (by rw [← h, htokens])
    exact .inl ⟨c, c', hc ▸ hparse, parse_eq_ok_iff_choice.2 ⟨hu', c', htokens'.symm, rfl⟩,
      herase.symm⟩
  | cons m ms =>
    rw [hms, List.map_cons] at hmismatches
    obtain ⟨m', ms', hms', hm, -⟩ := List.map_eq_cons_iff.1 hmismatches.symm
    have hparse {s : Text} {ts : List Token} {m : Mismatch} {ms : List Mismatch}
        (hs : lex s = .ok ts) (hms : (parseTokens .strict ts).2 = m :: ms) :
        parse s = .error m.toError := by
      rw [parse, hs]
      dsimp only
      rw [show parseTokens .strict ts = ((parseTokens .strict ts).1, m :: ms) from Prod.ext rfl hms]
    refine .inr ⟨m.toError, m'.toError, hparse hs hms, hparse ht hms', ?_⟩
    rw [m.cause_toError, m'.cause_toError]
    exact Mismatch.message_of_bare hm.symm

/-- Texts that are lexed to the same kinds and texts of tokens compile to the same matcher with the
same warnings, or both are refused with the same message behind the line. -/
theorem layout_irrelevant (g : Grammar) (hs : lex s = .ok ts) (ht : lex t = .ok us)
    (h : ts.map Token.bare = us.map Token.bare) :
    (g.matcherOfText s).warnings = (g.matcherOfText t).warnings ∧
      ((∃ tree tree' m, (g.matcherOfText s).result = .ok (tree, m) ∧
          (g.matcherOfText t).result = .ok (tree', m)) ∨
        ∃ e e' wording, (g.matcherOfText s).result = .error (.pattern e) ∧
          (g.matcherOfText t).result = .error (.pattern e') ∧
          e.message = PatternError.withLine e.line? wording ∧
          e'.message = PatternError.withLine e'.line? wording) := by
  rcases parse_alike hs ht h with ⟨c, c', hc, hc', herase⟩ | ⟨e, e', he, he', hcause⟩
  · have hsame : (c.matcher g).unlocated = (c'.matcher g).unlocated := by
      rw [c.unlocated_matcher, c'.unlocated_matcher, herase]
    have hevents : (c.matcher g).events = (c'.matcher g).events := by
      have := congrArg Outcome.events hsame
      exact this
    have hsafe := c.safe_matcher g (Choice.fits_of_parse hc)
    rw [matcherOfText_eq g hc, matcherOfText_eq g hc', Outcome.andThen, Outcome.andThen]
    rcases hsafe.cases_of_unlocated hsame with ⟨m, hm, hm'⟩ | ⟨e, e', he, he', hcause⟩
    · rw [hm, hm']
      refine ⟨?_, .inl ⟨_, _, m, rfl, rfl⟩⟩
      simp only [Outcome.warnings, List.filter_append, hevents]
      rfl
    · rw [he, he']
      exact ⟨congrArg (List.filter Event.isWarning) hevents,
        .inr ⟨e, e', e.cause.message, rfl, rfl, rfl, by rw [hcause]; rfl⟩⟩
  · have hrefused {s : Text} {e : PatternError} (he : parse s = .error e) :
        g.matcherOfText s = .refuse e := by rw [matcherOfText, he]
    rw [hrefused he, hrefused he']
    exact ⟨rfl, .inr ⟨e, e', e.cause.message, rfl, rfl, rfl, by rw [hcause]; rfl⟩⟩

/-- A comment and line breaks within a repeater change neither its matcher nor its warning. -/
theorem layout_irrelevant_comment :
    (∃ tree tree' m,
      (expression.matcherOfText "NAME\x7b3,1\x7d").result = .ok (tree, m) ∧
        (expression.matcherOfText "NAME # of these\r\n\x7b3,\n1\x7d").result = .ok (tree', m)) ∧
      (expression.matcherOfText "NAME # of these\r\n\x7b3,\n1\x7d").warnings =
        [.neverMatches 3 1] := by
  have hs : unrecognized "NAME\x7b3,1\x7d" = [] := by decide +kernel
  have ht : unrecognized "NAME # of these\r\n\x7b3,\n1\x7d" = [] := by decide +kernel
  have hbare : (tokens "NAME\x7b3,1\x7d").map Token.bare =
      (tokens "NAME # of these\r\n\x7b3,\n1\x7d").map Token.bare := by decide +kernel
  have hok : (expression.matcherOfText "NAME\x7b3,1\x7d").result.toOption.isSome := by
    decide +kernel
  have hwarnings : (expression.matcherOfText "NAME\x7b3,1\x7d").warnings = [.neverMatches 3 1] := by
    decide +kernel
  obtain ⟨hsame, hmatcher⟩ :=
    layout_irrelevant expression (lex_eq_ok_iff.2 ⟨hs, rfl⟩) (lex_eq_ok_iff.2 ⟨ht, rfl⟩) hbare
  rw [← hsame]
  rcases hmatcher with hmatcher | ⟨e, e', wording, he, -⟩
  · exact ⟨hmatcher, hwarnings⟩
  · rw [he] at hok
    cases hok

end TreeMatcher
