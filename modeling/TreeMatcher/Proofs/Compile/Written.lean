import TreeMatcher.Proofs.Compile.Places
import TreeMatcher.Proofs.Pattern.Layout
import TreeMatcher.Session

/-!
# Compiling a phrase that is written down

A phrase is written down, read, parsed and compiled. The words read are those of the phrase, so the
tree is that of the same phrase at other places, and places do not matter to the matcher.

## Main results

* `Choice.matcherOf_text` — a text written for a phrase compiles as the phrase does.
* `Choice.result_of_matcherOf_text` — if it compiles at all where numbers may be rounded.
-/

namespace TreeMatcher

open Grammar

variable {g : Grammar} {c : Choice}

/-- A text that is lexed as the words of a phrase compiles as the phrase does. -/
theorem matcherOf_eq_ok_iff {t : Text} (hlex : unrecognized t = [])
    (hwords : (tokens t).map Token.bare = c.tokens.map Token.bare) {m : Matcher} :
    g.matcherOf t = .ok m ↔ (c.matcher g).result = .ok m := by
  obtain ⟨c', htokens, herase⟩ := c.exists_of_bare (tokens t) hwords
  have hparse : parse t = .ok c'.pattern := parse_eq_ok_iff_choice.2 ⟨hlex, c', htokens.symm, rfl⟩
  have hsame : (c'.matcher g).unlocated = (c.matcher g).unlocated := by
    rw [c'.unlocated_matcher, c.unlocated_matcher, herase]
  rw [← Outcome.result_eq_ok_of_unlocated hsame, matcherOf, matcherOfText_eq g hparse,
    Outcome.andThen]
  cases (c'.matcher g).result <;> simp

/-- A text that compiles is lexed and has a tree. -/
theorem exists_tree_of_matcherOf {t : Text} {m : Matcher} (h : g.matcherOf t = .ok m) :
    ∃ tree, parse t = .ok tree := by
  cases hparse : parse t with
  | error e =>
    rw [matcherOf, matcherOfText, hparse] at h
    cases h
  | ok tree => exact ⟨tree, rfl⟩

/-- A text written for a phrase compiles as the phrase does. -/
theorem Choice.matcherOf_text (hc : ∀ t ∈ c.tokens, t.Legible False) {m : Matcher} :
    g.matcherOf c.text = .ok m ↔ (c.matcher g).result = .ok m := by
  have hreads := c.reads hc [] free_nil
  rw [List.append_nil] at hreads
  rcases hreads with hscans | ⟨hfalse, -⟩
  · obtain ⟨hlex, hwords⟩ := hscans.lexed
    exact matcherOf_eq_ok_iff hlex hwords
  · exact hfalse.elim

/-- Also where numbers may be rounded, a text written for a phrase compiles to nothing else. -/
theorem Choice.result_of_matcherOf_text (hc : ∀ t ∈ c.tokens, t.Legible True) {m : Matcher}
    (h : g.matcherOf c.text = .ok m) : (c.matcher g).result = .ok m := by
  have hreads := c.reads hc [] free_nil
  rw [List.append_nil] at hreads
  rcases hreads with hscans | ⟨-, hspoiled⟩
  · obtain ⟨hlex, hwords⟩ := hscans.lexed
    exact (matcherOf_eq_ok_iff hlex hwords).1 h
  · obtain ⟨tree, htree⟩ := exists_tree_of_matcherOf h
    exact absurd htree (parse_spoiled hspoiled tree)

end TreeMatcher
