import Mathlib.Order.Bounds.Defs
import TreeMatcher.Proofs.Compile.Places
import TreeMatcher.Proofs.Pattern.Accepted
import TreeMatcher.Proofs.Pattern.Foresight
import TreeMatcher.Proofs.Pattern.Layout

/-!
# The first token that cannot stand where it stands

Which kinds of tokens a pattern may be made up of is asked without the parser at hand: kinds are
accepted when some text with these tokens has a tree, and they are the beginning of accepted kinds
when more of them can be added. Any kinds can be spelled as a text, so accepted kinds are just those
of phrases, and what is known of the parser on tokens carries over.

* `Accepted` — the kinds of the tokens of some text with a tree.
* `Viable` — the beginnings of accepted kinds.
* `ImpossibleAt` — a token that no pattern goes on with, given the tokens in front of it.

## Main results

* `accepted_iff` — accepted kinds are those of a phrase.
* `parse_error_at_first_impossible` — the error of a refused text is at the first impossible token,
  and without one it has no place.
-/

namespace TreeMatcher

/-- The kinds of the tokens of some text with a tree. -/
def Accepted (ks : List TokenKind) : Prop :=
  ∃ source tree, parse source = .ok tree ∧ (tokens source).map Token.kind = ks

/-- The beginning of accepted kinds. -/
def Viable (ks : List TokenKind) : Prop := ∃ more, Accepted (ks ++ more)

/-- A token with which the kinds up to it are no beginning of accepted kinds. -/
def ImpossibleAt (ts : List Token) (i : Nat) : Prop :=
  i < ts.length ∧ ¬Viable ((ts.map Token.kind).take (i + 1))

/-! ## Accepted kinds -/

private theorem accepted_of_isOk {t : Text} (h : (parse t).isOk) :
    Accepted ((tokens t).map Token.kind) := by
  cases hparse : parse t with
  | ok tree => exact ⟨t, tree, hparse, rfl⟩
  | error e =>
    rw [hparse] at h
    cases h

/-- A text for a token of a given kind. -/
def TokenKind.sample : TokenKind → Text
  | name => "a"
  | number => "0"
  | string => "''"
  | k => k.mark?.toList

/-- A token of a given kind. -/
def TokenKind.sampleToken (k : TokenKind) : Token := (Word.ofText k.sample).token k

private theorem TokenKind.legible_sampleToken (k : TokenKind) : k.sampleToken.Legible False := by
  cases k
  case name => exact show Text.isName "a" by decide
  case number => exact .inl (show Text.isDecimal "0" by decide)
  case string => exact ⟨[], rfl⟩
  all_goals exact ⟨_, rfl, rfl⟩

/-- Whether tokens make up a phrase depends on their kinds alone. -/
private theorem exists_choice_of_kinds {ts us : List Token}
    (h : ts.map Token.kind = us.map Token.kind)
    (hus : ∃ c : Choice, us = c.tokens) : ∃ c : Choice, ts = c.tokens := by
  rw [exists_choice_iff_derives] at hus ⊢
  rwa [h]

/-- A phrase of legible tokens is spelled by a text. -/
private theorem exists_parse_of_legible {c : Choice} (h : ∀ t ∈ c.tokens, t.Legible False) :
    ∃ source tree, parse source = .ok tree ∧
      (tokens source).map Token.kind = c.tokens.map Token.kind := by
  have hscans : Scans c.text (c.tokens.map Token.bare) [] := by
    rcases c.reads h [] free_nil with hs | ⟨hfalse, -⟩
    · simpa using hs
    · exact hfalse.elim
  obtain ⟨hu, hbare⟩ := hscans.lexed
  obtain ⟨c', hc', -⟩ := c.exists_of_bare _ hbare
  refine ⟨c.text, c'.pattern, parse_eq_ok_iff_choice.2 ⟨hu, c', hc'.symm, rfl⟩, ?_⟩
  simpa [Token.bare, Function.comp_def] using congrArg (List.map Prod.fst) hbare

theorem accepted_iff {ks : List TokenKind} :
    Accepted ks ↔ ∃ c : Choice, c.tokens.map Token.kind = ks := by
  constructor
  · rintro ⟨source, tree, hparse, rfl⟩
    obtain ⟨-, c, hc, -⟩ := parse_eq_ok_iff_choice.1 hparse
    exact ⟨c, by rw [hc]⟩
  · rintro ⟨c, rfl⟩
    have hkinds : (c.tokens.map fun t => t.kind.sampleToken).map Token.kind =
        c.tokens.map Token.kind := by
      rw [List.map_map]
      exact List.map_congr_left fun t _ => rfl
    obtain ⟨c', hc'⟩ := exists_choice_of_kinds hkinds ⟨c, rfl⟩
    rw [← hkinds, hc']
    refine exists_parse_of_legible fun t ht => ?_
    obtain ⟨u, -, rfl⟩ := List.mem_map.1 (hc' ▸ ht)
    exact u.kind.legible_sampleToken

/-- Tokens with accepted kinds are those of a phrase. -/
private theorem exists_choice_of_accepted {ts : List Token} (h : Accepted (ts.map Token.kind)) :
    ∃ c : Choice, ts = c.tokens := by
  obtain ⟨c, hc⟩ := accepted_iff.1 h
  exact exists_choice_of_kinds hc.symm ⟨c, rfl⟩

/-! ## Beginnings -/

/-- Tokens that more tokens make a phrase of. -/
private theorem viable_iff {ts : List Token} :
    Viable (ts.map Token.kind) ↔ ∃ more, ts ++ more ∈ Set.range Choice.tokens := by
  constructor
  · rintro ⟨more, h⟩
    have hkinds : (ts ++ more.map TokenKind.sampleToken).map Token.kind =
        ts.map Token.kind ++ more := by
      rw [List.map_append, List.map_map,
        (List.map_congr_left fun k _ => rfl : more.map (Token.kind ∘ TokenKind.sampleToken) =
          more.map id), List.map_id]
    obtain ⟨c, hc⟩ := exists_choice_of_accepted (hkinds.symm ▸ h)
    exact ⟨_, c, hc.symm⟩
  · rintro ⟨more, c, hc⟩
    refine ⟨more.map Token.kind, accepted_iff.2 ⟨c, ?_⟩⟩
    rw [hc, List.map_append]

private theorem Viable.take {ks : List TokenKind} (h : Viable ks) (n : Nat) :
    Viable (ks.take n) := by
  obtain ⟨more, h⟩ := h
  refine ⟨ks.drop n ++ more, ?_⟩
  rwa [← List.append_assoc, List.take_append_drop]

/-- Where the beginnings of tokens stop to be viable, the first impossible token stands. -/
private theorem isLeast_impossibleAt {ts : List Token} {i : Nat} (hi : i < ts.length)
    (hviable : Viable ((ts.map Token.kind).take i))
    (hnot : ¬Viable ((ts.map Token.kind).take (i + 1))) : IsLeast {j | ImpossibleAt ts j} i := by
  refine ⟨⟨hi, hnot⟩, ?_⟩
  rintro j ⟨hj, himpossible⟩
  by_contra hlt
  have hle : j + 1 ≤ i := Nat.not_le.1 hlt
  refine himpossible ?_
  rw [← Nat.min_eq_left hle, ← List.take_take]
  exact hviable.take _

/-! ## The place of an error -/

/-- The mismatch of a refused text: what stands in front of it is viable; at a token it is the
first impossible one, and at the end of the pattern all is viable but not accepted. -/
private theorem parse_error_cases {t : Text} {ts : List Token} (hlex : lex t = .ok ts)
    (hno : ∀ tree, parse t ≠ .ok tree) :
    ∃ m : Mismatch, parse t = .error m.toError ∧
      ((∃ i token, m.found? = some token ∧ ts[i]? = some token ∧
          IsLeast {j | ImpossibleAt ts j} i) ∨
        m.found? = none ∧ Viable (ts.map Token.kind) ∧ ¬Accepted (ts.map Token.kind)) := by
  obtain ⟨hu, rfl⟩ := lex_eq_ok_iff.1 hlex
  rcases parseTokens_strict_cases (tokens t) with
    ⟨c, hc⟩ | ⟨us, rest, m, hts, hms, hfound, hmore, hnot⟩
  · exact absurd (parse_eq_ok_iff_choice.2 ⟨hu, c, hc, rfl⟩) (hno _)
  refine ⟨m, ?_, ?_⟩
  · simp only [parse, hlex]
    rw [← Prod.mk.eta (p := parseTokens .strict (tokens t)), hms]
  have hviable : Viable (us.map Token.kind) := viable_iff.2 hmore
  cases rest with
  | nil =>
    rw [List.append_nil] at hts
    refine .inr ⟨hfound, hts ▸ hviable, fun haccepted => ?_⟩
    obtain ⟨c, hc⟩ := exists_choice_of_accepted haccepted
    exact hnot [] rfl ⟨c, by rw [← hc, hts, List.append_nil]⟩
  | cons token rest =>
    refine .inl ⟨us.length, token, hfound, by simp [hts], ?_⟩
    refine isLeast_impossibleAt (by simp [hts]) ?_ ?_
    · have htake : (tokens t).take us.length = us := by simp [hts]
      rwa [← List.map_take, htake]
    · have htake : (tokens t).take (us.length + 1) = us ++ [token] := by
        simp [hts, List.take_append]
      rw [← List.map_take, htake, viable_iff]
      rintro ⟨more, hmem⟩
      exact hnot (token :: more) rfl (by simpa using hmem)

/-- Tokens that are the beginning of a pattern are not refused at one of them. -/
private theorem Viable.line?_eq_none {t : Text} {ts : List Token} {e : PatternError}
    (hviable : Viable (ts.map Token.kind)) (hlex : lex t = .ok ts) (herror : parse t = .error e) :
    e.line? = none := by
  have hno : ∀ tree, parse t ≠ .ok tree := by
    intro tree h
    cases herror.symm.trans h
  obtain ⟨m, hm, ⟨i, -, -, -, hleast⟩ | ⟨hfound, -⟩⟩ := parse_error_cases hlex hno
  · exact absurd (hviable.take _) hleast.1.2
  · obtain rfl := Except.error.inj (herror.symm.trans hm)
    rw [Mismatch.toError, hfound]
    rfl

/-- A text that is lexed and has no tree is refused. The error stands at the first token that is
impossible behind the tokens in front of it. If there is no such token, all tokens are the beginning
of a longer pattern and no pattern themselves, and the error has no place. -/
theorem parse_error_at_first_impossible {t : Text} {ts : List Token} (hlex : lex t = .ok ts)
    (hno : ∀ tree, parse t ≠ .ok tree) :
    ∃ e, parse t = .error e ∧
      (∀ i, IsLeast {j | ImpossibleAt ts j} i → ∃ token, ts[i]? = some token ∧
        e.line? = some (.int token.start.line) ∧ e.column? = some (.int token.start.column)) ∧
      ((∀ i, ¬ImpossibleAt ts i) →
        Viable (ts.map Token.kind) ∧ ¬Accepted (ts.map Token.kind) ∧
          e.line? = none ∧ e.column? = none) := by
  obtain ⟨m, herror, ⟨i, token, hfound, htoken, hleast⟩ | ⟨hfound, hviable, hno'⟩⟩ :=
    parse_error_cases hlex hno
  · have he : m.toError = .located (.mismatch m) token.start := by rw [Mismatch.toError, hfound]
    refine ⟨_, herror, fun j hj => ?_, fun hall => absurd hleast.1 (hall i)⟩
    obtain rfl := hj.unique hleast
    rw [he]
    exact ⟨token, htoken, rfl, rfl⟩
  · have he : m.toError = .nowhere (.mismatch m) := by rw [Mismatch.toError, hfound]
    refine ⟨_, herror, fun j hj => ?_, fun _ => ⟨hviable, hno', by rw [he]; exact ⟨rfl, rfl⟩⟩⟩
    exact absurd (hviable.take _) hj.1.2

/-- In the second line, inside of a bracket inside of a parenthesis, no negation can follow an
equals sign. A text that ends behind the equals sign goes on to a pattern. -/
theorem parse_error_at_first_impossible_negation :
    let refused : Text := "(NAME |\n  [a=!b])"
    let cut : Text := "(NAME |\n  [a="
    (lex refused = .ok (tokens refused) ∧ IsLeast {j | ImpossibleAt (tokens refused) j} 6 ∧
      ∃ e, parse refused = .error e ∧ e.line? = some 2 ∧ e.column? = some 6) ∧
    lex cut = .ok (tokens cut) ∧ (∀ i, ¬ImpossibleAt (tokens cut) i) ∧
      ∃ e, parse cut = .error e ∧ ¬Accepted ((tokens cut).map Token.kind) ∧
        e.line? = none ∧ e.column? = none := by
  intro refused cut
  have hno {t : Text} (h : (parse t).isOk = false) (tree : Tree) : parse t ≠ .ok tree := by
    intro htree
    rw [htree] at h
    cases h
  -- The six tokens up to the equals sign are those in front of `b])` in a text with a tree.
  have hviable : Viable ((tokens cut).map Token.kind) := by
    have hkinds : (tokens "(NAME |\n  [a=b])").map Token.kind =
        (tokens cut).map Token.kind ++ [.name, .rsqb, .rpar] := by decide +kernel
    refine ⟨[.name, .rsqb, .rpar], ?_⟩
    rw [← hkinds]
    exact accepted_of_isOk (by decide +kernel)
  have hpossible : ∀ i, ¬ImpossibleAt (tokens cut) i := fun i h => h.2 (hviable.take _)
  -- The text up to the exclamation mark is refused in its second line, not at its end.
  have hnot : ¬Viable ((tokens "(NAME |\n  [a=!").map Token.kind) := by
    intro hviable
    have hlex : lex "(NAME |\n  [a=!" = .ok (tokens "(NAME |\n  [a=!") := by decide +kernel
    have hline : ((parse "(NAME |\n  [a=!").mapError PatternError.line?).map (fun _ => ()) =
        .error (some 2) := by decide +kernel
    cases hparse : parse "(NAME |\n  [a=!" with
    | ok tree =>
      rw [hparse] at hline
      cases hline
    | error e =>
      rw [hparse, Except.mapError, Except.map, hviable.line?_eq_none hlex hparse] at hline
      cases hline
  have hleast : IsLeast {j | ImpossibleAt (tokens refused) j} 6 := by
    have hsix : ((tokens refused).map Token.kind).take 6 = (tokens cut).map Token.kind := by
      decide +kernel
    have hseven : ((tokens refused).map Token.kind).take (6 + 1) =
        (tokens "(NAME |\n  [a=!").map Token.kind := by decide +kernel
    rw [← hsix] at hviable
    rw [← hseven] at hnot
    exact isLeast_impossibleAt (by decide +kernel) hviable hnot
  have hrefused : lex refused = .ok (tokens refused) := by decide +kernel
  have hcut : lex cut = .ok (tokens cut) := by decide +kernel
  obtain ⟨e, herror, hplace, -⟩ :=
    parse_error_at_first_impossible hrefused (hno (by decide +kernel))
  obtain ⟨e', herror', -, hend⟩ := parse_error_at_first_impossible hcut (hno (by decide +kernel))
  obtain ⟨-, hnot, hline', hcolumn'⟩ := hend hpossible
  obtain ⟨token, htoken, hline, hcolumn⟩ := hplace 6 hleast
  have hstart : token.start = ⟨2, 6⟩ := by
    have : (tokens refused)[6]?.map Token.start = some ⟨2, 6⟩ := by decide +kernel
    rw [htoken] at this
    exact Option.some.inj this
  rw [hstart] at hline hcolumn
  exact ⟨⟨hrefused, hleast, e, herror, hline, hcolumn⟩, hcut, hpossible, e', herror', hnot, hline',
    hcolumn'⟩

end TreeMatcher
