import TreeMatcher.Pattern.Parse
import TreeMatcher.Proofs.Pattern.Scan

/-!
# The parser does not look at places

Two rows of tokens are alike when they differ in nothing but where the tokens stand. A parser that
meets alike rows leaves alike rows, meets the same mismatches at tokens that are alike, and gives up
on both or on none. `Uniform p` says this of a parser `p`. The steps have it because they look at
kinds only, every combinator carries it from its parts to the whole, and so does every phrase.

The trees are left out of the comparison: where there is no mismatch, the phrases behind the two
trees are compared instead.

* `Mismatch.bare` — a mismatch without places.
* `Reply.Alike` — replies that differ in nothing but places and trees.
* `Uniform` — the replies of a parser to rows that are alike.

## Main results

* `uniform_alternatives` — no phrase looks at places.
* `bare_mismatches` — tokens that are alike give the same mismatches, apart from places.
-/

namespace TreeMatcher

/-- A mismatch without places. -/
def Mismatch.bare (m : Mismatch) : Expectation × Option (TokenKind × Text) :=
  (m.expected, m.found?.map Token.bare)

/-- Replies that differ in nothing but places and trees. -/
structure Reply.Alike (r s : Reply) : Prop where
  rest : r.rest.map Token.bare = s.rest.map Token.bare
  mismatches : r.mismatches.map Mismatch.bare = s.mismatches.map Mismatch.bare
  aborted : r.aborted = s.aborted

namespace Parser

/-- A parser that replies alike to rows of tokens that are alike. -/
def Uniform (p : Parser) : Prop :=
  ∀ ts us, ts.map Token.bare = us.map Token.bare → (p ts).Alike (p us)

variable {p q : Parser} {kinds : List TokenKind} {mode : Mode} {ts us : List Token}

/-! ## Looking ahead -/

private theorem next?_of_bare (h : ts.map Token.bare = us.map Token.bare) :
    next? ts = next? us := by
  rcases ts with _ | ⟨t, ts⟩ <;> rcases us with _ | ⟨u, us⟩
  · rfl
  · cases h
  · cases h
  · exact congrArg some (congrArg Prod.fst (List.cons.inj h).1)

private theorem nextIn_eq_next? (kinds : List TokenKind) (ts : List Token) :
    nextIn kinds ts = (next? ts).any (· ∈ kinds) := by
  cases ts <;> rfl

private theorem nextIn_of_bare (h : ts.map Token.bare = us.map Token.bare) :
    nextIn kinds ts = nextIn kinds us := by
  rw [nextIn_eq_next?, nextIn_eq_next?, next?_of_bare h]

/-! ## Steps and combinators -/

private theorem uniform_nothing : Uniform nothing := fun _ _ h => ⟨h, rfl, rfl⟩

private theorem uniform_take : Uniform take := by
  rintro (_ | ⟨t, ts⟩) (_ | ⟨u, us⟩) h
  · exact ⟨rfl, rfl, rfl⟩
  · cases h
  · cases h
  · exact ⟨(List.cons.inj h).2, rfl, rfl⟩

private theorem uniform_refuse (e : Expectation) : Uniform (refuse e) := by
  intro ts us h
  have hhead : ts.head?.map Token.bare = us.head?.map Token.bare := by
    rw [← List.head?_map, h, List.head?_map]
  exact ⟨h, congrArg (fun found? => [(e, found?)]) hhead, rfl⟩

/-- What is done about a missing token depends on the kinds of the next two. -/
private theorem uniform_require (k : TokenKind) (follow : List TokenKind) :
    Uniform (require mode k follow) := by
  rintro (_ | ⟨t, ts⟩) (_ | ⟨u, us⟩) h
  · exact ⟨rfl, rfl, rfl⟩
  · cases h
  · cases h
  · obtain ⟨ht, hts⟩ := List.cons.inj h
    have hk : t.kind = u.kind := congrArg Prod.fst ht
    have hm : [(⟨.token k, some t⟩ : Mismatch)].map Mismatch.bare =
        [(⟨.token k, some u⟩ : Mismatch)].map Mismatch.bare :=
      congrArg (fun found => [(Expectation.token k, some found)]) ht
    unfold require
    dsimp only
    rw [hk]
    split
    · exact ⟨hts, rfl, rfl⟩
    split
    · exact ⟨h, hm, rfl⟩
    split
    · exact ⟨h, hm, rfl⟩
    rcases ts with _ | ⟨t', ts⟩ <;> rcases us with _ | ⟨u', us⟩
    · exact ⟨h, hm, rfl⟩
    · cases hts
    · cases hts
    · obtain ⟨ht', hts'⟩ := List.cons.inj hts
      dsimp only
      rw [show t'.kind = u'.kind from congrArg Prod.fst ht']
      split
      · exact ⟨hts', hm, rfl⟩
      · exact ⟨h, hm, rfl⟩

private theorem Uniform.andThen (h : Uniform p) (h' : Uniform q) : Uniform (andThen p q) := by
  intro ts us hbare
  have hp := h ts us hbare
  simp only [Parser.andThen, hp.aborted]
  split
  · exact hp
  · have hq := h' _ _ hp.rest
    refine ⟨hq.rest, ?_, hq.aborted⟩
    dsimp only
    rw [List.map_append, List.map_append, hp.mismatches, hq.mismatches]

private theorem Uniform.asPhrase {phrase : Phrase} (h : Uniform p) : Uniform (asPhrase phrase p) :=
  fun ts us hbare => ⟨(h ts us hbare).rest, (h ts us hbare).mismatches, (h ts us hbare).aborted⟩

/-- A choice between two parsers by what stands ahead. -/
private theorem Uniform.ite {c : List Token → Prop} [DecidablePred c] (h : Uniform p)
    (h' : Uniform q)
    (hc : ∀ ts us : List Token, ts.map Token.bare = us.map Token.bare → (c ts ↔ c us)) :
    Uniform fun ts => if c ts then p ts else q ts := by
  intro ts us hbare
  by_cases hts : c ts
  · simpa only [if_pos hts, if_pos ((hc ts us hbare).1 hts)] using h ts us hbare
  · simpa only [if_neg hts, if_neg (mt (hc ts us hbare).2 hts)] using h' ts us hbare

private theorem Uniform.whenNext (h : Uniform p) : Uniform (whenNext kinds p) :=
  h.ite uniform_nothing fun _ _ hbare => by rw [nextIn_of_bare hbare]

private theorem Uniform.manyUpTo (h : Uniform p) (n : Nat) : Uniform (manyUpTo kinds p n) := by
  induction n with
  | zero => exact uniform_nothing
  | succ n ih => exact (h.andThen ih).whenNext

private theorem Uniform.many (h : Uniform p) : Uniform (many kinds p) := by
  intro ts us hbare
  have hlen : ts.length = us.length := by
    rw [← List.length_map (f := Token.bare), hbare, List.length_map]
  rw [Parser.many, Parser.many, hlen]
  exact h.manyUpTo us.length ts us hbare

private theorem bare_resumeAt (ctx : Context) (h : ts.map Token.bare = us.map Token.bare) :
    (resumeAt ctx ts).map Token.bare = (resumeAt ctx us).map Token.bare := by
  have hmap (ts : List Token) : (resumeAt ctx ts).map Token.bare =
      (ts.map Token.bare).dropWhile fun t => !ctx.allows t.1 := by
    rw [resumeAt, List.dropWhile_map]
    rfl
  rw [hmap, hmap, h]

private theorem Uniform.recovering (h : Uniform p) (own : List TokenKind) (ctx : Context) :
    Uniform (recovering mode own ctx p) := by
  intro ts us hbare
  have hp := h ts us hbare
  have hresume := bare_resumeAt ctx hp.rest
  simp only [Parser.recovering, hp.aborted, nextIn_of_bare hresume]
  split
  · exact ⟨hresume, hp.mismatches, rfl⟩
  · exact hp

/-! ## Phrases -/

section Phrases

variable {inside : Context → Parser} (hin : ∀ ctx, Uniform (inside ctx))

include hin

private theorem uniform_bracketed (close : TokenKind) (ctx : Context) :
    Uniform (bracketed mode inside close ctx) :=
  uniform_take.andThen <|
    ((hin (ctx.bracket close)).asPhrase.recovering [close] (ctx.bracket close)).andThen
      (uniform_require close ctx.inner)

private theorem uniform_details (ctx : Context) : Uniform (details mode inside ctx) :=
  (uniform_bracketed hin .greater ctx).asPhrase

omit hin in
private theorem uniform_bounds (ctx : Context) : Uniform (bounds mode ctx) := by
  refine uniform_take.andThen ((uniform_require _ _).andThen ?_)
  exact (uniform_take.andThen (uniform_require _ _)).whenNext.andThen (uniform_require _ _)

omit hin in
private theorem uniform_repeater (ctx : Context) : Uniform (repeater mode ctx) :=
  ((uniform_bounds ctx).ite uniform_take fun _ _ h => by rw [next?_of_bare h]).asPhrase

private theorem uniform_basic (ctx : Context) : Uniform (basic mode inside ctx) := by
  intro ts us h
  unfold basic
  rw [next?_of_bare h]
  split
  · exact (uniform_take.andThen (uniform_details hin ctx).whenNext) ts us h
  · exact uniform_bracketed hin .rpar ctx ts us h
  · exact uniform_take ts us h

private theorem uniform_operand (hp : Uniform p) (ctx : Context) :
    Uniform (operand mode inside p ctx) := by
  intro ts us h
  unfold operand
  rw [next?_of_bare h]
  split
  · exact uniform_bracketed hin .rsqb ctx ts us h
  · exact hp ts us h
  · exact hp ts us h
  · exact hp ts us h
  · exact uniform_refuse .basic ts us h

omit hin in
private theorem uniform_capture : Uniform capture := by
  rintro (_ | ⟨t, ts⟩) (_ | ⟨u, us⟩) h
  · exact uniform_nothing [] [] rfl
  · cases h
  · cases h
  · obtain ⟨ht, hts⟩ := List.cons.inj h
    rcases ts with _ | ⟨t', ts⟩ <;> rcases us with _ | ⟨u', us⟩
    · exact uniform_nothing _ _ h
    · cases hts
    · cases hts
    · unfold capture
      dsimp only
      rw [show t.kind = u.kind from congrArg Prod.fst ht,
        show t'.kind = u'.kind from congrArg Prod.fst (List.cons.inj hts).1]
      split
      · exact uniform_take.andThen uniform_take _ _ h
      · exact uniform_nothing _ _ h

private theorem uniform_repeated (ctx : Context) : Uniform (repeated mode inside ctx) :=
  ((uniform_basic hin _).recovering _ _).andThen (uniform_repeater ctx).whenNext

private theorem uniform_plainUnit (ctx : Context) : Uniform (plainUnit mode inside ctx) :=
  (uniform_capture.andThen (uniform_operand hin (uniform_repeated hin ctx) ctx)).asPhrase

private theorem uniform_negatedUnit (ctx : Context) : Uniform (negatedUnit mode inside ctx) :=
  (uniform_take.andThen (uniform_operand hin (uniform_basic hin ctx) ctx)).asPhrase

private theorem uniform_unit (ctx : Context) : Uniform (unit mode inside ctx) :=
  ((uniform_negatedUnit hin _).ite (uniform_plainUnit hin _)
    fun _ _ h => by rw [next?_of_bare h]).recovering _ _

private theorem uniform_alternative (ctx : Context) : Uniform (alternative mode inside ctx) :=
  ((uniform_unit hin _).many.ite (uniform_refuse .units)
    fun _ _ h => by rw [nextIn_of_bare h]).asPhrase.recovering _ _

private theorem uniform_separated (ctx : Context) : Uniform (separated mode inside ctx) :=
  (uniform_alternative hin ctx).andThen (uniform_take.andThen (uniform_alternative hin ctx)).many

end Phrases

/-! ## Nesting -/

theorem uniform_alternatives (mode : Mode) (depth : Nat) (ctx : Context) :
    Uniform (alternatives mode depth ctx) := by
  induction depth generalizing ctx with
  | zero => exact fun _ _ h => ⟨h, rfl, rfl⟩
  | succ depth ih => exact uniform_separated ih ctx

end Parser

/-! ## Whole patterns -/

/-- Tokens that are alike give the same mismatches, apart from places. -/
theorem bare_mismatches (mode : Mode) {ts us : List Token}
    (h : ts.map Token.bare = us.map Token.bare) :
    (parseTokens mode ts).2.map Mismatch.bare = (parseTokens mode us).2.map Mismatch.bare := by
  have hlen : ts.length = us.length := by
    rw [← List.length_map (f := Token.bare), h, List.length_map]
  have hreply := Parser.uniform_alternatives mode (us.length + 1) .empty ts us h
  dsimp only [parseTokens]
  rw [hlen]
  generalize Parser.alternatives mode (us.length + 1) .empty ts = r at hreply
  generalize Parser.alternatives mode (us.length + 1) .empty us = s at hreply
  rw [Reply.allMismatches, Reply.allMismatches, hreply.aborted]
  split
  · exact hreply.mismatches
  · have hrest := hreply.rest
    rcases hr : r.rest with _ | ⟨t, _⟩ <;> rcases hs : s.rest with _ | ⟨u, _⟩ <;>
      rw [hr, hs] at hrest
    · exact hreply.mismatches
    · cases hrest
    · cases hrest
    · dsimp only
      rw [List.map_append, List.map_append, hreply.mismatches]
      exact congrArg (fun found => _ ++ [(Expectation.patternEnd, some found)])
        (List.cons.inj hrest).1

end TreeMatcher
