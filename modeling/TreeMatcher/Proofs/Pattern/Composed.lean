import Mathlib.Tactic.Choose
import TreeMatcher.Pattern.Parse

/-!
# Parsers that are put together

Every phrase is read by a parser that is put together from a few steps by a few combinators, and by
choices that look ahead. `Composed mode p` says so of a parser `p`. What holds of the steps and is
carried from the parts to the whole therefore holds of all phrases, and is proved by induction on
how a parser is put together, one case for each step and each combinator.

Such a parser only passes tokens over: what it leaves is an end of what it was given, and the token
at a mismatch is one that it was given.

* `Composed mode p` — the parser `p` is put together from steps.
* `Reply.Within ts r` — a reply leaves an end of `ts`, and its mismatches are at tokens of `ts`.

## Main results

* `composed_alternatives` — all phrases are put together from steps.
* `Composed.within` — what such a parser replies stays within the tokens given.
* `found_mem_of_mismatch` — every mismatch of a pattern is at a token of it, or at its end.
-/

namespace TreeMatcher

namespace Parser

/-- A parser that is put together from steps. -/
inductive Composed (mode : Mode) : Parser → Prop where
  | nothing : Composed mode nothing
  | take : Composed mode take
  | refuse (e : Expectation) : Composed mode (refuse e)
  | require (k : TokenKind) (follow : List TokenKind) : Composed mode (require mode k follow)
  | giveUp : Composed mode fun ts => ⟨[], ts, [], true⟩
  | andThen {p q : Parser} (hp : Composed mode p) (hq : Composed mode q) :
      Composed mode (andThen p q)
  | asPhrase {p : Parser} (phrase : Phrase) (hp : Composed mode p) :
      Composed mode (asPhrase phrase p)
  | recovering {p : Parser} (own : List TokenKind) (ctx : Context) (hp : Composed mode p) :
      Composed mode (recovering mode own ctx p)
  /-- A choice of a parser by what stands ahead. -/
  | choose {p : List Token → Parser} (hp : ∀ ts, Composed mode (p ts)) :
      Composed mode fun ts => p ts ts

namespace Composed

variable {mode : Mode} {p q : Parser}

/-- A parser that replies to any tokens like a parser that is put together. -/
private theorem of_replies (h : ∀ ts, ∃ q, Composed mode q ∧ p ts = q ts) : Composed mode p := by
  choose q hq heq using h
  have hp : p = fun ts => q ts ts := funext heq
  rw [hp]
  exact .choose hq

private theorem ite {c : List Token → Prop} [DecidablePred c] (hp : Composed mode p)
    (hq : Composed mode q) : Composed mode fun ts => if c ts then p ts else q ts := by
  apply of_replies
  intro ts
  by_cases hc : c ts
  · exact ⟨p, hp, if_pos hc⟩
  · exact ⟨q, hq, if_neg hc⟩

private theorem whenNext {kinds : List TokenKind} (hp : Composed mode p) :
    Composed mode (whenNext kinds p) :=
  hp.ite .nothing

private theorem manyUpTo {kinds : List TokenKind} (hp : Composed mode p) (n : Nat) :
    Composed mode (manyUpTo kinds p n) := by
  induction n with
  | zero => exact .nothing
  | succ n ih => exact (hp.andThen ih).whenNext

private theorem many {kinds : List TokenKind} (hp : Composed mode p) :
    Composed mode (many kinds p) :=
  of_replies fun ts => ⟨_, hp.manyUpTo ts.length, rfl⟩

end Composed

/-! ## Phrases -/

section Phrases

variable {mode : Mode} {inside : Context → Parser} (hin : ∀ ctx, Composed mode (inside ctx))

include hin

private theorem composed_bracketed (close : TokenKind) (ctx : Context) :
    Composed mode (bracketed mode inside close ctx) := by
  apply Composed.take.andThen
  apply (((hin _).asPhrase .alternatives).recovering [close] _).andThen
  exact .require close ctx.inner

private theorem composed_details (ctx : Context) : Composed mode (details mode inside ctx) :=
  (composed_bracketed hin .greater ctx).asPhrase .details

omit hin in
private theorem composed_bounds (ctx : Context) : Composed mode (bounds mode ctx) := by
  apply Composed.take.andThen
  apply (Composed.require _ _).andThen
  apply (Composed.take.andThen (.require _ _)).whenNext.andThen
  exact .require _ _

omit hin in
private theorem composed_repeater (ctx : Context) : Composed mode (repeater mode ctx) :=
  ((composed_bounds ctx).ite .take).asPhrase .repeater

private theorem composed_basic (ctx : Context) : Composed mode (basic mode inside ctx) := by
  apply Composed.of_replies
  intro ts
  unfold basic
  split
  · exact ⟨_, Composed.take.andThen (composed_details hin ctx).whenNext, rfl⟩
  · exact ⟨_, composed_bracketed hin .rpar ctx, rfl⟩
  · exact ⟨_, .take, rfl⟩

private theorem composed_operand {plain : Parser} (hplain : Composed mode plain) (ctx : Context) :
    Composed mode (operand mode inside plain ctx) := by
  apply Composed.of_replies
  intro ts
  unfold operand
  split
  · exact ⟨_, composed_bracketed hin .rsqb ctx, rfl⟩
  · exact ⟨_, hplain, rfl⟩
  · exact ⟨_, hplain, rfl⟩
  · exact ⟨_, hplain, rfl⟩
  · exact ⟨_, .refuse .basic, rfl⟩

omit hin in
private theorem composed_capture : Composed mode capture := by
  apply Composed.of_replies
  intro ts
  unfold capture
  split
  · split
    · exact ⟨_, Composed.take.andThen .take, rfl⟩
    · exact ⟨_, .nothing, rfl⟩
  · exact ⟨_, .nothing, rfl⟩

private theorem composed_repeated (ctx : Context) : Composed mode (repeated mode inside ctx) :=
  ((composed_basic hin _).recovering _ _).andThen (composed_repeater ctx).whenNext

private theorem composed_plainUnit (ctx : Context) : Composed mode (plainUnit mode inside ctx) :=
  (composed_capture.andThen (composed_operand hin (composed_repeated hin ctx) ctx)).asPhrase .unit

private theorem composed_negatedUnit (ctx : Context) :
    Composed mode (negatedUnit mode inside ctx) :=
  (Composed.take.andThen
    (composed_operand hin (composed_basic hin ctx) ctx)).asPhrase .negatedUnit

private theorem composed_unit (ctx : Context) : Composed mode (unit mode inside ctx) :=
  ((composed_negatedUnit hin _).ite (composed_plainUnit hin _)).recovering _ _

private theorem composed_alternative (ctx : Context) :
    Composed mode (alternative mode inside ctx) :=
  (((composed_unit hin _).many.ite (.refuse .units)).asPhrase .alternative).recovering _ _

private theorem composed_separated (ctx : Context) : Composed mode (separated mode inside ctx) :=
  (composed_alternative hin ctx).andThen
    (Composed.take.andThen (composed_alternative hin ctx)).many

end Phrases

/-- All phrases are put together from steps. -/
theorem composed_alternatives (mode : Mode) (depth : Nat) (ctx : Context) :
    Composed mode (alternatives mode depth ctx) := by
  induction depth generalizing ctx with
  | zero => exact .giveUp
  | succ depth ih => exact composed_separated ih ctx

end Parser

/-! ## Mismatches are at tokens -/

/-- A reply leaves an end of some tokens, and its mismatches are at these tokens or at their end. -/
structure Reply.Within (ts : List Token) (r : Reply) : Prop where
  suffix : r.rest <:+ ts
  found : ∀ m ∈ r.mismatches, ∀ token ∈ m.found?, token ∈ ts

namespace Parser

variable {mode : Mode}

private theorem within_take (ts : List Token) : (take ts).Within ts := by
  cases ts with
  | nil => exact ⟨List.suffix_refl [], by simp [take]⟩
  | cons t ts => exact ⟨List.suffix_cons t ts, by simp [take]⟩

private theorem within_refuse (e : Expectation) (ts : List Token) : (refuse e ts).Within ts where
  suffix := List.suffix_refl ts
  found := by
    intro m hm token htoken
    obtain rfl := List.mem_singleton.1 hm
    exact List.mem_of_mem_head? htoken

/-- A missing token is missed at the next one. -/
private theorem within_require (k : TokenKind) (follow : List TokenKind) (ts : List Token) :
    (require mode k follow ts).Within ts := by
  have hfound : ∀ {t : Token} {us : List Token}, ∀ m ∈ [(⟨.token k, some t⟩ : Mismatch)],
      ∀ token ∈ m.found?, token ∈ t :: us := by
    intro t us m hm token htoken
    obtain rfl := List.mem_singleton.1 hm
    exact List.mem_of_mem_head? htoken
  cases ts with
  | nil => exact within_refuse (.token k) []
  | cons t ts =>
    unfold require
    dsimp only
    split
    · exact ⟨List.suffix_cons t ts, by simp⟩
    split
    · exact ⟨List.suffix_refl _, hfound⟩
    split
    · exact ⟨List.suffix_refl _, hfound⟩
    cases ts with
    | nil => exact ⟨List.suffix_refl _, hfound⟩
    | cons u us =>
      dsimp only
      split
      · exact ⟨(List.suffix_cons u us).trans (List.suffix_cons t _), hfound⟩
      · exact ⟨List.suffix_refl _, hfound⟩

/-- What a parser that is put together from steps replies stays within the tokens given. -/
theorem Composed.within {p : Parser} (h : Composed mode p) (ts : List Token) :
    (p ts).Within ts := by
  induction h generalizing ts with
  | nothing => exact ⟨List.suffix_refl ts, by simp [Parser.nothing]⟩
  | take => exact within_take ts
  | refuse e => exact within_refuse e ts
  | require k follow => exact within_require k follow ts
  | giveUp => exact ⟨List.suffix_refl ts, by simp⟩
  | @andThen p q _ _ ihp ihq =>
    obtain ⟨hsuffix, hfound⟩ := ihp ts
    obtain ⟨hsuffix', hfound'⟩ := ihq (p ts).rest
    unfold Parser.andThen
    dsimp only
    split
    · exact ⟨hsuffix, hfound⟩
    · refine ⟨hsuffix'.trans hsuffix, ?_⟩
      intro m hm token htoken
      rcases List.mem_append.1 hm with hm | hm
      · exact hfound m hm token htoken
      · exact hsuffix.subset (hfound' m hm token htoken)
  | asPhrase phrase _ ih => exact ⟨(ih ts).suffix, (ih ts).found⟩
  | @recovering p own ctx _ ih =>
    obtain ⟨hsuffix, hfound⟩ := ih ts
    unfold Parser.recovering
    dsimp only
    split
    · exact ⟨(List.dropWhile_suffix _).trans hsuffix, hfound⟩
    · exact ⟨hsuffix, hfound⟩
  | choose _ ih => exact ih ts ts

end Parser

/-- Every mismatch of a pattern is at one of its tokens, or at its end. -/
theorem found_mem_of_mismatch {mode : Mode} {ts : List Token} {m : Mismatch}
    (h : m ∈ (parseTokens mode ts).2) : ∀ token ∈ m.found?, token ∈ ts := by
  obtain ⟨hsuffix, hfound⟩ :=
    (Parser.composed_alternatives mode (ts.length + 1) .empty).within ts
  change m ∈ Reply.allMismatches _ at h
  unfold Reply.allMismatches at h
  split at h
  · exact hfound m h
  · split at h
    · exact hfound m h
    · next t us hrest =>
      rcases List.mem_append.1 h with h | h
      · exact hfound m h
      · obtain rfl := List.mem_singleton.1 h
        intro token htoken
        cases htoken
        exact hsuffix.subset (hrest ▸ List.mem_cons_self)

end TreeMatcher
