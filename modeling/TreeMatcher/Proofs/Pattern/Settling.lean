import TreeMatcher.Proofs.Pattern.Syntax

/-!
# What a strict parser settles for

A strict parser either refuses, and then it names a mismatch, or it takes some tokens off the front
and answers without a mismatch. `Settles p ts D` says so, and that what it takes and the trees it
makes of it satisfy `D`. Every combinator carries such a statement from its parts to the whole, so
the rules of the grammar can be read off one after the other.

`Accepts p ts trees rest` is the other direction: on these tokens the parser answers just this.

## Main results

* `Settles.andThen`, `Settles.manyUpTo` — parsers in a row, and repeated.
* `Accepts.andThen` — an answer is put together from the answers of the parts.
-/

namespace TreeMatcher.Parser

/-! ## The two statements -/

/-- A parser gives up with a mismatch. -/
def Refuses (p : Parser) (ts : List Token) : Prop :=
  (p ts).aborted = true ∧ (p ts).mismatches ≠ []

/-- A parser answers with these trees and leaves these tokens, without a mismatch. -/
def Accepts (p : Parser) (ts : List Token) (trees : List Tree) (rest : List Token) : Prop :=
  p ts = ⟨trees, rest, [], false⟩

/-- A parser refuses, or it takes tokens that stand in the relation `D` to its trees. -/
def Settles (p : Parser) (ts : List Token) (D : List Token → List Tree → Prop) : Prop :=
  Refuses p ts ∨
    ∃ taken trees rest, ts = taken ++ rest ∧ Accepts p ts trees rest ∧ D taken trees

variable {p q : Parser} {ts rest : List Token} {D E : List Token → List Tree → Prop}
  {kinds : List TokenKind}

/-! ## Refusing or taking -/

theorem Settles.mono (h : Settles p ts D) (hDE : ∀ taken trees, D taken trees → E taken trees) :
    Settles p ts E := by
  rcases h with h | ⟨taken, trees, rest, hts, hp, hD⟩
  · exact .inl h
  · exact .inr ⟨taken, trees, rest, hts, hp, hDE _ _ hD⟩

private theorem Settles.nothing (hD : D [] []) : Settles nothing ts D :=
  .inr ⟨[], [], ts, rfl, rfl, hD⟩

theorem Settles.take {t : Token} (hD : D [t] [.ofToken t]) : Settles take (t :: ts) D :=
  .inr ⟨[t], [.ofToken t], ts, rfl, rfl, hD⟩

theorem Settles.require (k : TokenKind) (follow : List TokenKind)
    (hD : ∀ w : Word, D [w.token k] [w.leaf k]) : Settles (require .strict k follow) ts D := by
  cases ts with
  | nil => exact .inl ⟨rfl, by simp [Parser.require]⟩
  | cons t ts =>
    by_cases hk : t.kind = k
    · rw [← Token.token_word hk]
      refine .inr ⟨[t.word.token k], [t.word.leaf k], ts, rfl, ?_, hD t.word⟩
      simp [Accepts, Parser.require, Word.leaf]
    · exact .inl ⟨by simp [Parser.require, hk], by simp [Parser.require, hk]⟩

/-- Two parsers in a row. What the second one meets is a rest of what the first one met. -/
theorem Settles.andThen (hp : Settles p ts D)
    (hq : ∀ taken trees rest, ts = taken ++ rest → D taken trees →
      Settles q rest fun taken' trees' => E (taken ++ taken') (trees ++ trees')) :
    Settles (andThen p q) ts E := by
  rcases hp with ⟨ha, hm⟩ | ⟨taken, trees, rest, hts, hp, hD⟩
  · exact .inl ⟨by simp [Parser.andThen, ha], by simpa [Parser.andThen, ha] using hm⟩
  · rcases hq taken trees rest hts hD with ⟨ha, hm⟩ | ⟨taken', trees', rest', hr, hq, hE⟩
    · rw [Accepts] at hp
      exact .inl ⟨by simpa [Parser.andThen, hp] using ha, by simpa [Parser.andThen, hp] using hm⟩
    · rw [Accepts] at hp hq
      refine .inr ⟨taken ++ taken', trees ++ trees', rest', ?_, ?_, hE⟩
      · rw [hts, hr, List.append_assoc]
      · simp [Accepts, Parser.andThen, hp, hq]

theorem Settles.asPhrase {phrase : Phrase}
    (h : Settles p ts fun taken trees => D taken [.phrase phrase trees]) :
    Settles (asPhrase phrase p) ts D := by
  rcases h with h | ⟨taken, trees, rest, hts, hp, hD⟩
  · exact .inl h
  · rw [Accepts] at hp
    exact .inr ⟨taken, _, rest, hts, by simp [Accepts, Parser.asPhrase, hp], hD⟩

theorem Settles.whenNext (hp : nextIn kinds ts = true → Settles p ts D) (hD : D [] []) :
    Settles (whenNext kinds p) ts D := by
  cases h : nextIn kinds ts with
  | true => simpa [Settles, Refuses, Accepts, Parser.whenNext, h] using hp h
  | false =>
    have hnothing : Settles Parser.nothing ts D := Settles.nothing hD
    simpa [Settles, Refuses, Accepts, Parser.whenNext, h] using hnothing

/-- A parser repeated: `E` holds of taking nothing, and of one more time in front. -/
theorem Settles.manyUpTo (n : Nat)
    (hp : ∀ us, us.length ≤ ts.length → nextIn kinds us = true → Settles p us D)
    (hnil : E [] [])
    (hcons : ∀ taken trees taken' trees', D taken trees → E taken' trees' →
      E (taken ++ taken') (trees ++ trees')) :
    Settles (manyUpTo kinds p n) ts E := by
  induction n generalizing ts with
  | zero => exact .nothing hnil
  | succ n ih =>
    refine .whenNext (fun hk => ?_) hnil
    apply (hp ts (Nat.le_refl _) hk).andThen
    intro taken trees rest hts hD
    have hle : rest.length ≤ ts.length := by simp [hts]
    apply (ih fun us hus => hp us (Nat.le_trans hus hle)).mono
    intro taken' trees' hE
    exact hcons _ _ _ _ hD hE

/-! ## Answers put together -/

theorem Accepts.andThen {trees trees' : List Tree} {rest' : List Token}
    (hp : Accepts p ts trees rest) (hq : Accepts q rest trees' rest') :
    Accepts (andThen p q) ts (trees ++ trees') rest' := by
  rw [Accepts] at hp hq
  simp [Accepts, Parser.andThen, hp, hq]

theorem Accepts.asPhrase {phrase : Phrase} {trees : List Tree} (h : Accepts p ts trees rest) :
    Accepts (asPhrase phrase p) ts [.phrase phrase trees] rest := by
  rw [Accepts] at h
  simp [Accepts, Parser.asPhrase, h]

theorem accepts_take (k : TokenKind) (w : Word) :
    Accepts take (w.token k :: ts) [w.leaf k] ts := rfl

theorem accepts_require (k : TokenKind) (w : Word) (follow : List TokenKind) :
    Accepts (require .strict k follow) (w.token k :: ts) [w.leaf k] ts := by
  simp [Accepts, Parser.require, Word.leaf]

theorem Accepts.whenNext {trees : List Tree} (hk : nextIn kinds ts = true)
    (h : Accepts p ts trees rest) : Accepts (whenNext kinds p) ts trees rest := by
  simpa [Accepts, Parser.whenNext, hk] using h

theorem accepts_whenNext_nothing (hk : nextIn kinds ts = false) :
    Accepts (whenNext kinds p) ts [] ts := by
  simp [Accepts, Parser.whenNext, hk, Parser.nothing]

theorem accepts_manyUpTo_nothing (n : Nat) (hk : nextIn kinds ts = false) :
    Accepts (manyUpTo kinds p n) ts [] ts := by
  cases n with
  | zero => rfl
  | succ n => exact accepts_whenNext_nothing hk

/-! ## Looking ahead -/

@[simp] theorem nextIn_nil : nextIn kinds [] = false := rfl

@[simp] theorem nextIn_token (k : TokenKind) (w : Word) :
    nextIn kinds (w.token k :: ts) = decide (k ∈ kinds) := rfl

@[simp] theorem next?_token (k : TokenKind) (w : Word) : next? (w.token k :: ts) = some k := rfl

/-- Fewer kinds are met less often. -/
theorem nextIn_of_subset {kinds' : List TokenKind} (hk : nextIn kinds' ts = false)
    (hsub : ∀ k ∈ kinds, k ∈ kinds') : nextIn kinds ts = false := by
  cases ts with
  | nil => rfl
  | cons t ts =>
    simp only [nextIn, decide_eq_false_iff_not] at hk ⊢
    exact fun hm => hk (hsub _ hm)

/-- The next token, when it is of a given kind. -/
theorem exists_token_of_next? {k : TokenKind} (h : next? ts = some k) :
    ∃ (w : Word) (us : List Token), ts = w.token k :: us := by
  cases ts with
  | nil => simp [next?] at h
  | cons t us => exact ⟨t.word, us, by rw [Token.token_word (Option.some.inj h)]⟩

theorem exists_token_of_nextIn {ks : List TokenKind} (h : nextIn ks ts = true) :
    ∃ (w : Word) (k : TokenKind) (us : List Token), k ∈ ks ∧ ts = w.token k :: us := by
  cases ts with
  | nil => simp at h
  | cons t us => exact ⟨t.word, t.kind, us, by simpa [nextIn] using h, rfl⟩

end TreeMatcher.Parser
