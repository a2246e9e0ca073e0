import TreeMatcher.Pattern.Diagnostic
import TreeMatcher.Proofs.Pattern.Elements
import TreeMatcher.Proofs.Pattern.Foresight

/-!
# The lenient parser starts like the strict one

A lenient parser mends what a strict one gives up at. Up to the first mismatch there is nothing to
mend, so both read alike; from there on only the lenient one reads, and it keeps what it met first.
`Follows q p` says this of a lenient parser `q` and a strict parser `p`. Every combinator carries it
from its parts to the whole, whatever could follow the open phrases, and so does every phrase.

* `Reply.Keeps` — the two replies to the same tokens.
* `Follows` — the two replies of two parsers, whatever tokens they meet.
* `PatternError.ShownAt` — where an editor shows an error.

## Main results

* `follows_alternatives` — the lenient parser follows the strict one.
* `diagnose_agrees_parse` — a text has no diagnostics exactly when it has a tree, and the first
  diagnostic of a refused text is the error it is refused with.
-/

namespace TreeMatcher

/-- A reply that keeps to a strict reply: it is the same and without a mismatch, or the strict one
gave up and its first mismatch is the first of both. -/
def Reply.Keeps (s r : Reply) : Prop :=
  (s = r ∧ r.mismatches = [] ∧ r.aborted = false) ∨
    (r.aborted = true ∧ ∀ m, r.mismatches.head? = some m → s.mismatches.head? = some m)

namespace Parser

/-- A parser keeps to a strict parser, whatever tokens stand ahead. -/
def Follows (q p : Parser) : Prop := ∀ ts, (q ts).Keeps (p ts)

variable {p p' q q' : Parser} {kinds : List TokenKind}

/-! ## Steps and combinators -/

private theorem follows_nothing : Follows nothing nothing := fun _ => .inl ⟨rfl, rfl, rfl⟩

private theorem follows_take : Follows take take := by
  rintro (_ | ⟨t, ts⟩) <;> exact .inl ⟨rfl, rfl, rfl⟩

private theorem follows_refuse (e : Expectation) : Follows (refuse e) (refuse e) :=
  fun _ => .inr ⟨rfl, fun _ h => h⟩

/-- What the lenient parser does about a missing token comes after the mismatch. -/
private theorem follows_require (k : TokenKind) (follow : List TokenKind) :
    Follows (require .lenient k follow) (require .strict k follow) := by
  rintro (_ | ⟨t, ts⟩)
  · exact .inr ⟨rfl, fun _ h => h⟩
  · by_cases hk : t.kind = k
    · exact .inl (by simp [require, hk])
    · refine .inr ⟨by simp [require, hk], fun m hm => ?_⟩
      have hm : ⟨.token k, some t⟩ = m := by simpa [require, hk] using hm
      subst hm
      by_cases hf : t.kind ∈ follow
      · simp [require, hk, hf]
      · rcases ts with _ | ⟨u, us⟩
        · simp [require, hk, hf]
        · by_cases hu : u.kind = k <;> simp [require, hk, hf, hu]

private theorem Follows.andThen (h : Follows q p) (h' : Follows q' p') :
    Follows (andThen q q') (andThen p p') := by
  intro ts
  rcases h ts with ⟨heq, hm, ha⟩ | ⟨ha, hm⟩
  · rcases h' (p ts).rest with ⟨heq', hm', ha'⟩ | ⟨ha', hm'⟩
    · exact .inl (by simp [Parser.andThen, heq, ha, heq', hm, hm', ha'])
    · refine .inr ⟨by simp [Parser.andThen, ha, ha'], fun m hmem => ?_⟩
      have hmem : (p' (p ts).rest).mismatches.head? = some m := by
        simpa [Parser.andThen, ha, hm] using hmem
      simpa [Parser.andThen, heq, ha, hm] using hm' m hmem
  · have hstop : Parser.andThen p p' ts = p ts := by simp [Parser.andThen, ha]
    refine .inr ⟨hstop ▸ ha, fun m hmem => ?_⟩
    have hfirst := hm m (hstop ▸ hmem)
    cases hq : (q ts).aborted <;> simp [Parser.andThen, hq, hfirst]

private theorem Follows.asPhrase {phrase : Phrase} (h : Follows q p) :
    Follows (asPhrase phrase q) (asPhrase phrase p) := by
  intro ts
  rcases h ts with ⟨heq, hm, ha⟩ | h
  · exact .inl ⟨by simp [Parser.asPhrase, heq], hm, ha⟩
  · exact .inr h

private theorem Follows.whenNext (h : Follows q p) :
    Follows (whenNext kinds q) (whenNext kinds p) := by
  intro ts
  cases hk : nextIn kinds ts
  · simpa [Parser.whenNext, hk] using follows_nothing ts
  · simpa [Parser.whenNext, hk] using h ts

private theorem Follows.manyUpTo (h : Follows q p) (n : Nat) :
    Follows (manyUpTo kinds q n) (manyUpTo kinds p n) := by
  induction n with
  | zero => exact follows_nothing
  | succ n ih => exact (h.andThen ih).whenNext

private theorem Follows.many (h : Follows q p) : Follows (many kinds q) (many kinds p) :=
  fun ts => h.manyUpTo ts.length ts

/-- A phrase is resumed only after it gave up, and its mismatches stay. -/
private theorem Follows.recovering (h : Follows q p) (own : List TokenKind) (ctx : Context) :
    Follows (recovering .lenient own ctx q) (recovering .strict own ctx p) := by
  intro ts
  rw [recovering_strict]
  rcases h ts with ⟨heq, hm, ha⟩ | ⟨ha, hm⟩
  · exact .inl ⟨by simp [Parser.recovering, heq, ha], hm, ha⟩
  · refine .inr ⟨ha, fun m hmem => ?_⟩
    have hkept : (Parser.recovering .lenient own ctx q ts).mismatches = (q ts).mismatches := by
      simp only [Parser.recovering]
      split <;> rfl
    exact hkept ▸ hm m hmem

/-- A choice between two parsers by what stands ahead. -/
private theorem Follows.ite {c : List Token → Prop} [DecidablePred c] (h : Follows q p)
    (h' : Follows q' p') :
    Follows (fun ts => if c ts then q ts else q' ts) fun ts => if c ts then p ts else p' ts := by
  intro ts
  by_cases hc : c ts
  · simpa [hc] using h ts
  · simpa [hc] using h' ts

/-! ## Phrases -/

section Phrases

variable {lenient strict : Context → Parser} (hin : ∀ ctx, Follows (lenient ctx) (strict ctx))

include hin

private theorem follows_bracketed (close : TokenKind) (ctx : Context) :
    Follows (bracketed .lenient lenient close ctx) (bracketed .strict strict close ctx) :=
  follows_take.andThen <|
    ((hin (ctx.bracket close)).asPhrase.recovering [close] (ctx.bracket close)).andThen
      (follows_require close ctx.inner)

private theorem follows_details (ctx : Context) :
    Follows (details .lenient lenient ctx) (details .strict strict ctx) :=
  (follows_bracketed hin .greater ctx).asPhrase

omit hin in
private theorem follows_bounds (ctx : Context) :
    Follows (bounds .lenient ctx) (bounds .strict ctx) := by
  refine follows_take.andThen ((follows_require _ _).andThen ?_)
  exact (follows_take.andThen (follows_require _ _)).whenNext.andThen (follows_require _ _)

omit hin in
private theorem follows_repeater (ctx : Context) :
    Follows (repeater .lenient ctx) (repeater .strict ctx) :=
  ((follows_bounds ctx).ite follows_take).asPhrase

private theorem follows_basic (ctx : Context) :
    Follows (basic .lenient lenient ctx) (basic .strict strict ctx) := by
  intro ts
  unfold basic
  split
  · exact follows_take.andThen (follows_details hin ctx).whenNext ts
  · exact follows_bracketed hin .rpar ctx ts
  · exact follows_take ts

private theorem follows_operand (h : Follows q p) (ctx : Context) :
    Follows (operand .lenient lenient q ctx) (operand .strict strict p ctx) := by
  intro ts
  unfold operand
  split
  · exact follows_bracketed hin .rsqb ctx ts
  · exact h ts
  · exact h ts
  · exact h ts
  · exact follows_refuse .basic ts

omit hin in
/-- Reading a capture name meets no mismatch. -/
private theorem follows_capture : Follows capture capture := by
  rintro (_ | ⟨t, _ | ⟨u, us⟩⟩)
  · exact follows_nothing _
  · exact follows_nothing _
  · unfold capture
    dsimp only
    split
    · exact follows_take.andThen follows_take _
    · exact follows_nothing _

private theorem follows_repeated (ctx : Context) :
    Follows (repeated .lenient lenient ctx) (repeated .strict strict ctx) :=
  ((follows_basic hin _).recovering _ _).andThen (follows_repeater ctx).whenNext

private theorem follows_plainUnit (ctx : Context) :
    Follows (plainUnit .lenient lenient ctx) (plainUnit .strict strict ctx) :=
  (follows_capture.andThen (follows_operand hin (follows_repeated hin ctx) ctx)).asPhrase

private theorem follows_negatedUnit (ctx : Context) :
    Follows (negatedUnit .lenient lenient ctx) (negatedUnit .strict strict ctx) :=
  (follows_take.andThen (follows_operand hin (follows_basic hin ctx) ctx)).asPhrase

private theorem follows_unit (ctx : Context) :
    Follows (unit .lenient lenient ctx) (unit .strict strict ctx) :=
  ((follows_negatedUnit hin _).ite (follows_plainUnit hin _)).recovering _ _

private theorem follows_alternative (ctx : Context) :
    Follows (alternative .lenient lenient ctx) (alternative .strict strict ctx) :=
  ((follows_unit hin _).many.ite (follows_refuse .units)).asPhrase.recovering _ _

private theorem follows_separated (ctx : Context) :
    Follows (separated .lenient lenient ctx) (separated .strict strict ctx) :=
  (follows_alternative hin ctx).andThen (follows_take.andThen (follows_alternative hin ctx)).many

end Phrases

/-- The lenient parser follows the strict one, however deep brackets nest. -/
theorem follows_alternatives (depth : Nat) (ctx : Context) :
    Follows (alternatives .lenient depth ctx) (alternatives .strict depth ctx) := by
  induction depth generalizing ctx with
  | zero => exact fun _ => .inr ⟨rfl, fun _ h => h⟩
  | succ depth ih => exact follows_separated ih ctx

end Parser

/-! ## Whole patterns -/

/-- On all tokens, either both parsers make the same tree without a mismatch, or both meet the same
mismatch first. -/
private theorem parseTokens_lenient (ts : List Token) :
    (parseTokens .lenient ts = parseTokens .strict ts ∧ (parseTokens .strict ts).2 = []) ∨
      ∃ m ms ms', (parseTokens .strict ts).2 = m :: ms ∧
        (parseTokens .lenient ts).2 = m :: ms' := by
  let r := Parser.alternatives .strict (ts.length + 1) .empty ts
  let s := Parser.alternatives .lenient (ts.length + 1) .empty ts
  have hstrict : (parseTokens .strict ts).2 = r.allMismatches := rfl
  have hlenient : (parseTokens .lenient ts).2 = s.allMismatches := rfl
  rcases Parser.follows_alternatives (ts.length + 1) .empty ts with ⟨heq, hm, ha⟩ | ⟨ha, hm⟩
  · have hall : r.allMismatches = r.rest.head?.toList.map fun t => ⟨.patternEnd, some t⟩ := by
      rw [Reply.allMismatches, ha, hm]
      cases r.rest <;> rfl
    have hsame : parseTokens .lenient ts = parseTokens .strict ts := by
      rw [parseTokens, heq, parseTokens]
    rcases hrest : r.rest with _ | ⟨t, us⟩
    · exact .inl ⟨hsame, by rw [hstrict, hall, hrest]; rfl⟩
    · refine .inr ⟨⟨.patternEnd, some t⟩, [], [], ?_, ?_⟩
      · rw [hstrict, hall, hrest]
        rfl
      · rw [hsame, hstrict, hall, hrest]
        rfl
  -- the depth exceeds the number of tokens, so a refusal names a mismatch
  · have hne : r.mismatches ≠ [] := by
      rcases Parser.settles_alternatives (ts.length + 1) .empty ts (Nat.lt_succ_self _) with
        ⟨-, hne⟩ | ⟨taken, trees, rest, -, haccepts, -⟩
      · exact hne
      · rw [Parser.Accepts] at haccepts
        rw [haccepts] at ha
        cases ha
    obtain ⟨m, ms, hms⟩ := List.exists_cons_of_ne_nil hne
    obtain ⟨ms', hms'⟩ := List.head?_eq_some_iff.1 (hm m (congrArg List.head? hms))
    have hfirst : ∃ ms', s.allMismatches = m :: ms' := by
      rw [Reply.allMismatches, show s.mismatches = m :: ms' from hms']
      split
      · exact ⟨_, rfl⟩
      · split <;> exact ⟨_, rfl⟩
    obtain ⟨ms'', hms''⟩ := hfirst
    refine .inr ⟨m, ms, ms'', ?_, hlenient.trans hms''⟩
    rw [hstrict, Reply.allMismatches, if_pos ha, hms]

/-! ## Lines and columns count from one -/

/-- A line and a column that are counted from one. -/
def Position.Counted (p : Position) : Prop := 1 ≤ p.line ∧ 1 ≤ p.column

namespace Position.Counted

variable {p : Position}

private theorem after (h : p.Counted) (t : Text) : (p.after t).Counted := by
  fun_induction Position.after p t with
  | case1 => exact h
  | case2 _ _ _ _ ih => exact ih h
  | case3 p c rest _ ih =>
    apply ih
    unfold step
    split
    · exact ⟨Nat.le_add_left _ _, Nat.le_refl _⟩
    · exact ⟨h.1, Nat.le_add_left _ _⟩

private theorem right (h : p.Counted) (n : Nat) : (p.right n).Counted :=
  ⟨h.1, Nat.le_trans h.2 (Nat.le_add_right _ _)⟩

private theorem placeOf (h : p.Counted) :
    (Diagnostic.placeOf p).line + 1 = p.line ∧ (Diagnostic.placeOf p).character + 1 = p.column :=
  ⟨Nat.sub_add_cancel h.1, Nat.sub_add_cancel h.2⟩

end Position.Counted

/-- Every piece stands at a position counted from one. -/
private theorem Piece.counted_ofText (t : Text) {start : Position} (offset : Nat)
    (h : start.Counted) :
    ∀ p ∈ ofText t 0 start offset, p.start.Counted := by
  generalize hn : t.length = n
  induction n using Nat.strongRecOn generalizing t start offset with
  | ind n ih =>
    cases t with
    | nil => simp [ofText]
    | cons c rest =>
      have hpos := first_text_length c rest start offset
      have hlt : ((c :: rest).drop (first (c :: rest) start offset).text.length).length < n := by
        rw [List.length_drop, ← hn, List.length_cons]
        omega
      have hstart : (first (c :: rest) start offset).start.Counted := by
        unfold first
        split <;> exact h
      have hbehind : (first (c :: rest) start offset).behind.Counted := by
        unfold behind
        split
        · exact hstart.after _
        · exact hstart.right _
      rw [ofText_cons, List.forall_mem_cons]
      exact ⟨hstart, ih _ hlt _ _ hbehind rfl⟩

private theorem counted_of_mem_pieces {t : Text} {p : Piece} (h : p ∈ pieces t) : p.start.Counted :=
  Piece.counted_ofText t 0 ⟨Nat.le_refl _, Nat.le_refl _⟩ p h

private theorem counted_of_mem_tokens {t : Text} {token : Token} (h : token ∈ tokens t) :
    token.start.Counted := by
  obtain ⟨p, hp, htoken⟩ := List.mem_filterMap.1 h
  rw [(Piece.place_of_token? htoken).1]
  exact counted_of_mem_pieces hp

/-! ## The first diagnostic is the error -/

/-- An editor shows an error of a text at this place: lines and characters count from zero, and an
error without a place is at the end of the text. -/
def PatternError.ShownAt (t : Text) (e : PatternError) (p : Place) : Prop :=
  (∃ q : Position, e.line? = some (.int q.line) ∧ e.column? = some (.int q.column) ∧
    p.line + 1 = q.line ∧ p.character + 1 = q.column) ∨
  e.line? = none ∧ e.column? = none ∧ p = Diagnostic.endOf t

private theorem Piece.shownAt {t : Text} {p : Piece} (h : p ∈ pieces t) :
    p.toError.ShownAt t (Diagnostic.ofPiece p).start :=
  .inl ⟨p.start, rfl, rfl, (counted_of_mem_pieces h).placeOf⟩

private theorem Mismatch.shownAt {t : Text} {m : Mismatch}
    (h : ∀ token ∈ m.found?, token ∈ tokens t) :
    m.toError.ShownAt t (Diagnostic.ofMismatch t m).start := by
  obtain ⟨e, found?⟩ := m
  cases found? with
  | none => exact .inr ⟨rfl, rfl, rfl⟩
  | some token => exact .inl ⟨token.start, rfl, rfl, (counted_of_mem_tokens (h token rfl)).placeOf⟩

/-- The error of a mismatch is worded like its diagnostic, with the line in front. -/
private theorem Mismatch.message_toError (t : Text) (m : Mismatch) :
    m.toError.message =
      PatternError.withLine m.toError.line? (Diagnostic.ofMismatch t m).message := by
  unfold toError
  split <;> rfl

/-- The token at the mismatch of the strict parser is one of the tokens. -/
private theorem mem_of_mismatch {ts : List Token} {m : Mismatch} {ms : List Mismatch}
    (h : (parseTokens .strict ts).2 = m :: ms) : ∀ token ∈ m.found?, token ∈ ts := by
  rcases parseTokens_strict_cases ts with ⟨c, rfl⟩ | ⟨us, rest, m', rfl, hms, hfound, -⟩
  · rw [parseTokens_strict_iff.2 ⟨c, rfl, rfl⟩] at h
    cases h
  · cases h.symm.trans hms
    intro token htoken
    rw [hfound] at htoken
    exact List.mem_append_right us (List.mem_of_mem_head? htoken)

/-- A text has a tree and no diagnostics, or an error and no tree; then the first diagnostic is the
error. -/
private theorem diagnose_cases (t : Text) :
    (∃ tree, parse t = .ok tree ∧ diagnose t = ⟨[], some tree⟩) ∨
      ∃ e d ds, parse t = .error e ∧ diagnose t = ⟨d :: ds, none⟩ ∧ e.ShownAt t d.start ∧
        ∀ ts, lex t = .ok ts → e.message = PatternError.withLine e.line? d.message := by
  cases hu : unrecognized t with
  | cons p ps =>
    have hlex : lex t = .error p.toError := by rw [lex, hu]
    have hmem : p ∈ unrecognized t := hu ▸ List.mem_cons_self
    refine .inr ⟨p.toError, .ofPiece p, _, by rw [parse, hlex], by rw [diagnose, hu]; rfl,
      Piece.shownAt (List.mem_filter.1 hmem).1, fun ts hts => ?_⟩
    cases hlex.symm.trans hts
  | nil =>
    have hlex : lex t = .ok (tokens t) := lex_eq_ok_iff.2 ⟨hu, rfl⟩
    rcases parseTokens_lenient (tokens t) with ⟨hsame, hnone⟩ | ⟨m, ms, ms', hstrict, hlenient⟩
    · have hboth : parseTokens .strict (tokens t) = ((parseTokens .strict (tokens t)).1, []) :=
        Prod.ext rfl hnone
      refine .inl ⟨_, parse_eq_ok_iff.2 ⟨hu, hboth⟩, ?_⟩
      rw [diagnose, hu, hsame, hboth]
      rfl
    · have hfirst : parseTokens .strict (tokens t) =
          ((parseTokens .strict (tokens t)).1, m :: ms) := Prod.ext rfl hstrict
      have hmended : parseTokens .lenient (tokens t) =
          ((parseTokens .lenient (tokens t)).1, m :: ms') := Prod.ext rfl hlenient
      refine .inr ⟨m.toError, .ofMismatch t m, _, by rw [parse, hlex]; dsimp only; rw [hfirst],
        by rw [diagnose, hu, hmended]; rfl, Mismatch.shownAt (mem_of_mismatch hstrict), ?_⟩
      exact fun _ _ => m.message_toError t

/-- Whatever the text, its diagnostics can be given. There are none exactly when the text has a
tree; that tree is the one of the diagnosis, and no check fails while it is made. The first
diagnostic of a refused text stands where its error does, and in a text that is lexed it also has
the message of the error without the line. -/
theorem diagnose_agrees_parse (t : Text) :
    ((diagnose t).diagnostics = [] ↔ ∃ tree, parse t = .ok tree) ∧
      (∀ tree, parse t = .ok tree → (diagnose t).tree? = some tree ∧
        ∃ c : Choice, tokens t = c.tokens ∧ patternTree "matcher" c.root = .ok tree) ∧
      ∀ e, parse t = .error e → (diagnose t).tree? = none ∧
        ∃ d ds, (diagnose t).diagnostics = d :: ds ∧ e.ShownAt t d.start ∧
          ∀ ts, lex t = .ok ts → e.message = PatternError.withLine e.line? d.message := by
  rcases diagnose_cases t with ⟨tree, hparse, hdiagnose⟩ |
    ⟨e, d, ds, hparse, hdiagnose, hshown, hmessage⟩
  · rw [hdiagnose, hparse]
    refine ⟨⟨fun _ => ⟨tree, rfl⟩, fun _ => rfl⟩, fun tree' h => ?_, fun _ h => nomatch h⟩
    cases h
    exact ⟨rfl, patternTree_of_parse hparse⟩
  · rw [hdiagnose, hparse]
    refine ⟨⟨(nomatch ·), fun ⟨_, h⟩ => nomatch h⟩, fun _ h => (nomatch h), fun e' h => ?_⟩
    cases h
    exact ⟨rfl, d, ds, rfl, hshown, hmessage⟩

end TreeMatcher
