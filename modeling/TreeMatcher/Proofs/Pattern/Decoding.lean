import TreeMatcher.Proofs.Pattern.Excerpt
import TreeMatcher.Proofs.Pattern.LiteralPattern
import TreeMatcher.Proofs.Pattern.Replacement

/-!
# What the literals of a text stand for

A literal is lexed by one regular expression and evaluated with another, and between the two its
marks are found again from its length and its first units. That these agree is said for the literals
of any text. The form by which a literal was matched gives the marks that are stripped, so a body is
left, whatever stands in it.

The value of the body is given by a relation that knows neither expression: a unit stands for
itself, and a backslash begins an escape of the table, a hexadecimal pair, one to three octal digits
as far as they go, or nothing at all, and then it stands for itself. Decoding is stuck at one place
only, a backslash and an `x` without two hexadecimal digits.

* `Decodes t v rest` — the text `t` is decoded to `v` up to `rest`.

## Main results

* `Decodes.unescapeFrom_eq` — what is decoded is what is read.
* `exists_decodes` — a text is decoded to its end, or up to an incomplete hexadecimal pair.
* `string_token_value` — the marks and the value of a literal of any text.
-/

namespace TreeMatcher

open Literal

/-! ## Decoding -/

/-- Whether a backslash in front of a text begins no escape. -/
def BeginsNoEscape (t : Text) : Prop :=
  ∀ c ∈ t.head?, escapeTable.lookup c = none ∧ c ≠ 0x78 ∧ c.isOctalDigit = false

/-- `Decodes t v rest`: read once from the left, `t` is decoded to `v` up to `rest`. -/
inductive Decodes : Text → Text → Text → Prop where
  | done {t : Text} : Decodes t [] t
  | plain {c : CodeUnit} {t v rest : Text} (hc : c ≠ CodeUnit.backslash) (h : Decodes t v rest) :
      Decodes (c :: t) (c :: v) rest
  | table {c u : CodeUnit} {t v rest : Text} (hu : escapeTable.lookup c = some u)
      (h : Decodes t v rest) : Decodes (CodeUnit.backslash :: c :: t) (u :: v) rest
  | hex {a b : CodeUnit} {m n : Nat} {t v rest : Text} (ha : a.hexDigitValue? = some m)
      (hb : b.hexDigitValue? = some n) (h : Decodes t v rest) :
      Decodes (CodeUnit.backslash :: 0x78 :: a :: b :: t) ((16 * m + n).toUInt16 :: v) rest
  | octal {digits t v rest : Text} (hne : digits ≠ []) (hlen : digits.length ≤ 3)
      (hall : ∀ c ∈ digits, c.isOctalDigit)
      (hstop : digits.length = 3 ∨ ∀ c ∈ t.head?, c.isOctalDigit = false) (h : Decodes t v rest) :
      Decodes (CodeUnit.backslash :: (digits ++ t)) (octalUnit digits :: v) rest
  | verbatim {t v rest : Text} (ht : BeginsNoEscape t) (h : Decodes t v rest) :
      Decodes (CodeUnit.backslash :: t) (CodeUnit.backslash :: v) rest

/-! ## Decoding is reading -/

/-- An escape of some units stands for one unit. -/
private theorem unescapeFrom_of_escape {t : Text} {u : CodeUnit} {n : Nat}
    (he : escape t = .unit u n) :
    unescapeFrom (CodeUnit.backslash :: t) 0 = (unescapeFrom (t.drop n) 0).map (u :: ·) := by
  rw [unescapeFrom_backslash, he]

/-- Octal digits, as many as three, are taken as far as they go. -/
private theorem escape_octal {digits t : Text} (hne : digits ≠ []) (hlen : digits.length ≤ 3)
    (hall : ∀ c ∈ digits, c.isOctalDigit)
    (hstop : digits.length = 3 ∨ ∀ c ∈ t.head?, c.isOctalDigit = false) :
    escape (digits ++ t) = .unit (octalUnit digits) digits.length := by
  obtain ⟨c, more, rfl⟩ := List.exists_cons_of_ne_nil hne
  have hc : c.isOctalDigit := hall c List.mem_cons_self
  have hsimple : simpleEscape? c = none := by
    grind [simpleEscape?, CodeUnit.isQuote, CodeUnit.isOctalDigit]
  have hx : c ≠ 0x78 := by
    intro hx
    rw [hx] at hc
    exact absurd hc (by decide)
  have hrun : Text.run CodeUnit.isOctalDigit ((c :: more ++ t).take 3) = (c :: more).length := by
    rw [List.take_append, List.take_of_length_le hlen]
    apply Text.run_append_of_stop _ _ _ hall
    intro d hd
    rcases hstop with hthree | hstop
    · rw [hthree, Nat.sub_self, List.take_zero] at hd
      cases hd
    · rw [List.head?_take] at hd
      split at hd
      · cases hd
      · exact hstop d hd
  rw [List.cons_append, escape, hsimple]
  dsimp only
  rw [if_neg hx, ← List.cons_append, hrun, List.length_cons]
  dsimp only
  rw [← List.length_cons (a := c), List.take_left]

/-- A backslash that begins no escape stands for itself. -/
private theorem escape_verbatim {t : Text} (ht : BeginsNoEscape t) : escape t = .verbatim := by
  rcases t with _ | ⟨c, t⟩
  · rfl
  obtain ⟨hlookup, hx, ho⟩ := ht c rfl
  rw [escape, simpleEscape?_eq_lookup, hlookup]
  dsimp only
  rw [if_neg hx, List.take_succ_cons, Text.run_cons, if_neg (by simp [ho])]

/-- What is decoded is what is read. -/
theorem Decodes.unescapeFrom_eq {t v rest : Text} (h : Decodes t v rest) :
    unescapeFrom t 0 = (unescapeFrom rest 0).map (v ++ ·) := by
  induction h with
  | @done t => cases unescapeFrom t 0 <;> rfl
  | @plain c t v rest hc _ ih =>
    rw [unescapeFrom_plain t hc, ih]
    cases unescapeFrom rest 0 <;> rfl
  | @table c u t v rest hu _ ih =>
    have he : escape (c :: t) = .unit u 1 := by
      rw [escape, simpleEscape?_eq_lookup, hu]
    rw [unescapeFrom_of_escape he, List.drop_succ_cons, List.drop_zero, ih]
    cases unescapeFrom rest 0 <;> rfl
  | @hex a b m n t v rest ha hb _ ih =>
    have he : escape (0x78 :: a :: b :: t) = .unit (16 * m + n).toUInt16 3 := by
      have hpair : hexPair? (a :: b :: t) = some (16 * m + n).toUInt16 := by
        rw [hexPair?, ha, hb]
      rw [escape, show simpleEscape? 0x78 = none from by decide]
      dsimp only
      rw [if_pos rfl, hpair]
    rw [unescapeFrom_of_escape he]
    show (unescapeFrom t 0).map _ = _
    rw [ih]
    cases unescapeFrom rest 0 <;> rfl
  | @octal digits t v rest hne hlen hall hstop _ ih =>
    rw [unescapeFrom_of_escape (escape_octal hne hlen hall hstop), List.drop_left, ih]
    cases unescapeFrom rest 0 <;> rfl
  | @verbatim t v rest ht _ ih =>
    rw [unescapeFrom_backslash, escape_verbatim ht]
    dsimp only
    rw [ih]
    cases unescapeFrom rest 0 <;> rfl

/-! ## How far decoding goes -/

/-- A run in the first units of a text goes as far as these, or up to a unit outside the class. -/
private theorem run_take_stops (p : CodeUnit → Bool) (n : Nat) (t : Text) :
    Text.run p (t.take n) = n ∨ ∀ c ∈ (t.drop (Text.run p (t.take n))).head?, p c = false := by
  induction t generalizing n with
  | nil => simp
  | cons c t ih =>
    cases n with
    | zero => exact .inl rfl
    | succ n =>
      rw [List.take_succ_cons, Text.run_cons]
      by_cases hc : p c
      · rw [if_pos hc, List.drop_succ_cons]
        rcases ih n with h | h
        · exact .inl (congrArg Nat.succ h)
        · exact .inr h
      · rw [if_neg hc]
        right
        intro d hd
        obtain rfl := Option.some.inj hd
        simpa using hc

/-- The octal digits at the beginning of a text, as many as three. -/
private theorem exists_octal {c : CodeUnit} (t : Text) (hc : c.isOctalDigit) :
    ∃ digits rest, c :: t = digits ++ rest ∧ digits ≠ [] ∧ digits.length ≤ 3 ∧
      (∀ d ∈ digits, d.isOctalDigit) ∧
      (digits.length = 3 ∨ ∀ d ∈ rest.head?, d.isOctalDigit = false) := by
  have hle := Text.run_le_length CodeUnit.isOctalDigit (t.take 2)
  rw [List.length_take] at hle
  refine ⟨c :: t.take (Text.run CodeUnit.isOctalDigit (t.take 2)),
    t.drop (Text.run CodeUnit.isOctalDigit (t.take 2)), ?_, List.cons_ne_nil _ _, ?_, ?_, ?_⟩
  · rw [List.cons_append, List.take_append_drop]
  · rw [List.length_cons, List.length_take]
    omega
  · rw [← takeWhile_take]
    exact List.forall_mem_cons.2 ⟨hc, List.all_eq_true.1 List.all_takeWhile⟩
  · rw [List.length_cons, List.length_take_of_le (by omega)]
    rcases run_take_stops CodeUnit.isOctalDigit 2 t with htwo | hstop
    · exact .inl (congrArg Nat.succ htwo)
    · exact .inr hstop

/-- An incomplete hexadecimal pair at the beginning of a text. -/
def StuckAt (t : Text) : Prop :=
  ∃ rest, t = CodeUnit.backslash :: 0x78 :: rest ∧ hexPair? rest = none

/-- Decoding goes on by one unit of the value. -/
def GoesOn (t : Text) : Prop :=
  ∃ u rest, rest.length < t.length ∧ ∀ v w, Decodes rest v w → Decodes t (u :: v) w

/-- Behind a backslash decoding goes on, or is stuck. -/
private theorem goesOn_backslash (t : Text) :
    StuckAt (CodeUnit.backslash :: t) ∨ GoesOn (CodeUnit.backslash :: t) := by
  by_cases hbegins : BeginsNoEscape t
  · exact .inr ⟨_, t, Nat.lt_succ_self _, fun v w h => .verbatim hbegins h⟩
  rcases t with _ | ⟨d, t⟩
  · exact absurd (by simp [BeginsNoEscape]) hbegins
  cases hlookup : escapeTable.lookup d with
  | some u =>
    refine .inr ⟨u, t, ?_, fun v w h => .table hlookup h⟩
    rw [List.length_cons, List.length_cons]
    omega
  | none =>
    by_cases hx : d = 0x78
    · subst hx
      cases hpair : hexPair? t with
      | none => exact .inl ⟨t, rfl, hpair⟩
      | some u =>
        unfold hexPair? at hpair
        split at hpair
        · next a b rest =>
          split at hpair
          · next m n ha hb =>
            refine .inr ⟨_, rest, ?_, fun v w h => .hex ha hb h⟩
            rw [List.length_cons, List.length_cons, List.length_cons, List.length_cons]
            omega
          · cases hpair
        · cases hpair
    · have ho : d.isOctalDigit := by
        by_contra ho
        apply hbegins
        intro c hc
        obtain rfl := Option.some.inj hc
        exact ⟨hlookup, hx, by simpa using ho⟩
      obtain ⟨digits, rest, ht, hne, hlen, hall, hstop⟩ := exists_octal t ho
      have hpos := List.length_pos_iff.2 hne
      right
      rw [ht]
      refine ⟨_, rest, ?_, fun v w h => .octal hne hlen hall hstop h⟩
      rw [List.length_cons, List.length_append]
      omega

/-- A text is decoded to its end, or up to an incomplete hexadecimal pair. -/
theorem exists_decodes (t : Text) :
    ∃ v rest, Decodes t v rest ∧ (rest = [] ∨ StuckAt rest) := by
  generalize hn : t.length = n
  induction n using Nat.strongRecOn generalizing t with
  | ind n ih =>
    have further : GoesOn t → ∃ v rest, Decodes t v rest ∧ (rest = [] ∨ StuckAt rest) := by
      intro h
      obtain ⟨u, t', hlt, hstep⟩ := h
      obtain ⟨v, rest, hv, hrest⟩ := ih _ (hn ▸ hlt) t' rfl
      exact ⟨u :: v, rest, hstep v rest hv, hrest⟩
    rcases t with _ | ⟨c, t⟩
    · exact ⟨[], [], .done, .inl rfl⟩
    by_cases hc : c = CodeUnit.backslash
    · subst hc
      rcases goesOn_backslash t with hstuck | hgoes
      · exact ⟨[], _, .done, .inr hstuck⟩
      · exact further hgoes
    · exact further ⟨c, t, Nat.lt_succ_self _, fun v w h => .plain hc h⟩

/-! ## The value of a body -/

/-- The units of an incomplete hexadecimal pair, as they are named when it is refused. -/
def incompletePair (rest : Text) : Text :=
  0x78 :: (rest.take 2).takeWhile (!·.isLineTerminator)

private theorem unescapeFrom_stuck {rest : Text} (h : hexPair? rest = none) :
    unescapeFrom (CodeUnit.backslash :: 0x78 :: rest) 0 =
      .error (.invalidHexEscape (incompletePair rest)) := by
  have he : escape (0x78 :: rest) = .invalid (incompletePair rest) := by
    rw [escape, show simpleEscape? 0x78 = none from by decide]
    dsimp only
    rw [if_pos rfl, h]
    rfl
  rw [unescapeFrom_backslash, he]

private theorem Decodes.unescape_eq_ok {body v : Text} (h : Decodes body v []) :
    unescape body = .ok v := by
  show unescapeFrom body 0 = .ok v
  rw [h.unescapeFrom_eq]
  show Except.ok (v ++ []) = Except.ok v
  rw [List.append_nil]

private theorem Decodes.unescape_eq_error {body v rest : Text}
    (h : Decodes body v (CodeUnit.backslash :: 0x78 :: rest)) (hpair : hexPair? rest = none) :
    unescape body = .error (.invalidHexEscape (incompletePair rest)) := by
  show unescapeFrom body 0 = _
  rw [h.unescapeFrom_eq, unescapeFrom_stuck hpair]
  rfl

/-- A body has the value to which it is decoded to its end, and it has none exactly when decoding
comes to an incomplete hexadecimal pair. -/
private theorem unescape_iff_decodes (body : Text) :
    (∀ v, unescape body = .ok v ↔ Decodes body v []) ∧
      ∀ cause, unescape body = .error cause ↔
        ∃ v rest, Decodes body v (CodeUnit.backslash :: 0x78 :: rest) ∧ hexPair? rest = none ∧
          cause = .invalidHexEscape (incompletePair rest) := by
  obtain ⟨v, rest, hv, rfl | ⟨rest, rfl, hpair⟩⟩ := exists_decodes body
  · have hok := hv.unescape_eq_ok
    constructor
    · intro w
      constructor
      · intro hw
        obtain rfl := Except.ok.inj (hok.symm.trans hw)
        exact hv
      · exact Decodes.unescape_eq_ok
    · intro cause
      constructor
      · intro hcause
        rw [hok] at hcause
        cases hcause
      · intro h
        obtain ⟨w, rest, hw, hpair, -⟩ := h
        cases hok.symm.trans (hw.unescape_eq_error hpair)
  · have herror := hv.unescape_eq_error hpair
    constructor
    · intro w
      constructor
      · intro hw
        rw [herror] at hw
        cases hw
      · exact Decodes.unescape_eq_ok
    · intro cause
      constructor
      · intro hcause
        exact ⟨v, rest, hv, hpair, (Except.error.inj (herror.symm.trans hcause)).symm⟩
      · intro h
        obtain ⟨w, rest', hw, hpair', rfl⟩ := h
        exact hw.unescape_eq_error hpair'

/-! ## The literals of a text -/

private theorem LiteralForm.marks_eq_replicate (f : LiteralForm) :
    f.marks = List.replicate f.marks.length f.mark := by
  rw [marks]
  cases f.tripled <;> rfl

/-- A literal of a form at the beginning of a text, with what follows it. -/
private theorem LiteralForm.exists_take {f : LiteralForm} {t : Text} {n : Nat}
    (h : f.length? t = some n) :
    ∃ body rest, t = f.marks ++ body ++ f.marks ++ rest ∧
      t.take n = f.marks ++ body ++ f.marks := by
  obtain ⟨body, -, rest, ht, hn⟩ := length?_eq_some_iff.1 h
  refine ⟨body, rest, ht, ?_⟩
  rw [ht, hn]
  apply List.take_left'
  simp only [List.length_append]
  omega

/-- From its first units and its length, the marks of a literal are found again. -/
private theorem LiteralForm.markCount_take {f : LiteralForm} {t : Text} {n : Nat}
    (h : f.length? t = some n) : markCount f.mark (t.take n) = f.marks.length := by
  obtain ⟨body, rest, ht, htake⟩ := exists_take h
  by_cases htripled : f.tripled
  · have hmarks : f.marks = [f.mark, f.mark, f.mark] := if_pos htripled
    rw [htake, hmarks, markCount, if_pos]
    · rfl
    · exact ⟨by simp, rfl⟩
  · have hmarks : f.marks = [f.mark] := if_neg htripled
    have hcons : t = f.mark :: (body ++ f.marks ++ rest) := by
      rw [ht, hmarks]
      simp
    rw [hcons, length?_cons, if_pos rfl, if_neg htripled] at h
    obtain ⟨k, hk, rfl⟩ := Option.map_eq_some_iff.1 h
    rw [hcons, markCount_of_singleBodyLength? hk, hmarks]
    rfl

/-- Evaluating a literal strips the marks of its form. -/
private theorem LiteralForm.unquote_take {f : LiteralForm} {t : Text} {n : Nat}
    (h : f.length? t = some n) :
    ∃ body, t.take n = f.marks ++ body ++ f.marks ∧ unquote (t.take n) = unescape body := by
  obtain ⟨body, -, -, htake⟩ := exists_take h
  have hne : f.marks.length ≠ 0 := by
    rw [marks]
    split <;> exact Nat.succ_ne_zero _
  have hreplicate := htake
  rw [f.marks_eq_replicate] at hreplicate
  exact ⟨body, htake, (unquote_of_marks f.isQuote hreplicate hne (markCount_take h)).2⟩

/-- A literal of a text is the match of the regular expression where the literal stands, by the
first of its forms that matches. Evaluating it strips the marks of this form from both sides, and
the body that is left is read by replacing its escapes. The value is what the body is decoded to in
one pass; there is none exactly when decoding comes to an `x` behind a backslash without two
hexadecimal digits, and then this is the reason. -/
theorem string_token_value {t : Text} {token : Token} (h : token ∈ tokens t)
    (hkind : token.kind = .string) :
    ∃ form rest body, literalPattern.behind? (t.drop token.offset) = some rest ∧
      matchedForm? (t.drop token.offset) = some (form, rest) ∧
      t.drop token.offset = token.text ++ rest ∧
      token.text = form.marks ++ body ++ form.marks ∧
      unquote token.text = replaceAll escapePattern escapeValue body ∧
      (∀ v, unquote token.text = .ok v ↔ Decodes body v []) ∧
      ∀ cause, unquote token.text = .error cause ↔
        ∃ v rest, Decodes body v (CodeUnit.backslash :: 0x78 :: rest) ∧ hexPair? rest = none ∧
          cause = .invalidHexEscape (incompletePair rest) := by
  obtain ⟨hfirst, htext⟩ := first?_of_mem_tokens h
  rw [hkind] at hfirst
  have hlength : stringLength? (t.drop token.offset) = some token.text.length := by
    obtain ⟨c, rest, -, ⟨-, hlength⟩ | ⟨hk, -⟩ | ⟨hk, -⟩ | ⟨hk, -⟩⟩ := Lexeme.first?_token hfirst
    · exact hlength
    · cases hk
    · cases hk
    · cases TokenKind.mark?_of_ofPunctuation? hk
  obtain ⟨form, hform, hscan⟩ := exists_matchedForm? hlength
  obtain ⟨body, hmarks, hvalue⟩ := form.unquote_take hscan
  rw [← htext] at hmarks hvalue
  have hpattern : literalPattern.behind? (t.drop token.offset) =
      some ((t.drop token.offset).drop token.text.length) := by
    rw [behind?_literalPattern, hlength]
    rfl
  refine ⟨form, _, body, hpattern, hform, ?_, hmarks, ?_, ?_⟩
  · conv => lhs; rw [← List.take_append_drop token.text.length (t.drop token.offset), ← htext]
  · rw [hvalue, unescape_eq_replaceAll]
  · rw [hvalue]
    exact unescape_iff_decodes body

/-- A literal in three marks, with an octal escape and a backslash that begins none, and a literal
in one mark with an incomplete hexadecimal pair. -/
theorem string_token_value_twoLiterals :
    ∃ a b, tokens "'''it's \\1012\\d''' \"\\x4\"" = [a, b] ∧
      (∃ form : LiteralForm, ∃ body, form.tripled = true ∧
        a.text = form.marks ++ body ++ form.marks ∧ Decodes body "it's A2\\d" []) ∧
      ∃ form : LiteralForm, ∃ body v rest, form.tripled = false ∧
        b.text = form.marks ++ body ++ form.marks ∧
        Decodes body v (CodeUnit.backslash :: 0x78 :: rest) ∧ incompletePair rest = "x4" := by
  let a : Token := ⟨.string, "'''it's \\1012\\d'''", ⟨1, 1⟩, 0⟩
  let b : Token := ⟨.string, "\"\\x4\"", ⟨1, 20⟩, 19⟩
  have htokens : tokens "'''it's \\1012\\d''' \"\\x4\"" = [a, b] := by decide +kernel
  have ha : a ∈ tokens "'''it's \\1012\\d''' \"\\x4\"" := by
    rw [htokens]
    exact List.mem_cons_self
  have hb : b ∈ tokens "'''it's \\1012\\d''' \"\\x4\"" := by
    rw [htokens]
    exact List.mem_cons_of_mem _ List.mem_cons_self
  obtain ⟨form, rest, body, -, hform, -, hmarks, -, hvalue, -⟩ := string_token_value ha rfl
  obtain ⟨form', rest', body', -, hform', -, hmarks', -, -, hcause⟩ := string_token_value hb rfl
  have htripled : form.tripled = true := by
    have hmatch := congrArg (Option.map (·.1.tripled)) hform
    exact Option.some.inj (hmatch.symm.trans (by decide +kernel))
  have hsingle : form'.tripled = false := by
    have hmatch := congrArg (Option.map (·.1.tripled)) hform'
    exact Option.some.inj (hmatch.symm.trans (by decide +kernel))
  have hok : unquote a.text = .ok "it's A2\\d" := by decide +kernel
  have herror : unquote b.text = .error (.invalidHexEscape "x4") := by decide +kernel
  obtain ⟨v, rest'', hv, -, hunits⟩ := (hcause _).1 herror
  refine ⟨a, b, htokens, ⟨form, body, htripled, hmarks, (hvalue _).1 hok⟩, form', body', v, rest'',
    hsingle, hmarks', hv, ?_⟩
  exact (PatternError.Cause.invalidHexEscape.inj hunits).symm

end TreeMatcher
