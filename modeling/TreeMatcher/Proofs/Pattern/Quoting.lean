import TreeMatcher.Pattern.Lexeme
import TreeMatcher.Pattern.Literal

/-!
# Quoting is undone by reading

`Literal.quote` writes any value between single quote marks. What it writes for one unit is the unit
itself, a backslash and one unit, or a backslash and a hexadecimal pair; none of them closes the
literal or ends a line, and each is read back as the unit.

* `QuoteForm c t` — `t` is a way to write the unit `c` inside a literal.

## Main results

* `stringLength?_quote` — a quoted value is one literal, whatever follows but a quote mark.
* `unquote_quote` — the value of a quoted value is the value.
-/

namespace TreeMatcher.Literal

/-! ## How one unit is written -/

/-- The ways to write a unit inside a literal between single quote marks. -/
inductive QuoteForm (c : CodeUnit) : Text → Prop where
  | plain (hq : c ≠ CodeUnit.singleQuote) (hb : c ≠ CodeUnit.backslash) (hl : c.isLineEnd = false) :
      QuoteForm c [c]
  | simple {d : CodeUnit} (hd : simpleEscape? d = some c) (hl : d.isLineTerminator = false) :
      QuoteForm c [CodeUnit.backslash, d]
  | hex {a b : Nat} (ha : a < 16) (hb : b < 16) (hc : (16 * a + b).toUInt16 = c) :
      QuoteForm c [CodeUnit.backslash, 0x78, CodeUnit.ofHexDigit a, CodeUnit.ofHexDigit b]

private theorem quoteForm_quoteUnit (c : CodeUnit) : QuoteForm c (quoteUnit c) := by
  unfold quoteUnit
  split
  · next h => exact h ▸ .simple (by decide) (by decide)
  split
  · next h => exact h ▸ .simple (by decide) (by decide)
  split
  · next h => exact h ▸ .simple (by decide) (by decide)
  split
  · next h => exact h ▸ .simple (by decide) (by decide)
  split
  · next h => exact h ▸ .simple (by decide) (by decide)
  split
  · next h =>
    have hc : c.toNat < 128 := by
      rw [Bool.or_eq_true, decide_eq_true_eq, decide_eq_true_eq] at h
      rcases h with h | rfl
      · exact Nat.lt_trans (UInt16.lt_iff_toNat_lt.1 h) (by decide)
      · decide
    refine .hex (by omega) (Nat.mod_lt _ (by decide)) ?_
    rw [Nat.div_add_mod]
    exact UInt16.ofNat_toNat
  · next hlf hcr _ hq hb _ => exact .plain hq hb (by simp [CodeUnit.isLineEnd, hlf, hcr])

private theorem hexDigitValue?_ofHexDigit {n : Nat} (h : n < 16) :
    (CodeUnit.ofHexDigit n).hexDigitValue? = some n := by
  have hall : ∀ n : Fin 16, (CodeUnit.ofHexDigit n).hexDigitValue? = some n.val := by decide
  exact hall ⟨n, h⟩

/-- A hexadecimal digit stands for itself inside a literal. -/
private theorem ofHexDigit_plain {n : Nat} (h : n < 16) :
    CodeUnit.ofHexDigit n ≠ CodeUnit.singleQuote ∧ CodeUnit.ofHexDigit n ≠ CodeUnit.backslash ∧
      (CodeUnit.ofHexDigit n).isLineEnd = false := by
  have hall : ∀ n : Fin 16, CodeUnit.ofHexDigit n ≠ CodeUnit.singleQuote ∧
      CodeUnit.ofHexDigit n ≠ CodeUnit.backslash ∧
      (CodeUnit.ofHexDigit n).isLineEnd = false := by decide
  exact hall ⟨n, h⟩

/-! ## The end of a quoted value is found -/

theorem singleBodyLength?_plain {q c : CodeUnit} (rest : Text) (hq : c ≠ q)
    (hb : c ≠ CodeUnit.backslash) (hl : c.isLineEnd = false) :
    singleBodyLength? q (c :: rest) = (singleBodyLength? q rest).map (· + 1) := by
  cases rest with
  | nil => simp [singleBodyLength?, hq]
  | cons d rest => rw [singleBodyLength?, if_neg hq, if_neg hb, if_neg (by simp [hl])]

theorem singleBodyLength?_backslash {q d : CodeUnit} (rest : Text) (hq : CodeUnit.backslash ≠ q)
    (hd : d.isLineTerminator = false) :
    singleBodyLength? q (CodeUnit.backslash :: d :: rest) =
      (singleBodyLength? q rest).map (· + 2) := by
  rw [singleBodyLength?, if_neg hq, if_pos rfl, if_neg (by simp [hd])]

/-- What is written for one unit does not close the literal. -/
private theorem QuoteForm.singleBodyLength? {c : CodeUnit} {t : Text} (h : QuoteForm c t)
    (rest : Text) :
    singleBodyLength? CodeUnit.singleQuote (t ++ rest) =
      (singleBodyLength? CodeUnit.singleQuote rest).map (· + t.length) := by
  cases h with
  | plain hq hb hl => exact singleBodyLength?_plain rest hq hb hl
  | simple hd hl => exact singleBodyLength?_backslash rest (by decide) hl
  | @hex a b ha hb hc =>
    obtain ⟨haq, hab, hal⟩ := ofHexDigit_plain ha
    obtain ⟨hbq, hbb, hbl⟩ := ofHexDigit_plain hb
    rw [List.cons_append, List.cons_append, singleBodyLength?_backslash _ (by decide) (by decide),
      List.cons_append, singleBodyLength?_plain _ haq hab hal, List.cons_append,
      List.nil_append, singleBodyLength?_plain _ hbq hbb hbl, Option.map_map, Option.map_map]
    rfl

private theorem singleBodyLength?_flatMap_quoteUnit (v rest : Text) :
    singleBodyLength? CodeUnit.singleQuote (v.flatMap quoteUnit ++ CodeUnit.singleQuote :: rest) =
      some ((v.flatMap quoteUnit).length + 1) := by
  induction v with
  | nil => cases rest <;> simp [TreeMatcher.singleBodyLength?]
  | cons c v ih =>
    rw [List.flatMap_cons, List.append_assoc, (quoteForm_quoteUnit c).singleBodyLength?,
      ih, Option.map_some, List.length_append]
    congr 1
    omega

/-- What is written for one unit does not begin with a quote mark. -/
private theorem QuoteForm.exists_cons {c : CodeUnit} {t : Text} (h : QuoteForm c t) :
    ∃ d rest, t = d :: rest ∧ d ≠ CodeUnit.singleQuote := by
  cases h with
  | plain hq hb hl => exact ⟨_, _, rfl, hq⟩
  | simple hd hl => exact ⟨_, _, rfl, by decide⟩
  | hex ha hb hc => exact ⟨_, _, rfl, by decide⟩

/-- Behind the opening mark there are no two more marks, unless a mark follows an empty literal. -/
private theorem take_two_quote (v : Text) {rest : Text}
    (hr : ∀ c ∈ rest.head?, c ≠ CodeUnit.singleQuote) :
    (v.flatMap quoteUnit ++ CodeUnit.singleQuote :: rest).take 2 ≠
      [CodeUnit.singleQuote, CodeUnit.singleQuote] := by
  cases v with
  | nil =>
    cases rest with
    | nil => simp
    | cons c rest => simpa using hr c rfl
  | cons c v =>
    obtain ⟨d, t, ht, hd⟩ := (quoteForm_quoteUnit c).exists_cons
    rw [List.flatMap_cons, ht]
    intro h
    exact hd (List.cons.inj h).1

theorem quote_append (v rest : Text) :
    quote v ++ rest =
      CodeUnit.singleQuote :: (v.flatMap quoteUnit ++ CodeUnit.singleQuote :: rest) := by
  simp [quote]

/-- A quoted value is one literal, whatever follows but a quote mark. -/
theorem stringLength?_quote (v : Text) {rest : Text}
    (hr : ∀ c ∈ rest.head?, c ≠ CodeUnit.singleQuote) :
    stringLength? (quote v ++ rest) = some (quote v).length := by
  have htriple : tripleLength? CodeUnit.singleQuote
      (v.flatMap quoteUnit ++ CodeUnit.singleQuote :: rest) = none :=
    if_neg (take_two_quote v hr)
  rw [quote_append, stringLength?, if_pos (by decide), htriple]
  dsimp only
  rw [singleBodyLength?_flatMap_quoteUnit]
  simp [quote]

/-! ## The value of a quoted value -/

theorem unescapeFrom_plain {c : CodeUnit} (rest : Text) (hb : c ≠ CodeUnit.backslash) :
    unescapeFrom (c :: rest) 0 = (unescapeFrom rest 0).map (c :: ·) := by
  rw [unescapeFrom, if_neg hb]

private theorem unescapeFrom_escape {t rest : Text} {c : CodeUnit} {n : Nat}
    (he : escape (t ++ rest) = .unit c n) (hn : n = t.length) :
    unescapeFrom (CodeUnit.backslash :: (t ++ rest)) 0 = (unescapeFrom rest 0).map (c :: ·) := by
  rw [unescapeFrom, if_pos rfl, he]
  dsimp only
  rw [unescapeFrom_skip, hn, List.drop_left]

/-- What is written for one unit stands for that unit. -/
private theorem QuoteForm.unescapeFrom {c : CodeUnit} {t : Text} (h : QuoteForm c t) (rest : Text) :
    unescapeFrom (t ++ rest) 0 = (unescapeFrom rest 0).map (c :: ·) := by
  cases h with
  | plain hq hb hl => exact unescapeFrom_plain rest hb
  | @simple d hd hl =>
    have he : escape ([d] ++ rest) = .unit c 1 := by
      rw [List.singleton_append, escape, hd]
    exact unescapeFrom_escape he rfl
  | @hex a b ha hb hc =>
    have he : escape ([0x78, CodeUnit.ofHexDigit a, CodeUnit.ofHexDigit b] ++ rest) =
        .unit c 3 := by
      have hpair : hexPair? (CodeUnit.ofHexDigit a :: CodeUnit.ofHexDigit b :: rest) = some c := by
        rw [hexPair?, hexDigitValue?_ofHexDigit ha, hexDigitValue?_ofHexDigit hb, ← hc]
      have hx : simpleEscape? 0x78 = none := by decide
      rw [List.cons_append, escape, hx]
      dsimp only
      rw [if_pos rfl, List.cons_append, List.cons_append, List.nil_append, hpair]
    exact unescapeFrom_escape he rfl

private theorem unescape_flatMap_quoteUnit (v : Text) : unescape (v.flatMap quoteUnit) = .ok v := by
  unfold unescape
  induction v with
  | nil => rfl
  | cons c v ih =>
    rw [List.flatMap_cons, (quoteForm_quoteUnit c).unescapeFrom, ih]
    rfl

private theorem markCount_quote (v : Text) : markCount CodeUnit.singleQuote (quote v) = 1 := by
  have htake := @take_two_quote v [] (by simp)
  unfold markCount
  rw [if_neg]
  rintro ⟨-, h⟩
  rw [← List.append_nil (quote v), quote_append, List.take_succ_cons] at h
  exact htake (List.cons.inj h).2

/-- The value of a quoted value is the value. -/
theorem unquote_quote (v : Text) : unquote (quote v) = .ok v := by
  have hbody : body? CodeUnit.singleQuote 1 (quote v) = some (v.flatMap quoteUnit) := by
    have hlen : (quote v).length = (v.flatMap quoteUnit).length + 2 := by simp [quote]
    unfold body?
    rw [if_pos]
    · simp [quote]
    · constructor
      · omega
      · rw [hlen, quote]
        simp
  have hcons : quote v = CodeUnit.singleQuote ::
      (v.flatMap quoteUnit ++ [CodeUnit.singleQuote]) := rfl
  unfold unquote
  rw [hcons]
  dsimp only
  rw [if_pos (by decide), ← hcons, markCount_quote, hbody]
  exact unescape_flatMap_quoteUnit v

end TreeMatcher.Literal
