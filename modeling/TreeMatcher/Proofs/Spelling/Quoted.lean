import TreeMatcher.Matcher.Spelling
import TreeMatcher.Proofs.Pattern.Layout
import TreeMatcher.Text.CodePoint

/-!
# Spelling a value and reading it back

A leaf with a value is spelled as a literal. A value is any sequence of code units, so there are
three readings of it that have to agree. The literal is written character by character, where a
surrogate pair is one character and a surrogate on its own another; it is lexed unit by unit; and
its escapes are resolved in a body that may look like escapes itself. No character that is written
as an escape has a surrogate in it, so writing by characters is writing by units.

* `Text.characters t` — the units of each character of a text.
* `Literal.quoteCharacter ch` — how one character is written.

## Main results

* `Text.flatten_characters` — the characters of a text make up the text.
* `Literal.quote_eq_characters` — a literal is its characters between two marks.
* `lex_of_first?` — a text that is a single token from its beginning to its end.
* `quoted_leaf` — the spelling of a leaf with a value is one literal, and its value is the value.
-/

namespace TreeMatcher

/-! ## Writing character by character -/

/-- The characters of a text in order, each with its units: the two halves of a surrogate pair, or
one unit. -/
def Text.characters : Text → List Text
  | [] => []
  | [c] => [[c]]
  | c :: d :: rest =>
    if c.isHighSurrogate && d.isLowSurrogate then [c, d] :: characters rest
    else [c] :: characters (d :: rest)

/-- The characters of a text, one after the other, are the text. -/
theorem Text.flatten_characters (t : Text) : t.characters.flatten = t := by
  fun_induction characters t with
  | case1 => rfl
  | case2 => rfl
  | case3 c d rest _ ih => rw [List.flatten_cons, ih, List.cons_append, List.singleton_append]
  | case4 c d rest _ ih => rw [List.flatten_cons, ih, List.singleton_append]

namespace Literal

/-- How a character is written inside a literal. Five characters have an escape of their own; those
that begin below the blank and the delete character are written as a hexadecimal pair. -/
def quoteCharacter (ch : Text) : Text :=
  if ch = [0x0A] then "\\n"
  else if ch = [0x0D] then "\\r"
  else if ch = [0x09] then "\\t"
  else if ch = [CodeUnit.singleQuote] then "\\'"
  else if ch = [CodeUnit.backslash] then "\\\\"
  else if ch.headD 0 < 0x20 ∨ ch = [0x7F] then
    [CodeUnit.backslash, 0x78, CodeUnit.ofHexDigit ((ch.headD 0).toNat / 16),
      CodeUnit.ofHexDigit ((ch.headD 0).toNat % 16)]
  else ch

/-- A character of one unit is written as the unit. -/
private theorem quoteCharacter_singleton (c : CodeUnit) : quoteCharacter [c] = quoteUnit c := by
  simp [quoteCharacter, quoteUnit]

private theorem quoteUnit_of_surrogate {c : CodeUnit} (h : 0xD800 ≤ c) : quoteUnit c = [c] := by
  have hne : ∀ d : CodeUnit, d < 0xD800 → c ≠ d := by
    intro d hd hcd
    exact absurd (hcd ▸ h) (UInt16.not_le.2 hd)
  exact quoteUnit_of_plain (UInt16.le_trans (by decide) h) (hne _ (by decide)) (hne _ (by decide))
    (hne _ (by decide))

/-- A surrogate pair is written as it is, and so are its halves. -/
private theorem quoteCharacter_pair {c d : CodeUnit} (hc : c.isHighSurrogate)
    (hd : d.isLowSurrogate) :
    quoteCharacter [c, d] = quoteUnit c ++ quoteUnit d := by
  simp only [CodeUnit.isHighSurrogate, CodeUnit.isLowSurrogate, Bool.and_eq_true,
    decide_eq_true_eq] at hc hd
  have hhead : ¬c < 0x20 := UInt16.not_lt.2 (UInt16.le_trans (by decide) hc.1)
  have hd' : 0xD800 ≤ d := UInt16.le_trans (by decide) hd.1
  rw [quoteUnit_of_surrogate hc.1, quoteUnit_of_surrogate hd']
  simp [quoteCharacter, hhead]

/-- A literal is its characters between two marks. -/
theorem quote_eq_characters (v : Text) :
    quote v = CodeUnit.singleQuote :: v.characters.flatMap quoteCharacter ++
      [CodeUnit.singleQuote] := by
  have hbody : v.characters.flatMap quoteCharacter = v.flatMap quoteUnit := by
    fun_induction Text.characters v with
    | case1 => rfl
    | case2 c => rw [List.flatMap_singleton, List.flatMap_singleton, quoteCharacter_singleton]
    | case3 c d rest hpair ih =>
      rw [Bool.and_eq_true] at hpair
      rw [List.flatMap_cons, ih, quoteCharacter_pair hpair.1 hpair.2, List.append_assoc]
      rfl
    | case4 c d rest _ ih => rw [List.flatMap_cons, ih, quoteCharacter_singleton]; rfl
  rw [quote, hbody]

end Literal

/-! ## Reading -/

/-- A text that is a single token from its beginning to its end is lexed as this token. -/
theorem lex_of_first? {t : Text} {k : TokenKind}
    (h : Lexeme.first? t = some (.token k, t.length)) :
    lex t = .ok [⟨k, t, Position.first, 0⟩] := by
  have hpieces : pieces t = [⟨some (.token k), t, Position.first, 0⟩] := by
    obtain ⟨behind, hcons⟩ := Piece.exists_ofText_cons h Position.first 0
    rw [List.take_length, List.drop_length, Piece.ofText] at hcons
    exact hcons
  rw [lex_eq_ok_iff, unrecognized, tokens, hpieces]
  exact ⟨rfl, rfl⟩

/-- Whatever its value, a leaf is spelled as the characters of the value between two marks. The text
is lexed as one literal from its beginning to its end, and the value of the literal is the value. A
name in front of the leaf leaves the literal as it is. -/
theorem quoted_leaf (g : Grammar) (token? : Option Number) (v : Text) :
    ∃ text, g.spell (.leaf token? (some v) none) = .ok text ∧
      lex text = .ok [⟨.string, text, Position.first, 0⟩] ∧
      Literal.unquote text = .ok v ∧
      text = CodeUnit.singleQuote :: v.characters.flatMap Literal.quoteCharacter ++
        [CodeUnit.singleQuote] ∧
      ∀ name, g.spell (.leaf token? (some v) (some name)) = .ok (name ++ "=" ++ text) := by
  have hlex : lex (Literal.quote v) = .ok [⟨.string, Literal.quote v, Position.first, 0⟩] := by
    have hfirst : Lexeme.first? (Literal.quote v ++ []) =
        some (.token .string, (Literal.quote v).length) := Lexeme.first?_string v (by simp)
    rw [List.append_nil] at hfirst
    exact lex_of_first? hfirst
  have hspell : ∀ name? : Option Text, g.spell (.leaf token? (some v) name?) =
      .ok (Grammar.captureText name? ++ Literal.quote v) := by
    intro name?
    rw [Grammar.spell, Grammar.spellLeaf]
    rfl
  exact ⟨Literal.quote v, hspell none, hlex, Literal.unquote_quote v,
    Literal.quote_eq_characters v, fun name => hspell (some name)⟩

end TreeMatcher
