import TreeMatcher.Proofs.Pattern.Escapes
import TreeMatcher.Proofs.Pattern.Scan
import TreeMatcher.Proofs.Text.Backtracking

/-!
# Escapes as a replacement

The escapes of a body are the matches of a regular expression: a backslash, and behind it a
character of the table, an `x` with up to two units of the same line, or up to three octal digits.
The value of a body is what replacing all its matches gives. A replacement looks for the next match
from the end of the last one on, and copies what stands between; each match is replaced by a unit,
or refused when it is hexadecimal and has no two digits.

A match never begins but with a backslash, and what is matched behind the backslash is decided by
the next unit. So replacing the matches is reading the body from the left, escape after escape.

* `replaceAll r f t` — a text with all matches of `r` replaced by `f`.
* `escapeTable`, `escapePattern`, `escapeValue` — the escapes and their values.

## Main results

* `behind?_escapePattern` — what is matched at a backslash is what the reader takes.
* `unescape_eq_replaceAll` — the value of a body is its escapes replaced.
-/

namespace TreeMatcher

open Regex Literal

/-! ## Replacing all matches -/

/-- A text behind its first `skip` units, with the matches of an expression replaced. At a place
where there is no match the unit is copied. -/
def replaceFrom {ε : Type} (r : Regex) (f : Text → Except ε CodeUnit) : Text → Nat → Except ε Text
  | [], _ => .ok []
  | _ :: t, skip + 1 => replaceFrom r f t skip
  | c :: t, 0 =>
    match r.behind? (c :: t) with
    | none => (replaceFrom r f t 0).map (c :: ·)
    | some rest =>
      let n := t.length - rest.length
      match f ((c :: t).take (n + 1)) with
      | .error e => .error e
      | .ok u => (replaceFrom r f t n).map (u :: ·)

/-- A text with the matches of an expression replaced, from left to right. -/
def replaceAll {ε : Type} (r : Regex) (f : Text → Except ε CodeUnit) (t : Text) : Except ε Text :=
  replaceFrom r f t 0

/-! ## Escapes -/

/-- The characters that stand for another one behind a backslash. -/
def escapeTable : List (CodeUnit × CodeUnit) :=
  [(0x61, 0x07), (0x62, 0x08), (0x66, 0x0C), (0x6E, 0x0A), (0x72, 0x0D), (0x74, 0x09), (0x76, 0x0B),
    (CodeUnit.singleQuote, CodeUnit.singleQuote), (CodeUnit.doubleQuote, CodeUnit.doubleQuote),
    (CodeUnit.backslash, CodeUnit.backslash)]

/-- The letters of the table. -/
def isEscapeLetter (c : CodeUnit) : Bool :=
  [0x61, 0x62, 0x66, 0x6E, 0x72, 0x74, 0x76].contains c

/-- An escape behind its backslash: a character of the table, an `x` with up to two units of the
line, or up to three octal digits. -/
def escapeGroup : Regex :=
  .alt (only CodeUnit.singleQuote) <| .alt (only CodeUnit.doubleQuote) <|
  .alt (only CodeUnit.backslash) <| .alt (.unit isEscapeLetter) <|
  .alt (.seq (only 0x78) (upTo (!·.isLineTerminator) 1))
    (.seq (.unit CodeUnit.isOctalDigit) (upTo CodeUnit.isOctalDigit 1))

/-- The regular expression of an escape. -/
def escapePattern : Regex := .seq (only CodeUnit.backslash) escapeGroup

/-- The value of an escape, given what stands behind its backslash. -/
def groupValue (e : Text) : Except PatternError.Cause CodeUnit :=
  match e with
  | [] => .ok (octalUnit e)
  | c :: digits =>
    match if digits = [] then escapeTable.lookup c else none with
    | some u => .ok u
    | none =>
      if c = 0x78 then
        match if digits.length = 2 then hexPair? digits else none with
        | some u => .ok u
        | none => .error (.invalidHexEscape e)
      else .ok (octalUnit e)

/-- The value of an escape. -/
def escapeValue (e : Text) : Except PatternError.Cause CodeUnit := groupValue e.tail

/-- The reader knows the characters of the table, and no others. -/
theorem simpleEscape?_eq_lookup (c : CodeUnit) : simpleEscape? c = escapeTable.lookup c := by
  by_cases h : c ∈ escapeTable.map Prod.fst
  · simp only [escapeTable, List.map_cons, List.map_nil, List.mem_cons, List.not_mem_nil,
      or_false] at h
    rcases h with rfl | rfl | rfl | rfl | rfl | rfl | rfl | rfl | rfl | rfl <;> rfl
  · have hnone : escapeTable.lookup c = none := by
      rw [List.lookup_eq_none_iff]
      intro p hp
      exact bne_iff_ne.2 fun hc => h (hc ▸ List.mem_map_of_mem hp)
    simp only [escapeTable, List.map_cons, List.map_nil, List.mem_cons, List.not_mem_nil,
      or_false, not_or] at h
    rw [hnone]
    simp [simpleEscape?, CodeUnit.isQuote, h]

/-- The characters of the table, as the regular expression has them. -/
private theorem isSome_simpleEscape? (c : CodeUnit) :
    (simpleEscape? c).isSome = (c == CodeUnit.singleQuote || (c == CodeUnit.doubleQuote ||
      (c == CodeUnit.backslash || isEscapeLetter c))) := by
  unfold simpleEscape? isEscapeLetter
  grind [CodeUnit.isQuote]

/-! ## What is matched at a backslash -/

/-- Behind a backslash a character of the table is matched, an `x` with up to two units, or up to
three octal digits. -/
private theorem behind?_escapeGroup (c : CodeUnit) (t : Text) :
    escapeGroup.behind? (c :: t) =
      if (simpleEscape? c).isSome then some t
      else if c = 0x78 then some (t.drop (Text.run (!·.isLineTerminator) (t.take 2)))
      else if c.isOctalDigit then some (t.drop (Text.run CodeUnit.isOctalDigit (t.take 2)))
      else none := by
  have hoctal : CodeUnit.isOctalDigit 0x78 = false := by decide
  rw [isSome_simpleEscape?, escapeGroup, only, only, only, only]
  simp only [behind?_alt, behind?_unit, behind?_unit_seq, behind?_upTo]
  by_cases hs : c = CodeUnit.singleQuote
  · simp [hs]
  by_cases hd : c = CodeUnit.doubleQuote
  · subst hd
    simp [hs]
  by_cases hb : c = CodeUnit.backslash
  · subst hb
    simp [hs, hd]
  by_cases hl : isEscapeLetter c
  · simp [hs, hd, hb, hl]
  by_cases hx : c = 0x78
  · subst hx
    simp [hs, hd, hb, hl, hoctal]
  · simp [hs, hd, hb, hl, hx]

private theorem behind?_escapePattern_of_ne {c : CodeUnit} (hc : c ≠ CodeUnit.backslash)
    (t : Text) :
    escapePattern.behind? (c :: t) = none := by
  rw [escapePattern, only, behind?_unit_seq, if_neg (by simpa using hc)]

private theorem behind?_escapePattern_backslash (t : Text) :
    escapePattern.behind? (CodeUnit.backslash :: t) = escapeGroup.behind? t := by
  rw [escapePattern, only, behind?_unit_seq, if_pos (by simp)]

/-! ## Matching and reading agree -/

/-- A hexadecimal digit ends no line. -/
private theorem hexDigit_not_lineTerminator {c : CodeUnit} {n : Nat}
    (h : c.hexDigitValue? = some n) :
    c.isLineTerminator = false := by
  grind [CodeUnit.hexDigitValue?, CodeUnit.isDigit, CodeUnit.isLineTerminator, CodeUnit.isLineEnd]

/-- A hexadecimal pair depends on the two units only. -/
private theorem hexPair?_take_two (t : Text) : hexPair? (t.take 2) = hexPair? t := by
  rcases t with _ | ⟨a, _ | ⟨b, t⟩⟩ <;> rfl

/-- The digits of a hexadecimal pair stand on one line. -/
private theorem run_of_hexPair? {t : Text} {u : CodeUnit} (h : hexPair? t = some u) :
    Text.run (!·.isLineTerminator) (t.take 2) = 2 := by
  unfold hexPair? at h
  split at h
  · next a b rest =>
    split at h
    · next ha hb =>
      simp [Text.run_cons, hexDigit_not_lineTerminator ha, hexDigit_not_lineTerminator hb]
    · cases h
  · cases h

/-- The units of a class at the beginning of a text that is cut. -/
theorem takeWhile_take (p : CodeUnit → Bool) (n : Nat) (t : Text) :
    (t.take n).takeWhile p = t.take (Text.run p (t.take n)) := by
  have hle := Text.run_le_length p (t.take n)
  rw [List.length_take] at hle
  rw [← Lexeme.take_run, List.take_take, Nat.min_eq_left (by omega)]

/-- What is matched behind a backslash, and its value, are what the reader takes and makes of it. -/
private theorem escapeGroup_escape (t : Text) :
    match escape t with
    | .unit u n => ∃ e rest, t = e ++ rest ∧ e.length = n ∧ escapeGroup.behind? t = some rest ∧
        groupValue e = .ok u
    | .verbatim => escapeGroup.behind? t = none
    | .invalid units => ∃ rest, t = units ++ rest ∧ escapeGroup.behind? t = some rest ∧
        groupValue units = .error (.invalidHexEscape units) := by
  rcases t with _ | ⟨c, t⟩
  · rfl
  rw [escape, behind?_escapeGroup]
  cases hs : simpleEscape? c with
  | some u =>
    refine ⟨[c], t, rfl, rfl, rfl, ?_⟩
    rw [groupValue, if_pos rfl, ← simpleEscape?_eq_lookup, hs]
  | none =>
    have hlookup : ∀ digits : Text,
        (if digits = [] then escapeTable.lookup c else none) = none := by
      intro digits
      rw [← simpleEscape?_eq_lookup, hs]
      exact ite_self none
    rw [Option.isSome_none, if_neg Bool.false_ne_true]
    dsimp only
    by_cases hx : c = 0x78
    · rw [if_pos hx, if_pos hx]
      cases hp : hexPair? t with
      | some u =>
        rw [run_of_hexPair? hp]
        have hlen : (t.take 2).length = 2 := by
          have hrun := Text.run_le_length (!·.isLineTerminator) (t.take 2)
          rw [run_of_hexPair? hp] at hrun
          rw [List.length_take] at hrun ⊢
          omega
        refine ⟨c :: t.take 2, t.drop 2, ?_, by rw [List.length_cons, hlen], rfl, ?_⟩
        · rw [List.cons_append, List.take_append_drop]
        · rw [groupValue, hlookup]
          dsimp only
          rw [if_pos hx, if_pos hlen, hexPair?_take_two, hp]
      | none =>
        rw [takeWhile_take]
        refine ⟨_, by rw [List.cons_append, List.take_append_drop], rfl, ?_⟩
        have hpair : ∀ k, (if (t.take k).length = 2 then hexPair? (t.take k) else none) = none := by
          intro k
          split
          · next hlen =>
            have htake : t.take k = t.take 2 := by
              rw [List.take_eq_take_min, ← List.length_take, hlen]
            rw [htake, hexPair?_take_two, hp]
          · rfl
        rw [groupValue, hlookup]
        dsimp only
        rw [if_pos hx, hpair]
    · rw [if_neg hx, if_neg hx, List.take_succ_cons, Text.run_cons]
      by_cases ho : c.isOctalDigit
      · rw [if_pos ho, if_pos ho]
        dsimp only
        rw [List.take_succ_cons]
        refine ⟨_, _, by rw [List.cons_append, List.take_append_drop], ?_, rfl, ?_⟩
        · have hle := Text.run_le_length CodeUnit.isOctalDigit (t.take 2)
          rw [List.length_take] at hle
          rw [List.length_cons, List.length_take_of_le (by omega)]
        · rw [groupValue, hlookup]
          dsimp only
          rw [if_neg hx]
      · rw [if_neg ho, if_neg ho]

/-- Reading a body from any place on is replacing its escapes from there on. -/
private theorem unescapeFrom_eq_replaceFrom (t : Text) (skip : Nat) :
    unescapeFrom t skip = replaceFrom escapePattern escapeValue t skip := by
  induction t generalizing skip with
  | nil => cases skip <;> rfl
  | cons c t ih =>
    cases skip with
    | succ skip => rw [unescapeFrom, replaceFrom, ih]
    | zero =>
      rw [unescapeFrom, replaceFrom]
      by_cases hc : c = CodeUnit.backslash
      · subst hc
        have hgroup := escapeGroup_escape t
        rw [if_pos rfl, behind?_escapePattern_backslash]
        -- the match ends where the rest begins, so it is found from the length of the rest
        have hmatch : ∀ e rest : Text, t = e ++ rest → t.length - rest.length = e.length ∧
            escapeValue ((CodeUnit.backslash :: t).take (e.length + 1)) = groupValue e := by
          intro e rest ht
          rw [ht, List.length_append, Nat.add_sub_cancel, escapeValue, List.take_succ_cons,
            List.tail_cons, List.take_left]
          exact ⟨rfl, rfl⟩
        cases he : escape t with
        | unit u n =>
          rw [he] at hgroup
          obtain ⟨e, rest, ht, rfl, hbehind, hvalue⟩ := hgroup
          obtain ⟨hlength, htake⟩ := hmatch e rest ht
          rw [hbehind]
          dsimp only
          rw [hlength, htake, hvalue, ih]
        | verbatim =>
          rw [he] at hgroup
          rw [hgroup]
          dsimp only
          rw [ih]
        | invalid units =>
          rw [he] at hgroup
          obtain ⟨rest, ht, hbehind, hvalue⟩ := hgroup
          obtain ⟨hlength, htake⟩ := hmatch units rest ht
          rw [hbehind]
          dsimp only
          rw [hlength, htake, hvalue]
      · rw [if_neg hc, behind?_escapePattern_of_ne hc, ih]

/-- The value of a body is what replacing its escapes gives. -/
theorem unescape_eq_replaceAll (body : Text) :
    unescape body = replaceAll escapePattern escapeValue body :=
  unescapeFrom_eq_replaceFrom body 0

end TreeMatcher
