import TreeMatcher.Pattern.Error

/-!
# Quoted literals and their values

A literal stands between one quote mark on each side or, from six units on, between three. A
backslash begins an escape: a quote mark, a backslash, one of the letters `abfnrtv`, an `x` with two
hexadecimal digits, or one to three octal digits. A backslash before anything else stands for
itself.

* `Literal.unquote t` — the value of a literal, or why it has none.
* `Literal.quote t` — a literal between single quote marks with the given value.

## Main results

* `quoteUnit_of_plain` — units without a meaning of their own are quoted as they are.
-/

namespace TreeMatcher.Literal

/-! ## Escapes -/

/-- What stands behind a backslash. -/
inductive Escape where
  /-- An escape of `length` units that stands for one unit. -/
  | unit (value : CodeUnit) (length : Nat)
  /-- No escape: the backslash stands for itself. -/
  | verbatim
  /-- A hexadecimal escape without its two digits; its units. -/
  | invalid (units : Text)
deriving DecidableEq, Repr

/-- The escapes of one unit. -/
def simpleEscape? (c : CodeUnit) : Option CodeUnit :=
  if c.isQuote || c == CodeUnit.backslash then some c
  else if c = 0x61 then some 0x07
  else if c = 0x62 then some 0x08
  else if c = 0x66 then some 0x0C
  else if c = 0x6E then some 0x0A
  else if c = 0x72 then some 0x0D
  else if c = 0x74 then some 0x09
  else if c = 0x76 then some 0x0B
  else none

/-- The unit named by two hexadecimal digits at the beginning of a text. -/
def hexPair? : Text → Option CodeUnit
  | a :: b :: _ =>
    match a.hexDigitValue?, b.hexDigitValue? with
    | some a, some b => some (16 * a + b).toUInt16
    | _, _ => none
  | _ => none

/-- The unit named by octal digits. -/
def octalUnit (digits : Text) : CodeUnit :=
  (digits.foldl (fun n c => 8 * n + Text.digitValue c) 0).toUInt16

/-- What stands behind a backslash, given the text behind it. -/
def escape : Text → Escape
  | [] => .verbatim
  | c :: rest =>
    match simpleEscape? c with
    | some u => .unit u 1
    | none =>
      if c = 0x78 then
        match hexPair? rest with
        | some u => .unit u 3
        | none => .invalid (c :: (rest.take 2).takeWhile (!·.isLineTerminator))
      else
        match Text.run CodeUnit.isOctalDigit ((c :: rest).take 3) with
        | 0 => .verbatim
        | n + 1 => .unit (octalUnit ((c :: rest).take (n + 1))) (n + 1)

/-- The value of a body behind its first `skip` units. -/
def unescapeFrom : Text → Nat → Except PatternError.Cause Text
  | [], _ => .ok []
  | _ :: rest, skip + 1 => unescapeFrom rest skip
  | c :: rest, 0 =>
    if c = CodeUnit.backslash then
      match escape rest with
      | .unit u n => (unescapeFrom rest n).map (u :: ·)
      | .verbatim => (unescapeFrom rest 0).map (c :: ·)
      | .invalid units => .error (.invalidHexEscape units)
    else (unescapeFrom rest 0).map (c :: ·)

/-- The value of a body, its escapes resolved from left to right. -/
def unescape (body : Text) : Except PatternError.Cause Text := unescapeFrom body 0

theorem unescapeFrom_skip (t : Text) (skip : Nat) :
    unescapeFrom t skip = unescapeFrom (t.drop skip) 0 := by
  induction t generalizing skip with
  | nil => cases skip <;> simp [unescapeFrom]
  | cons c rest ih =>
    cases skip with
    | zero => rfl
    | succ skip => rw [unescapeFrom, ih, List.drop_succ_cons]

/-! ## Quote marks -/

/-- How many quote marks stand on each side of a literal that begins with the mark `q`. -/
def markCount (q : CodeUnit) (t : Text) : Nat :=
  if 6 ≤ t.length ∧ t.take 3 = [q, q, q] then 3 else 1

/-- The body of a literal with `n` marks `q` on each side, if these are there. -/
def body? (q : CodeUnit) (n : Nat) (t : Text) : Option Text :=
  if 2 * n ≤ t.length ∧ t.drop (t.length - n) = List.replicate n q then
    some ((t.drop n).take (t.length - 2 * n))
  else none

/-- The value of a literal. -/
def unquote (t : Text) : Except PatternError.Cause Text :=
  match t with
  | [] => .error (.malformedLiteral t)
  | q :: _ =>
    if q.isQuote then
      match body? q (markCount q t) t with
      | some body => unescape body
      | none => .error (.malformedLiteral t)
    else .error (.malformedLiteral t)

/-! ## Quoting -/

/-- A unit inside a literal between single quote marks. -/
def quoteUnit (c : CodeUnit) : Text :=
  if c = 0x0A then "\\n"
  else if c = 0x0D then "\\r"
  else if c = 0x09 then "\\t"
  else if c = CodeUnit.singleQuote then "\\'"
  else if c = CodeUnit.backslash then "\\\\"
  else if c < 0x20 || c = 0x7F then
    [CodeUnit.backslash, 0x78, CodeUnit.ofHexDigit (c.toNat / 16),
      CodeUnit.ofHexDigit (c.toNat % 16)]
  else [c]

/-- The literal between single quote marks with a given value. -/
def quote (t : Text) : Text :=
  CodeUnit.singleQuote :: t.flatMap quoteUnit ++ [CodeUnit.singleQuote]

theorem quoteUnit_of_plain {c : CodeUnit} (h : 0x20 ≤ c) (hd : c ≠ 0x7F)
    (hq : c ≠ CodeUnit.singleQuote) (hb : c ≠ CodeUnit.backslash) : quoteUnit c = [c] := by
  have hne : ∀ d : CodeUnit, d < 0x20 → c ≠ d := by
    rintro d hlt rfl
    exact absurd h (UInt16.not_le.2 hlt)
  have hlt : ¬c < 0x20 := UInt16.not_lt.2 h
  simp [quoteUnit, hne 0x0A (by decide), hne 0x0D (by decide), hne 0x09 (by decide), hq, hb, hd,
    hlt]

end TreeMatcher.Literal
