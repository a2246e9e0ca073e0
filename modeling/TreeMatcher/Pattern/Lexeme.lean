import TreeMatcher.Pattern.Token

/-!
# Lexemes

What may stand at a place of a pattern text: blanks, a comment, a line break, or a token. The first
unit decides between them, and each takes as many units as its rule allows.

A quoted literal is delimited by one quote mark or by three. Between three quote marks anything may
stand, also line ends, up to the first three quote marks in a row; between single ones a line must
not end. A backslash takes the unit behind it along, so an escaped quote mark closes nothing. Three
quote marks that are never closed are read as the empty literal and a quote mark.

* `Lexeme.first? t` — the lexeme at the beginning of `t` and its length.
* `stringLength? t` — the length of the quoted literal at the beginning of `t`.

## Main results

* `first?_pos` — a lexeme is never empty.
* `first?_le_length` — a lexeme lies within the text.
-/

namespace TreeMatcher

/-- What may stand at a place of a pattern text. -/
inductive Lexeme where
  | blanks
  | comment
  | newline
  | token (kind : TokenKind)
deriving DecidableEq, Repr

/-! ## Quoted literals -/

/-- The length of the rest of a literal behind its three opening marks `q`, closing marks
included. -/
def tripleBodyLength? (q : CodeUnit) : Text → Option Nat
  | [] => none
  | [_] => none
  | c :: d :: rest =>
    if c = CodeUnit.backslash then (tripleBodyLength? q rest).map (· + 2)
    else if c = q ∧ d = q ∧ rest.head? = some q then some 3
    else (tripleBodyLength? q (d :: rest)).map (· + 1)

/-- The length of the rest of a literal behind its opening mark `q`, closing mark included. -/
def singleBodyLength? (q : CodeUnit) : Text → Option Nat
  | [] => none
  | [c] => if c = q then some 1 else none
  | c :: d :: rest =>
    if c = q then some 1
    else if c = CodeUnit.backslash then
      if d.isLineTerminator then none else (singleBodyLength? q rest).map (· + 2)
    else if c.isLineEnd then none
    else (singleBodyLength? q (d :: rest)).map (· + 1)

/-- The length of a literal in three marks `q`, behind the first of them. -/
def tripleLength? (q : CodeUnit) (rest : Text) : Option Nat :=
  if rest.take 2 = [q, q] then (tripleBodyLength? q (rest.drop 2)).map (· + 3) else none

/-- The length of the quoted literal at the beginning of a text. -/
def stringLength? : Text → Option Nat
  | [] => none
  | q :: rest =>
    if q.isQuote then
      match tripleLength? q rest with
      | some n => some n
      | none => (singleBodyLength? q rest).map (· + 1)
    else none

/-! ## Choosing a lexeme -/

namespace Lexeme

/-- The lexeme at the beginning of a text and its length. -/
def first? : Text → Option (Lexeme × Nat)
  | [] => none
  | c :: rest =>
    if c.isBlank then some (blanks, Text.run CodeUnit.isBlank rest + 1)
    else if c = CodeUnit.hash then some (comment, Text.run (!·.isLineEnd) rest + 1)
    else if c = CodeUnit.lineFeed then some (newline, 1)
    else if c = CodeUnit.carriageReturn then
      if rest.head? = some CodeUnit.lineFeed then some (newline, 2) else none
    else if c.isQuote then (stringLength? (c :: rest)).map fun n => (token .string, n)
    else if c.isDigit then some (token .number, Text.run CodeUnit.isDigit rest + 1)
    else if c.isNameStart then some (token .name, Text.run CodeUnit.isNamePart rest + 1)
    else (TokenKind.ofPunctuation? c).map fun k => (token k, 1)

end Lexeme

/-! ## Lengths -/

theorem tripleBodyLength?_bounds {q : CodeUnit} {t : Text} {n : Nat}
    (h : tripleBodyLength? q t = some n) : 3 ≤ n ∧ n ≤ t.length := by
  fun_induction tripleBodyLength? q t generalizing n with
  | case1 => simp at h
  | case2 => simp at h
  | case3 d rest ih =>
    obtain ⟨m, hm, rfl⟩ := Option.map_eq_some_iff.1 h
    have := ih hm
    simp only [List.length_cons]
    omega
  | case4 c d rest _ hq =>
    obtain ⟨rest', rfl⟩ := List.head?_eq_some_iff.1 hq.2.2
    cases h
    simp
  | case5 c d rest _ _ ih =>
    obtain ⟨m, hm, rfl⟩ := Option.map_eq_some_iff.1 h
    have := ih hm
    simp only [List.length_cons] at this ⊢
    omega

theorem singleBodyLength?_bounds {q : CodeUnit} {t : Text} {n : Nat}
    (h : singleBodyLength? q t = some n) : 1 ≤ n ∧ n ≤ t.length := by
  fun_induction singleBodyLength? q t generalizing n with
  | case1 => simp at h
  | case2 => cases h; simp
  | case3 => simp at h
  | case4 => cases h; simp
  | case5 => simp at h
  | case6 d rest _ _ ih =>
    obtain ⟨m, hm, rfl⟩ := Option.map_eq_some_iff.1 h
    have := ih hm
    simp only [List.length_cons]
    omega
  | case7 => simp at h
  | case8 c d rest _ _ _ ih =>
    obtain ⟨m, hm, rfl⟩ := Option.map_eq_some_iff.1 h
    have := ih hm
    simp only [List.length_cons] at this ⊢
    omega

theorem tripleLength?_bounds {q : CodeUnit} {rest : Text} {n : Nat}
    (h : tripleLength? q rest = some n) : 6 ≤ n ∧ n ≤ rest.length + 1 := by
  unfold tripleLength? at h
  split at h
  · next hq =>
    rw [Option.map_eq_some_iff] at h
    obtain ⟨m, hm, rfl⟩ := h
    have := tripleBodyLength?_bounds hm
    have hlen := congrArg List.length hq
    simp only [List.length_take, List.length_cons, List.length_nil, List.length_drop] at hlen this
    omega
  · simp at h

theorem stringLength?_bounds {t : Text} {n : Nat} (h : stringLength? t = some n) :
    2 ≤ n ∧ n ≤ t.length := by
  cases t with
  | nil => simp [stringLength?] at h
  | cons q rest =>
    simp only [stringLength?] at h
    split at h
    · split at h
      · next m hm =>
        have := tripleLength?_bounds hm
        simp only [Option.some.injEq, List.length_cons] at h ⊢
        omega
      · rw [Option.map_eq_some_iff] at h
        obtain ⟨m, hm, rfl⟩ := h
        have := singleBodyLength?_bounds hm
        simp only [List.length_cons]
        omega
    · simp at h

namespace Lexeme

theorem first?_bounds {t : Text} {l : Lexeme} {n : Nat} (h : first? t = some (l, n)) :
    1 ≤ n ∧ n ≤ t.length := by
  cases t with
  | nil => simp [first?] at h
  | cons c rest =>
    have hrun : ∀ p : CodeUnit → Bool, Text.run p rest ≤ rest.length :=
      fun p => Text.run_le_length p rest
    simp only [first?] at h
    simp only [List.length_cons]
    split at h
    · cases h; exact ⟨by omega, Nat.succ_le_succ (hrun _)⟩
    split at h
    · cases h; exact ⟨by omega, Nat.succ_le_succ (hrun _)⟩
    split at h
    · cases h; omega
    split at h
    · split at h
      · next hl =>
        cases h
        cases rest with
        | nil => simp at hl
        | cons d rest => simp only [List.length_cons]; omega
      · simp at h
    split at h
    · rw [Option.map_eq_some_iff] at h
      obtain ⟨m, hm, he⟩ := h
      have := stringLength?_bounds hm
      cases he
      simp only [List.length_cons] at this
      omega
    split at h
    · cases h; exact ⟨by omega, Nat.succ_le_succ (hrun _)⟩
    split at h
    · cases h; exact ⟨by omega, Nat.succ_le_succ (hrun _)⟩
    · rw [Option.map_eq_some_iff] at h
      obtain ⟨k, _, he⟩ := h
      cases he
      omega

theorem first?_pos {t : Text} {l : Lexeme} {n : Nat} (h : first? t = some (l, n)) : 1 ≤ n :=
  (first?_bounds h).1

theorem first?_le_length {t : Text} {l : Lexeme} {n : Nat} (h : first? t = some (l, n)) :
    n ≤ t.length :=
  (first?_bounds h).2

end Lexeme

end TreeMatcher
