import TreeMatcher.Pattern.Lexeme
import TreeMatcher.Proofs.Pattern.Quoting

/-!
# Literals as they are lexed

A literal that is lexed has its marks on both sides, so it has a body, and its value is missing for
one reason only: a hexadecimal escape without two digits. Which backslashes of a body begin an
escape is said here without regard to the values of escapes: reading from the left, a backslash
takes the unit behind it along.

* `Literal.escapes` — the texts behind the backslashes that begin an escape.
* `Literal.badHex?` — a hexadecimal escape without two digits.
* `Literal.body` — what stands between the marks of a literal.

## Main results

* `unescape_cases` — a body has a value, or its first bad escape is the reason that it has none.
* `unquote_of_stringLength?` — a literal that is lexed has the value of its body.
-/

namespace TreeMatcher

/-! ## How literals end -/

/-- A literal in three marks ends with three marks. -/
theorem exists_take_tripleBody {q : CodeUnit} {t : Text} {n : Nat}
    (h : tripleBodyLength? q t = some n) : ∃ body, t.take n = body ++ [q, q, q] := by
  fun_induction tripleBodyLength? q t generalizing n with
  | case1 => cases h
  | case2 => cases h
  | case3 d rest ih =>
    obtain ⟨m, hm, rfl⟩ := Option.map_eq_some_iff.1 h
    obtain ⟨body, hbody⟩ := ih hm
    exact ⟨CodeUnit.backslash :: d :: body, by simp [hbody]⟩
  | case4 c d rest _ hq =>
    obtain ⟨rfl, rfl, hq⟩ := hq
    obtain ⟨rest, rfl⟩ := List.head?_eq_some_iff.1 hq
    cases h
    exact ⟨[], rfl⟩
  | case5 c d rest _ _ ih =>
    obtain ⟨m, hm, rfl⟩ := Option.map_eq_some_iff.1 h
    obtain ⟨body, hbody⟩ := ih hm
    exact ⟨c :: body, by simp [hbody]⟩

/-- A literal in single marks ends with a mark. -/
theorem exists_take_singleBody {q : CodeUnit} {t : Text} {n : Nat}
    (h : singleBodyLength? q t = some n) : ∃ body, t.take n = body ++ [q] := by
  fun_induction singleBodyLength? q t generalizing n with
  | case1 => cases h
  | case2 => cases h; exact ⟨[], rfl⟩
  | case3 => cases h
  | case4 => cases h; exact ⟨[], rfl⟩
  | case5 => cases h
  | case6 d rest _ _ ih =>
    obtain ⟨m, hm, rfl⟩ := Option.map_eq_some_iff.1 h
    obtain ⟨body, hbody⟩ := ih hm
    exact ⟨CodeUnit.backslash :: d :: body, by simp [hbody]⟩
  | case7 => cases h
  | case8 c d rest _ _ _ ih =>
    obtain ⟨m, hm, rfl⟩ := Option.map_eq_some_iff.1 h
    obtain ⟨body, hbody⟩ := ih hm
    exact ⟨c :: body, by simp [hbody]⟩

namespace Literal

/-! ## Escapes of a body -/

/-- The texts behind the backslashes of a body that begin an escape, in order. -/
def escapes : Text → List Text
  | [] => []
  | [_] => []
  | c :: d :: rest =>
    if c = CodeUnit.backslash then (d :: rest) :: escapes rest else escapes (d :: rest)

/-- The units of a hexadecimal escape without two digits at the beginning of a text; those that
stand in the place of the digits are among them, up to a line terminator. -/
def badHex? : Text → Option Text
  | [] => none
  | c :: rest =>
    if c = 0x78 ∧ hexPair? rest = none then
      some (c :: (rest.take 2).takeWhile (!·.isLineTerminator))
    else none

private theorem escapes_cons {c : CodeUnit} (hc : c ≠ CodeUnit.backslash) (t : Text) :
    escapes (c :: t) = escapes t := by
  cases t with
  | nil => rfl
  | cons d t => rw [escapes, if_neg hc]

/-- Units in front that are no backslashes begin no escape. -/
private theorem escapes_drop {t : Text} {n : Nat} (h : ∀ c ∈ t.take n, c ≠ CodeUnit.backslash) :
    escapes (t.drop n) = escapes t := by
  induction n generalizing t with
  | zero => rfl
  | succ n ih =>
    cases t with
    | nil => rfl
    | cons c t =>
      rw [List.take_succ_cons, List.forall_mem_cons] at h
      rw [List.drop_succ_cons, ih h.2, escapes_cons h.1]

private theorem hexDigit_ne_backslash {c : CodeUnit} {n : Nat} (h : c.hexDigitValue? = some n) :
    c ≠ CodeUnit.backslash := by
  rintro rfl
  rw [show CodeUnit.hexDigitValue? CodeUnit.backslash = none from by decide] at h
  cases h

/-- The digits of a hexadecimal pair are no backslashes. -/
private theorem take_two_of_hexPair? {t : Text} {u : CodeUnit} (h : hexPair? t = some u) :
    ∀ c ∈ t.take 2, c ≠ CodeUnit.backslash := by
  unfold hexPair? at h
  split at h
  · split at h
    · next ha hb => simpa using ⟨hexDigit_ne_backslash ha, hexDigit_ne_backslash hb⟩
    · cases h
  · cases h

/-- The digits of an octal escape are no backslashes. -/
private theorem take_run_octal {t : Text} {n : Nat}
    (h : Text.run CodeUnit.isOctalDigit (t.take 3) = n) :
    ∀ c ∈ t.take n, c ≠ CodeUnit.backslash := by
  have hle : n ≤ 3 := by
    have := Text.run_le_length CodeUnit.isOctalDigit (t.take 3)
    rw [List.length_take] at this
    omega
  have hdigits : ∀ c ∈ t.take n, c.isOctalDigit := by
    have htake : t.take n = (t.take 3).takeWhile CodeUnit.isOctalDigit := by
      rw [List.prefix_iff_eq_take.1 (List.takeWhile_prefix (l := t.take 3) CodeUnit.isOctalDigit),
        List.take_take, ← Text.run, h, Nat.min_eq_left hle]
    rw [htake]
    exact List.all_eq_true.1 List.all_takeWhile
  rintro c hc rfl
  exact absurd (hdigits _ hc) (by decide)

/-- What stands behind a backslash decides how reading goes on. -/
theorem unescapeFrom_backslash (t : Text) :
    unescapeFrom (CodeUnit.backslash :: t) 0 =
      match escape t with
      | .unit u n => (unescapeFrom (t.drop n) 0).map (u :: ·)
      | .verbatim => (unescapeFrom t 0).map (CodeUnit.backslash :: ·)
      | .invalid units => .error (.invalidHexEscape units) := by
  rw [unescapeFrom, if_pos rfl]
  cases escape t with
  | unit u n =>
    dsimp only
    rw [unescapeFrom_skip]
  | _ => rfl

/-- What is read behind a backslash: an escape of some units in which no other one begins, or a bad
one. -/
private theorem escape_cases (d : CodeUnit) (t : Text) :
    (∃ units, badHex? (d :: t) = some units ∧ escape (d :: t) = .invalid units) ∨
      badHex? (d :: t) = none ∧
        ((∃ u n, escape (d :: t) = .unit u (n + 1) ∧ ∀ c ∈ t.take n, c ≠ CodeUnit.backslash) ∨
          escape (d :: t) = .verbatim ∧ d ≠ CodeUnit.backslash) := by
  rw [badHex?, escape]
  cases hs : simpleEscape? d with
  | some u =>
    have hd : ¬(d = 0x78 ∧ hexPair? t = none) := by
      rintro ⟨rfl, -⟩
      rw [show simpleEscape? 0x78 = none from by decide] at hs
      cases hs
    exact .inr ⟨if_neg hd, .inl ⟨u, 0, rfl, by simp⟩⟩
  | none =>
    dsimp only
    by_cases hx : d = 0x78
    · cases hp : hexPair? t with
      | some u =>
        refine .inr ⟨if_neg (by simp), .inl ⟨u, 2, if_pos hx, take_two_of_hexPair? hp⟩⟩
      | none => exact .inl ⟨_, if_pos ⟨hx, rfl⟩, if_pos hx⟩
    · rw [if_neg fun h => hx h.1, if_neg hx]
      refine .inr ⟨rfl, ?_⟩
      cases hr : Text.run CodeUnit.isOctalDigit ((d :: t).take 3) with
      | zero =>
        refine .inr ⟨rfl, ?_⟩
        rintro rfl
        exact absurd hs (by decide)
      | succ n =>
        have hdigits := take_run_octal hr
        rw [List.take_succ_cons, List.forall_mem_cons] at hdigits
        exact .inl ⟨_, n, rfl, hdigits.2⟩

/-- A body has a value, or the first of its bad escapes is why it has none. -/
theorem unescape_cases (body : Text) :
    match (escapes body).findSome? badHex? with
    | some units => unescape body = .error (.invalidHexEscape units)
    | none => ∃ v, unescape body = .ok v := by
  unfold unescape
  generalize hn : body.length = n
  induction n using Nat.strongRecOn generalizing body with
  | ind n ih =>
    -- one step of reading, when no bad escape is passed
    have step {t : Text} (hlt : t.length < n) (front : Text → Text)
        (ho : unescapeFrom body 0 = (unescapeFrom t 0).map front)
        (hs : (escapes body).findSome? badHex? = (escapes t).findSome? badHex?) :
        match (escapes body).findSome? badHex? with
        | some units => unescapeFrom body 0 = .error (.invalidHexEscape units)
        | none => ∃ v, unescapeFrom body 0 = .ok v := by
      have hrest := ih _ hlt t rfl
      rw [hs, ho]
      split at hrest
      · rw [hrest]
        rfl
      · obtain ⟨v, hv⟩ := hrest
        exact ⟨front v, by rw [hv]; rfl⟩
    rcases body with _ | ⟨c, t⟩
    · exact ⟨[], rfl⟩
    by_cases hc : c = CodeUnit.backslash
    · subst hc
      rcases t with _ | ⟨d, t⟩
      · exact ⟨[CodeUnit.backslash], rfl⟩
      have hescapes : escapes (CodeUnit.backslash :: d :: t) = (d :: t) :: escapes t := by
        rw [escapes, if_pos rfl]
      have hread := unescapeFrom_backslash (d :: t)
      simp only [List.length_cons] at hn
      rcases escape_cases d t with ⟨units, hbad, he⟩ | ⟨hgood, ⟨u, k, he, hk⟩ | ⟨he, hd⟩⟩
      · rw [hescapes, List.findSome?_cons, hbad, hread, he]
      · rw [he] at hread
        refine step (t := t.drop k) (by rw [List.length_drop]; omega) (u :: ·) hread ?_
        rw [hescapes, List.findSome?_cons, hgood, escapes_drop hk]
      · rw [he] at hread
        -- the backslash stands for itself, and so does the unit behind it
        have hread : unescapeFrom (CodeUnit.backslash :: d :: t) 0 =
            (unescapeFrom t 0).map fun v => CodeUnit.backslash :: d :: v := by
          rw [hread, unescapeFrom_plain t hd]
          cases unescapeFrom t 0 <;> rfl
        refine step (t := t) (by omega) _ hread ?_
        rw [hescapes, List.findSome?_cons, hgood]
    · exact step (t := t) (by simp at hn; omega) (c :: ·) (unescapeFrom_plain t hc)
        (by rw [escapes_cons hc])

/-! ## Literals that are lexed -/

/-- What stands between the marks of a literal. -/
def body (t : Text) : Text :=
  let n := markCount (t.headD 0) t
  (t.drop n).take (t.length - 2 * n)

/-- A literal with as many marks on both sides as it should have has a body. -/
theorem unquote_of_marks {q : CodeUnit} {n : Nat} {inner t : Text} (hq : q.isQuote)
    (ht : t = List.replicate n q ++ inner ++ List.replicate n q) (hn : n ≠ 0)
    (hcount : markCount q t = n) : body t = inner ∧ unquote t = unescape inner := by
  obtain ⟨m, rfl⟩ := Nat.exists_eq_succ_of_ne_zero hn
  have hhead : t = q :: (List.replicate m q ++ inner ++ List.replicate (m + 1) q) := by
    rw [ht, List.replicate_succ, List.cons_append, List.cons_append]
  have hlen : t.length = inner.length + 2 * (m + 1) := by
    rw [ht, List.length_append, List.length_append, List.length_replicate]
    omega
  have hinner : (t.drop (m + 1)).take (t.length - 2 * (m + 1)) = inner := by
    rw [hlen, Nat.add_sub_cancel, ht, List.append_assoc, List.drop_left' List.length_replicate,
      List.take_left' rfl]
  have hbody : body? q (m + 1) t = some inner := by
    rw [body?, if_pos, hinner]
    refine ⟨by omega, ?_⟩
    rw [ht, List.drop_left']
    rw [← ht, hlen, List.length_append, List.length_replicate]
    omega
  constructor
  · rw [body, show t.headD 0 = q by rw [hhead]; rfl, hcount]
    exact hinner
  · rw [hhead, unquote, ← hhead, if_pos hq, hcount, hbody]

/-- Two marks in front are the empty literal, which is too short for three. -/
theorem markCount_of_singleBodyLength? {q : CodeUnit} {rest : Text} {k : Nat}
    (h : singleBodyLength? q rest = some k) : markCount q ((q :: rest).take (k + 1)) = 1 := by
  rw [markCount, if_neg]
  rintro ⟨hlen, hmarks⟩
  rw [List.length_take] at hlen
  rw [List.take_take] at hmarks
  rcases rest with _ | ⟨d, rest⟩
  · cases h
  have hd : d = q := by
    have := congrArg (·[1]?) hmarks
    simpa [List.getElem?_take_of_lt (show 1 < min 3 (k + 1) by omega)] using this
  subst hd
  have hone : singleBodyLength? d (d :: rest) = some 1 := by
    cases rest <;> rw [singleBodyLength?, if_pos rfl]
  obtain rfl : 1 = k := Option.some.inj (hone.symm.trans h)
  omega

/-- A literal that is lexed has the value of its body. -/
theorem unquote_of_stringLength? {t : Text} {n : Nat} (h : stringLength? t = some n) :
    unquote (t.take n) = unescape (body (t.take n)) := by
  rcases t with _ | ⟨q, rest⟩
  · cases h
  rw [stringLength?] at h
  split at h
  · next hq =>
    split at h
    · next m hm =>
      cases h
      unfold tripleLength? at hm
      split at hm
      · next hmarks =>
        obtain ⟨k, hk, rfl⟩ := Option.map_eq_some_iff.1 hm
        obtain ⟨inner, hinner⟩ := exists_take_tripleBody hk
        have ht : (q :: rest).take (k + 3) =
            List.replicate 3 q ++ inner ++ List.replicate 3 q := by
          rw [List.take_succ_cons, Nat.add_comm k 2, List.take_add, hmarks, hinner]
          rfl
        have hcount : markCount q ((q :: rest).take (k + 3)) = 3 := by
          rw [ht, markCount, if_pos]
          exact ⟨by simp, rfl⟩
        obtain ⟨hbody, hvalue⟩ := unquote_of_marks hq ht (by decide) hcount
        rw [hvalue, hbody]
      · cases hm
    · next hnone =>
      obtain ⟨k, hk, rfl⟩ := Option.map_eq_some_iff.1 h
      obtain ⟨inner, hinner⟩ := exists_take_singleBody hk
      have ht : (q :: rest).take (k + 1) = List.replicate 1 q ++ inner ++ List.replicate 1 q := by
        rw [List.take_succ_cons, hinner]
        rfl
      obtain ⟨hbody, hvalue⟩ :=
        unquote_of_marks hq ht (by decide) (markCount_of_singleBodyLength? hk)
      rw [hvalue, hbody]
  · cases h

end Literal

end TreeMatcher
