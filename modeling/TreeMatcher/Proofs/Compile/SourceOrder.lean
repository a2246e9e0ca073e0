import Mathlib.Order.Bounds.Basic
import TreeMatcher.Proofs.Compile.Layout
import TreeMatcher.Proofs.Pattern.Escapes
import TreeMatcher.Proofs.Repeat.Descending
import TreeMatcher.Proofs.Spelling.Written

/-!
# Errors and warnings follow the source

Compiling goes through a pattern by its phrases: a name is looked up before its details are
compiled, a repeater is looked at after what it repeats, and sequences, groups and names are put
around matchers that are already there. Here a pattern is gone through token by token instead.
Whether a token is at fault depends on the token and on what it is there for, and so does the
warning that ends at it. The two orders are the same: for every phrase, the outcome of compiling
it is the outcome of inspecting its tokens one after the other, up to the value.

Two facts make this work. No step that puts phrases together reports anything or fails, because
what they are made of is shaped; and inspecting a concatenation is inspecting one part and then the
other.

* `Use` — what a token is there for; `Choice.uses` and its companions — the uses of all tokens.
* `Grammar.fault?` — the fault of a token; `Grammar.warning?` — the warning that ends at a token.
* `Grammar.inspect` — the tokens one after the other, up to the first fault.

## Main results

* `Choice.void_each` and its companions — compiling a phrase is inspecting its tokens.
* `inspect_cases` — inspecting stops at the first fault, with the warnings in front of it.
* `compile_in_source_order` — the error and the warnings of a text that is parsed.
-/

namespace TreeMatcher

open Outcome Grammar Matcher Element

/-! ## What tokens are there for -/

/-- What a token of a phrase is there for. -/
inductive Use where
  /-- A bracket, a mark, a capture name: no fault and no warning is about it. -/
  | plain
  /-- A literal. -/
  | literal
  /-- A name that is not a capture name, with or without details. -/
  | name (detailed : Bool)
  /-- A number of a repeater. -/
  | bound
  /-- The closing brace of a repeater with two numbers. -/
  | closing (min max : Word)
deriving DecidableEq

/-- The tokens of an optional capture name with their uses. -/
def captureUses : Option Capture → List (Token × Use)
  | none => []
  | some c => [(c.name.token .name, .plain), (c.equal.token .equal, .plain)]

/-- The tokens of a repeater with their uses. -/
def Repeater.uses : Repeater → List (Token × Use)
  | star w => [(w.token .star, .plain)]
  | plus w => [(w.token .plus, .plain)]
  | exactly l n r =>
    [(l.token .lbrace, .plain), (n.token .number, .bound), (r.token .rbrace, .plain)]
  | between l n c m r =>
    [(l.token .lbrace, .plain), (n.token .number, .bound), (c.token .comma, .plain),
      (m.token .number, .bound), (r.token .rbrace, .closing n m)]

mutual

/-- The tokens of a choice with their uses. -/
def Choice.uses : Choice → List (Token × Use)
  | .single s => s.uses
  | .either s bar c => s.uses ++ (bar.token .vbar, .plain) :: c.uses

/-- The tokens of a sequence with their uses. -/
def Sequence.uses : Sequence → List (Token × Use)
  | .single i => i.uses
  | .followed i s => i.uses ++ s.uses

/-- The tokens of a unit with their uses. -/
def Item.uses : Item → List (Token × Use)
  | .negated bang o => (bang.token .bang, .plain) :: o.uses
  | .plain capture? o => captureUses capture? ++ o.uses
  | .repeated capture? b r => captureUses capture? ++ (b.uses ++ r.uses)

/-- The tokens of an operand with their uses. -/
def Operand.uses : Operand → List (Token × Use)
  | .optional l c r => (l.token .lsqb, .plain) :: (c.uses ++ [(r.token .rsqb, .plain)])
  | .basic b => b.uses

/-- The tokens of a basic pattern with their uses. -/
def Basic.uses : Basic → List (Token × Use)
  | .literal w => [(w.token .string, .literal)]
  | .name w => [(w.token .name, .name false)]
  | .detailed w l c r =>
    (w.token .name, .name true) :: (l.token .less, .plain) ::
      (c.uses ++ [(r.token .greater, .plain)])
  | .group l c r => (l.token .lpar, .plain) :: (c.uses ++ [(r.token .rpar, .plain)])

end

private theorem map_fst_captureUses (capture? : Option Capture) :
    (captureUses capture?).map Prod.fst = captureTokens capture? := by
  cases capture? <;> rfl

private theorem Repeater.map_fst_uses (r : Repeater) : r.uses.map Prod.fst = r.tokens := by
  cases r <;> rfl

mutual

private theorem Choice.map_fst_uses : (c : Choice) → c.uses.map Prod.fst = c.tokens
  | .single s => by rw [Choice.uses, Choice.tokens, Sequence.map_fst_uses s]
  | .either s bar c => by
    rw [Choice.uses, Choice.tokens, List.map_append, List.map_cons, Sequence.map_fst_uses s,
      Choice.map_fst_uses c]

private theorem Sequence.map_fst_uses : (s : Sequence) → s.uses.map Prod.fst = s.tokens
  | .single i => by rw [Sequence.uses, Sequence.tokens, Item.map_fst_uses i]
  | .followed i s => by
    rw [Sequence.uses, Sequence.tokens, List.map_append, Item.map_fst_uses i,
      Sequence.map_fst_uses s]

private theorem Item.map_fst_uses : (i : Item) → i.uses.map Prod.fst = i.tokens
  | .negated bang o => by rw [Item.uses, Item.tokens, List.map_cons, Operand.map_fst_uses o]
  | .plain capture? o => by
    rw [Item.uses, Item.tokens, List.map_append, map_fst_captureUses, Operand.map_fst_uses o]
  | .repeated capture? b r => by
    rw [Item.uses, Item.tokens, List.map_append, List.map_append, map_fst_captureUses,
      Basic.map_fst_uses b, r.map_fst_uses]

private theorem Operand.map_fst_uses : (o : Operand) → o.uses.map Prod.fst = o.tokens
  | .optional l c r => by
    rw [Operand.uses, Operand.tokens, List.map_cons, List.map_append, Choice.map_fst_uses c]
    rfl
  | .basic b => by rw [Operand.uses, Operand.tokens, Basic.map_fst_uses b]

private theorem Basic.map_fst_uses : (b : Basic) → b.uses.map Prod.fst = b.tokens
  | .literal w => by
    rw [Basic.uses, Basic.tokens]
    rfl
  | .name w => by
    rw [Basic.uses, Basic.tokens]
    rfl
  | .detailed w l c r => by
    rw [Basic.uses, Basic.tokens, List.map_cons, List.map_cons, List.map_append,
      Choice.map_fst_uses c]
    rfl
  | .group l c r => by
    rw [Basic.uses, Basic.tokens, List.map_cons, List.map_append, Choice.map_fst_uses c]
    rfl

end

/-! ## Faults and warnings of single tokens -/

/-- The upper-case names that stand for token kinds. -/
def tokenWords : List Text := ["NAME", "STRING", "NUMBER", "TOKEN"]

section

variable (g : Grammar)

/-- The fault of a token that is there for a given use, if it has one. -/
def Grammar.fault? (t : Token) : Use → Option PatternError
  | .plain => none
  | .literal =>
    ((Literal.escapes (Literal.body t.text)).findSome? Literal.badHex?).map fun units =>
      .nowhere (.invalidHexEscape units)
  | .name detailed =>
    if t.text.isUpperCase then
      if tokenWords.contains t.text then
        if detailed then some (.located (.detailsOfToken t.text) t.start) else none
      else some (.located (.unknownToken t.text) t.start)
    else if t.text = anySymbol ∨ t.text.head? = some CodeUnit.underscore then none
    else if g.symbolKind? t.text = none then some (.located (.unknownSymbol t.text) t.start)
    else none
  | .bound =>
    if t.text.decimalValue ≤ boundLimit then none
    else some (.located (.boundTooLarge t.text) t.start)
  | .closing .. => none

/-- The warning that ends at a token that is there for a given use, if there is one. -/
def Grammar.warning? (t : Token) : Use → Option Event
  | .literal =>
    match Literal.unquote t.text with
    | .ok v =>
      if v.startsWithLetter ∨ (g.operatorKind? v).isSome then none else some (.unknownOperator v)
    | .error _ => none
  | .closing min max =>
    if max.text.decimalValue < min.text.decimalValue then
      some (.neverMatches (.int min.text.decimalValue) (.int max.text.decimalValue))
    else none
  | _ => none

/-- Whether a token is at fault. -/
def Grammar.Offends (p : Token × Use) : Prop := (g.fault? p.1 p.2).isSome

/-- The warnings that end at some tokens, in order. -/
def Grammar.warnings (ps : List (Token × Use)) : List Event :=
  ps.filterMap fun p => g.warning? p.1 p.2

/-- A token at fault is refused; any other one may be warned of. -/
def Grammar.inspectToken (p : Token × Use) : Outcome Unit :=
  match g.fault? p.1 p.2 with
  | some e => .refuse e
  | none => ⟨(g.warning? p.1 p.2).toList, .ok ()⟩

/-- The tokens one after the other, up to the first fault. -/
def Grammar.inspect : List (Token × Use) → Outcome Unit
  | [] => .value ()
  | p :: ps => (g.inspectToken p).andThen fun _ => Grammar.inspect ps

end

variable {g : Grammar}

namespace Outcome

variable {α β γ : Type}

/-- An outcome without its value. -/
def void (o : Outcome α) : Outcome Unit := o.andThen fun _ => value ()

/-- A step that does on all values what `k` does, up to the value. -/
private theorem void_andThen {o : Outcome α} {f : α → Outcome β} {k : Outcome Unit}
    (h : ∀ a, o.result = .ok a → (f a).void = k) :
    (o.andThen f).void = o.void.andThen fun _ => k := by
  rcases o with ⟨es, e | a⟩
  · rfl
  · have ha := h a rfl
    subst ha
    cases hf : (f a).result <;> simp [void, andThen, hf, value]

/-- A step that gives a value and reports nothing. -/
private theorem void_andThen_value {o : Outcome α} {f : α → Outcome β}
    (h : ∀ a, o.result = .ok a → ∃ b, f a = value b) : (o.andThen f).void = o.void := by
  rcases o with ⟨es, e | a⟩
  · rfl
  · obtain ⟨b, hb⟩ := h a rfl
    simp [void, andThen, hb, value]

/-- An outcome that is known up to its value. -/
private theorem exists_of_void_eq_ok {o : Outcome α} {es : List Event} (h : o.void = ⟨es, .ok ()⟩) :
    ∃ a, o.result = .ok a ∧ o.events = es := by
  rcases o with ⟨es', e | a⟩
  · cases h
  · exact ⟨a, rfl, by simpa [void, andThen, value] using congrArg Outcome.events h⟩

private theorem eq_of_void_eq_error {o : Outcome α} {es : List Event} {e : CompileError}
    (h : o.void = ⟨es, .error e⟩) : o.result = .error e ∧ o.events = es := by
  rcases o with ⟨es', e' | a⟩ <;> cases h
  exact ⟨rfl, rfl⟩

/-- The property of the value of a safe outcome. -/
private theorem Safe.of_result {P : α → Prop} {o : Outcome α} (h : o.Safe P) {a : α}
    (ha : o.result = .ok a) : P a := by
  unfold Safe at h
  rw [ha] at h
  exact h

end Outcome

/-! ## Inspecting -/

private theorem inspect_append (ps qs : List (Token × Use)) :
    g.inspect (ps ++ qs) = (g.inspect ps).andThen fun _ => g.inspect qs := by
  induction ps with
  | nil => rfl
  | cons p ps ih =>
    rw [List.cons_append, inspect, inspect, ih, andThen_assoc]

private theorem inspectToken_plain (t : Token) : g.inspectToken (t, .plain) = .value () := rfl

private theorem inspect_plain (t : Token) (ps : List (Token × Use)) :
    g.inspect ((t, .plain) :: ps) = g.inspect ps := by
  rw [inspect, inspectToken_plain, value_andThen]

private theorem inspect_single (p : Token × Use) : g.inspect [p] = g.inspectToken p := by
  rw [inspect, inspect]
  rcases g.inspectToken p with ⟨es, e | ⟨⟩⟩ <;> simp [Outcome.andThen, Outcome.value]

private theorem inspect_captureUses (capture? : Option Capture) (ps : List (Token × Use)) :
    g.inspect (captureUses capture? ++ ps) = g.inspect ps := by
  cases capture? with
  | none => rfl
  | some c =>
    rw [captureUses, List.cons_append, inspect_plain, List.cons_append, inspect_plain]
    rfl

/-- Tokens between brackets. -/
private theorem inspect_enclosed (l r : Token) (ps : List (Token × Use)) :
    g.inspect ((l, .plain) :: (ps ++ [(r, .plain)])) = g.inspect ps := by
  rw [inspect_plain, inspect_append, inspect_plain]
  rcases g.inspect ps with ⟨es, e | ⟨⟩⟩ <;> simp [Outcome.andThen, inspect, Outcome.value]

/-! ## Compiling basic patterns -/

/-- The text of a token fits its kind, and the value of a literal is that of its body. -/
structure Token.Read (t : Token) : Prop where
  fits : t.Fits
  value : t.kind = .string → Literal.unquote t.text = Literal.unescape (Literal.body t.text)

private theorem read_of_mem_tokens {s : Text} {t : Token} (h : t ∈ tokens s) : t.Read := by
  refine ⟨fits_of_mem_tokens h, fun hk => ?_⟩
  obtain ⟨rest, n, hfirst, htext⟩ := exists_first?_of_mem_tokens h
  rw [hk] at hfirst
  obtain ⟨c, rest', hrest, ⟨-, hs⟩ | ⟨hkind, -⟩ | ⟨hkind, -⟩ | ⟨hp, -⟩⟩ :=
    Lexeme.first?_token hfirst
  · rw [htext]
    exact Literal.unquote_of_stringLength? hs
  · cases hkind
  · cases hkind
  · cases TokenKind.mark?_of_ofPunctuation? hp

private theorem void_literalMatcher {w : Word} (h : (w.token .string).Read) :
    (g.literalMatcher (w.toLeaf .string)).void = g.inspectToken (w.token .string, .literal) := by
  have hvalue : Literal.unquote w.text = Literal.unescape (Literal.body w.text) := h.value rfl
  have hcases := Literal.unescape_cases (Literal.body w.text)
  rw [← hvalue] at hcases
  unfold inspectToken fault? warning? literalMatcher
  rw [show (w.toLeaf .string).value = w.text from rfl]
  dsimp only [Word.text_token]
  split at hcases
  · next units hbad =>
    rw [hbad, hcases]
    rfl
  · next hbad =>
    obtain ⟨v, hv⟩ := hcases
    rw [hbad, hv]
    dsimp only [Option.map_none]
    unfold literalKind
    by_cases hletter : v.startsWithLetter
    · simp only [hletter]
      rfl
    · cases hkind : g.operatorKind? v <;> simp only [hletter] <;> rfl

private theorem contains_tokenWords (t : Text) :
    tokenWords.contains t = (g.tokenNames.lookup t).isSome := by
  rw [show tokenWords = g.tokenNames.map Prod.fst from rfl, Bool.eq_iff_iff,
    List.contains_iff_mem, List.mem_map, List.lookup_isSome_iff]
  simp only [beq_iff_eq, eq_comm (a := t)]

/-- A name that stands for a symbol. -/
private theorem void_symbolOf {w : Word} (hupper : ¬w.text.isUpperCase) (detailed : Bool) :
    (g.symbolOf (w.toLeaf .name)).void = g.inspectToken (w.token .name, .name detailed) := by
  have hfault : g.fault? (w.token .name) (.name detailed) =
      if w.text = anySymbol ∨ w.text.head? = some CodeUnit.underscore then none
      else if g.symbolKind? w.text = none then
        some (.located (.unknownSymbol w.text) (w.token .name).start)
      else none := if_neg hupper
  rw [inspectToken, hfault, symbolOf, show (w.toLeaf .name).value = w.text from rfl]
  split
  · rfl
  · cases g.symbolKind? w.text <;> rfl

/-- A name that stands for a kind of tokens has no details. -/
private theorem tokenMatcher_cases {w : Word} (hupper : w.text.isUpperCase) :
    (g.tokenNames.lookup w.text = none ∧ ∀ detailed,
        g.inspectToken (w.token .name, .name detailed) =
          .refuse ((w.toLeaf .name).error (.unknownToken w.text))) ∨
      ∃ kind, g.tokenNames.lookup w.text = some kind ∧
        g.inspectToken (w.token .name, .name false) = .value () ∧
        g.inspectToken (w.token .name, .name true) =
          .refuse ((w.toLeaf .name).error (.detailsOfToken w.text)) := by
  have hfault (detailed : Bool) : g.fault? (w.token .name) (.name detailed) =
      if tokenWords.contains w.text then
        if detailed then some (.located (.detailsOfToken w.text) (w.token .name).start) else none
      else some (.located (.unknownToken w.text) (w.token .name).start) := if_pos hupper
  have hword := contains_tokenWords (g := g) w.text
  cases hkind : g.tokenNames.lookup w.text with
  | none =>
    rw [hkind] at hword
    refine .inl ⟨rfl, fun detailed => ?_⟩
    rw [inspectToken, hfault, hword]
    rfl
  | some kind =>
    rw [hkind] at hword
    refine .inr ⟨kind, rfl, ?_, ?_⟩ <;> rw [inspectToken, hfault, hword] <;> rfl

private theorem void_nameMatcher (w : Word) :
    (g.nameMatcher (w.toLeaf .name)).void = g.inspectToken (w.token .name, .name false) := by
  rw [nameMatcher, show (w.toLeaf .name).value = w.text from rfl]
  split
  · next hupper =>
    rw [tokenMatcher, show (w.toLeaf .name).value = w.text from rfl]
    rcases tokenMatcher_cases (g := g) hupper with ⟨hkind, hrefused⟩ | ⟨kind, hkind, hplain, -⟩
    · rw [hkind, hrefused]
      rfl
    · rw [hkind, hplain]
      rfl
  · next hupper =>
    rw [← void_symbolOf hupper false]
    exact void_andThen_value fun symbol _ => ⟨_, rfl⟩

/-- The name in front of details is looked up before these are compiled. -/
private theorem void_detailedMatcher (w : Word) (content : Outcome Matcher) :
    (g.detailedMatcher (w.toLeaf .name) content).void =
      (g.inspectToken (w.token .name, .name true)).andThen fun _ => content.void := by
  rw [detailedMatcher, show (w.toLeaf .name).value = w.text from rfl]
  split
  · next hupper =>
    rcases tokenMatcher_cases (g := g) hupper with ⟨hkind, hrefused⟩ | ⟨kind, hkind, -, hrefused⟩
    · rw [hkind, hrefused]
      rfl
    · rw [hkind, hrefused]
      rfl
  · next hupper =>
    rw [← void_symbolOf hupper true]
    exact void_andThen fun symbol _ => void_andThen_value fun m _ => ⟨_, rfl⟩

/-! ## Compiling repeaters -/

/-- A number of a repeater has its value, or it is too large. -/
private theorem bound_cases {n : Word} (h : (n.token .number).Fits) :
    (boundOf (n.leaf .number) = .ok n.text.decimalValue ∧ n.text.decimalValue ≤ boundLimit ∧
        g.inspectToken (n.token .number, .bound) = .value ()) ∨
      ∃ e, boundOf (n.leaf .number) = .error (.pattern e) ∧
        g.inspectToken (n.token .number, .bound) = .refuse e := by
  have hk : (Leaf.ofToken (n.token .number)).label = .token .number := rfl
  have hd : Text.isDecimal (Leaf.ofToken (n.token .number)).value := h
  have hbound : boundOf (n.leaf .number) =
      if n.text.decimalValue ≤ boundLimit then .ok n.text.decimalValue
      else .error (.pattern (.located (.boundTooLarge n.text) (n.token .number).start)) := by
    rw [Word.leaf, Tree.ofToken, boundOf, if_pos hk, if_pos hd]
    rfl
  have hfault : g.fault? (n.token .number) .bound =
      if n.text.decimalValue ≤ boundLimit then none
      else some (.located (.boundTooLarge n.text) (n.token .number).start) := rfl
  rw [hbound, inspectToken, hfault]
  split
  · next hle => exact .inl ⟨rfl, hle, rfl⟩
  · exact .inr ⟨_, rfl, rfl⟩

/-- The numbers of a repeater are looked at in order, and then their order is. -/
private theorem void_repeatMatcher {m : Matcher} (hm : Shaped g m) {r : Repeater}
    (h : ∀ t ∈ r.tokens, t.Fits) : (repeatMatcher m r.trees).void = g.inspect r.uses := by
  have hok {min max : Number} (hb : r.bounds = .ok (min, max)) (hv : ValidBounds min max) :
      (repeatMatcher m r.trees).void =
        ⟨if max.lt min then [.neverMatches min max] else [], .ok ()⟩ := by
    have hbounds := r.boundsOf_trees.trans hb
    rw [void, Outcome.andThen, result_repeatMatcher hm.settled hbounds hv,
      events_repeatMatcher hbounds]
    dsimp only [value]
    rw [List.append_nil]
  have herror {e : PatternError} (hb : r.bounds = .error (.pattern e)) :
      (repeatMatcher m r.trees).void = .refuse e := by
    rw [repeatMatcher, r.boundsOf_trees, hb]
    rfl
  cases r with
  | star w => exact hok rfl (repeats_infinity 0 (by decide)).valid
  | plus w => exact hok rfl (repeats_infinity 1 (by decide)).valid
  | exactly l n r =>
    rw [Repeater.uses, inspect_plain, inspect]
    rcases bound_cases (g := g) (h (n.token .number) (by simp [Repeater.tokens])) with
      ⟨hn, hle, hplain⟩ | ⟨e, hn, hrefused⟩
    · have hbounds : (Repeater.exactly l n r).bounds =
          .ok (.int n.text.decimalValue, .int n.text.decimalValue) := by
        rw [Repeater.bounds, hn]
        rfl
      rw [hok hbounds (repeats_int _ _ hle).valid, hplain, value_andThen, inspect_plain]
      simp [inspect, Outcome.value]
    · rw [herror (by rw [Repeater.bounds, hn]; rfl), hrefused]
      rfl
  | between l n c k r =>
    rw [Repeater.uses, inspect_plain, inspect]
    rcases bound_cases (g := g) (h (n.token .number) (by simp [Repeater.tokens])) with
      ⟨hn, hle, hplain⟩ | ⟨e, hn, hrefused⟩
    · rw [hplain, value_andThen, inspect_plain, inspect]
      rcases bound_cases (g := g) (h (k.token .number) (by simp [Repeater.tokens])) with
        ⟨hk, -, hplain⟩ | ⟨e, hk, hrefused⟩
      · have hbounds : (Repeater.between l n c k r).bounds =
            .ok (.int n.text.decimalValue, .int k.text.decimalValue) := by
          rw [Repeater.bounds, hn, hk]
          rfl
        rw [hok hbounds (repeats_int _ _ hle).valid, hplain, value_andThen, inspect_single]
        by_cases hlt : k.text.decimalValue < n.text.decimalValue <;>
          simp [inspectToken, fault?, warning?, hlt]
      · rw [herror (by rw [Repeater.bounds, hn, hk]; rfl), hrefused]
        rfl
    · rw [herror (by rw [Repeater.bounds, hn]; rfl), hrefused]
      rfl

/-! ## Compiling is inspecting -/

private theorem fits_of_read {ts : List Token} (h : ∀ t ∈ ts, t.Read) : ∀ t ∈ ts, t.Fits :=
  fun t ht => (h t ht).fits

/-- A sequence is put together without an event or a failure. -/
private theorem Sequence.void_matcher {s : Sequence} (h : ∀ t ∈ s.tokens, t.Read) :
    ((s.each g).andThen inSequence).void = (s.each g).void := by
  refine void_andThen_value fun ms hms => ?_
  have hshaped := (s.safe_each g (fits_of_read h)).of_result hms
  obtain ⟨m, hm, -⟩ := exists_inSequence hshaped.1 hshaped.2
  exact ⟨m, hm⟩

/-- So is a choice. -/
private theorem Choice.void_matcher {c : Choice} (h : ∀ t ∈ c.tokens, t.Read) :
    (c.matcher g).void = (c.each g).void := by
  refine void_andThen_value fun ms hms => ?_
  have hshaped := (c.safe_each g (fits_of_read h)).of_result hms
  obtain ⟨m, hm, -⟩ := exists_oneOf hshaped.1 hshaped.2
  exact ⟨m, hm⟩

mutual

theorem Choice.void_each : (c : Choice) → (∀ t ∈ c.tokens, t.Read) →
    (c.each g).void = g.inspect c.uses
  | .single s, h => by
    rw [Choice.tokens] at h
    rw [Choice.each, Choice.uses, ← Sequence.void_each s h, ← Sequence.void_matcher h]
    exact void_andThen_value fun m _ => ⟨_, rfl⟩
  | .either s bar c, h => by
    rw [Choice.tokens, List.forall_mem_append, List.forall_mem_cons] at h
    rw [Choice.each, Choice.uses, inspect_append, inspect_plain, ← Sequence.void_each s h.1,
      ← Sequence.void_matcher h.1, ← Choice.void_each c h.2.2]
    exact void_andThen fun m _ => void_andThen_value fun ms _ => ⟨_, rfl⟩

theorem Sequence.void_each : (s : Sequence) → (∀ t ∈ s.tokens, t.Read) →
    (s.each g).void = g.inspect s.uses
  | .single i, h => by
    rw [Sequence.tokens] at h
    rw [Sequence.each, Sequence.uses, ← Item.void_matcher i h]
    exact void_andThen_value fun m _ => ⟨_, rfl⟩
  | .followed i s, h => by
    rw [Sequence.tokens, List.forall_mem_append] at h
    rw [Sequence.each, Sequence.uses, inspect_append, ← Item.void_matcher i h.1,
      ← Sequence.void_each s h.2]
    exact void_andThen fun m _ => void_andThen_value fun ms _ => ⟨_, rfl⟩

theorem Item.void_matcher : (i : Item) → (∀ t ∈ i.tokens, t.Read) →
    (i.matcher g).void = g.inspect i.uses
  | .negated bang o, h => by
    rw [Item.tokens, List.forall_mem_cons] at h
    rw [Item.matcher, Item.uses, inspect_plain, ← Operand.void_matcher o h.2]
    refine void_andThen_value fun m hm => ?_
    obtain ⟨inner, hinner, -⟩ :=
      ((o.safe_matcher g (fits_of_read h.2)).of_result hm).exists_finish
    exact ⟨_, by rw [hinner]; exact finish_of_settled (settled_negated _ _)⟩
  | .plain capture? o, h => by
    rw [Item.tokens, List.forall_mem_append] at h
    rw [Item.matcher, Item.uses, inspect_captureUses, ← Operand.void_matcher o h.2]
    refine void_andThen_value fun m hm => ?_
    obtain ⟨m', hm', -⟩ := ((o.safe_matcher g (fits_of_read h.2)).of_result hm).exists_captured
      (forall_mem_captureTokens (fits_of_read h.1))
    exact ⟨m', hm'⟩
  | .repeated capture? b r, h => by
    rw [Item.tokens, List.forall_mem_append, List.forall_mem_append] at h
    have hr : ∀ t ∈ r.tokens, t.Fits := fits_of_read h.2.2
    rw [Item.matcher, Item.uses, inspect_captureUses, inspect_append, ← Basic.void_matcher b h.2.1]
    refine void_andThen fun m hm => ?_
    have hshaped := (b.safe_matcher g (fits_of_read h.2.1)).of_result hm
    rw [← void_repeatMatcher hshaped hr]
    refine void_andThen_value fun m' hm' => ?_
    obtain ⟨m'', hm'', -⟩ := ((safe_repeatMatcher hshaped hr).of_result hm').exists_captured
      (forall_mem_captureTokens (fits_of_read h.1))
    exact ⟨m'', hm''⟩

theorem Operand.void_matcher : (o : Operand) → (∀ t ∈ o.tokens, t.Read) →
    (o.matcher g).void = g.inspect o.uses
  | .optional l c r, h => by
    rw [Operand.tokens, List.forall_mem_cons, List.forall_mem_append] at h
    rw [Operand.matcher, Operand.uses, inspect_enclosed, ← Choice.void_each c h.2.1,
      ← Choice.void_matcher h.2.1]
    exact void_andThen_value fun m _ => ⟨_, repeating_of_valid repeats_zero_one.valid⟩
  | .basic b, h => by
    rw [Operand.tokens] at h
    rw [Operand.matcher, Operand.uses, Basic.void_matcher b h]

theorem Basic.void_matcher : (b : Basic) → (∀ t ∈ b.tokens, t.Read) →
    (b.matcher g).void = g.inspect b.uses
  | .literal w, h => by
    rw [Basic.tokens] at h
    rw [Basic.matcher, Basic.uses, inspect_single]
    exact void_literalMatcher (h _ (List.mem_singleton_self _))
  | .name w, _ => by
    rw [Basic.matcher, Basic.uses, inspect_single, void_nameMatcher]
  | .detailed w l c r, h => by
    rw [Basic.tokens, List.forall_mem_cons, List.forall_mem_cons, List.forall_mem_append] at h
    rw [Basic.matcher, Basic.uses, inspect, inspect_enclosed, void_detailedMatcher,
      ← Choice.void_each c h.2.2.1, ← Choice.void_matcher h.2.2.1, Choice.matcher]
  | .group l c r, h => by
    rw [Basic.tokens, List.forall_mem_cons, List.forall_mem_append] at h
    rw [Basic.matcher, Basic.uses, inspect_enclosed, ← Choice.void_each c h.2.1,
      ← Choice.void_matcher h.2.1, Choice.matcher]

end

/-! ## The first fault -/

/-- Inspecting passes all tokens, or it stops at the first one at fault. -/
theorem inspect_cases (ps : List (Token × Use)) :
    ((∀ p ∈ ps, ¬g.Offends p) ∧ g.inspect ps = ⟨g.warnings ps, .ok ()⟩) ∨
      ∃ before p after e, ps = before ++ p :: after ∧ (∀ q ∈ before, ¬g.Offends q) ∧
        g.fault? p.1 p.2 = some e ∧
        g.inspect ps = ⟨g.warnings before, .error (.pattern e)⟩ := by
  induction ps with
  | nil => exact .inl ⟨by simp, rfl⟩
  | cons p ps ih =>
    cases hp : g.fault? p.1 p.2 with
    | some e =>
      refine .inr ⟨[], p, ps, e, rfl, by simp, hp, ?_⟩
      rw [inspect, inspectToken, hp]
      rfl
    | none =>
      have hgood : ¬g.Offends p := by simp [Offends, hp]
      have hstep (ws : List Event) (r : Except CompileError Unit)
          (h : g.inspect ps = ⟨ws, r⟩) :
          g.inspect (p :: ps) = ⟨(g.warning? p.1 p.2).toList ++ ws, r⟩ := by
        rw [inspect, inspectToken, hp, h]
        rfl
      have hwarnings (qs : List (Token × Use)) :
          g.warnings (p :: qs) = (g.warning? p.1 p.2).toList ++ g.warnings qs := by
        rw [Grammar.warnings, List.filterMap_cons, Grammar.warnings]
        cases g.warning? p.1 p.2 <;> rfl
      rcases ih with ⟨hall, hps⟩ | ⟨before, q, after, e, rfl, hbefore, hq, hps⟩
      · exact .inl ⟨List.forall_mem_cons.2 ⟨hgood, hall⟩, by rw [hstep _ _ hps, hwarnings]⟩
      · exact .inr ⟨p :: before, q, after, e, rfl, List.forall_mem_cons.2 ⟨hgood, hbefore⟩, hq,
          by rw [hstep _ _ hps, hwarnings]⟩

private theorem isWarning_of_mem {ps : List (Token × Use)} {w : Event} (h : w ∈ g.warnings ps) :
    w.isWarning := by
  obtain ⟨⟨t, u⟩, -, hw⟩ := List.mem_filterMap.1 h
  unfold warning? at hw
  split at hw
  · split at hw
    · split at hw
      · cases hw
      · cases hw
        rfl
    · cases hw
  · split at hw
    · cases hw
      rfl
    · cases hw
  · cases hw

private theorem filter_warnings (ps : List (Token × Use)) :
    (g.warnings ps).filter Event.isWarning = g.warnings ps :=
  List.filter_eq_self.2 fun _ h => isWarning_of_mem h

/-- In a row of tokens that stand one behind the other, the first one at fault is the one with the
least offset, and those in front of it are those with smaller offsets. -/
private theorem isLeast_offset {before after : List (Token × Use)} {p : Token × Use}
    {e : PatternError}
    (horder : InOrder ((before ++ p :: after).map Prod.fst)) (hbefore : ∀ q ∈ before, ¬g.Offends q)
    (hp : g.fault? p.1 p.2 = some e) :
    IsLeast {k | ∃ q ∈ before ++ p :: after, g.Offends q ∧ q.1.offset = k} p.1.offset ∧
      (before ++ p :: after).filter (fun q => q.1.offset < p.1.offset) = before := by
  rw [List.map_append, List.map_cons, InOrder, List.pairwise_append, List.pairwise_cons] at horder
  have hfront : ∀ q ∈ before, q.1.offset < p.1.offset := fun q hq =>
    horder.2.2 q.1 (List.mem_map_of_mem hq) p.1 List.mem_cons_self
  have hbehind : ∀ q ∈ after, p.1.offset < q.1.offset := fun q hq =>
    horder.2.1.1 q.1 (List.mem_map_of_mem hq)
  refine ⟨⟨⟨p, by simp, by rw [Offends, hp]; rfl, rfl⟩, ?_⟩, ?_⟩
  · rintro _ ⟨q, hq, hoffends, rfl⟩
    rcases List.mem_append.1 hq with hq | hq
    · exact absurd hoffends (hbefore q hq)
    · rcases List.mem_cons.1 hq with rfl | hq
      · exact Nat.le_refl _
      · exact Nat.le_of_lt (hbehind q hq)
  · have hkeep : before.filter (fun q => q.1.offset < p.1.offset) = before :=
      List.filter_eq_self.2 fun q hq => decide_eq_true (hfront q hq)
    have hdrop : (p :: after).filter (fun q => q.1.offset < p.1.offset) = [] := by
      refine List.filter_eq_nil_iff.2 (List.forall_mem_cons.2 ⟨by simp, fun q hq => ?_⟩)
      have := hbehind q hq
      simp only [decide_eq_true_eq]
      omega
    rw [List.filter_append, hkeep, hdrop, List.append_nil]

/-- A text that is parsed compiles exactly when no token is at fault, and then it is warned of all
that there is to warn of. Otherwise it is refused for the token at fault with the least offset, and
it has been warned of what ends in front of that token. -/
theorem compile_in_source_order (g : Grammar) {source : Text} {tree : Tree}
    (h : parse source = .ok tree) :
    ∃ c : Choice, tree = c.pattern ∧ c.uses.map Prod.fst = tokens source ∧
      ((∃ m, (g.matcherOfText source).result = .ok (tree, m)) ↔ ∀ p ∈ c.uses, ¬g.Offends p) ∧
      ((∀ p ∈ c.uses, ¬g.Offends p) → (g.matcherOfText source).warnings = g.warnings c.uses) ∧
      ((∃ p ∈ c.uses, g.Offends p) → ∃ p ∈ c.uses, ∃ e, g.fault? p.1 p.2 = some e ∧
        IsLeast {k | ∃ q ∈ c.uses, g.Offends q ∧ q.1.offset = k} p.1.offset ∧
        (g.matcherOfText source).result = .error (.pattern e) ∧
        (g.matcherOfText source).warnings =
          g.warnings (c.uses.filter fun q => q.1.offset < p.1.offset)) := by
  obtain ⟨-, c, htokens, rfl⟩ := parse_eq_ok_iff_choice.1 h
  have hread : ∀ t ∈ c.tokens, t.Read := fun t ht => read_of_mem_tokens (htokens ▸ ht)
  have hvoid : (c.matcher g).void = g.inspect c.uses := by
    rw [Choice.void_matcher hread, Choice.void_each c hread]
  have huses : c.uses.map Prod.fst = tokens source := by rw [c.map_fst_uses, htokens]
  refine ⟨c, rfl, huses, ?_⟩
  rw [matcherOfText_eq g h]
  rcases inspect_cases (g := g) c.uses with ⟨hall, hinspect⟩ |
    ⟨before, p, after, e, hsplit, hbefore, hp, hinspect⟩
  · rw [hinspect] at hvoid
    obtain ⟨m, hm, hevents⟩ := exists_of_void_eq_ok hvoid
    rw [Outcome.andThen, hm]
    refine ⟨iff_of_true ⟨m, rfl⟩ hall, fun _ => ?_, ?_⟩
    · rw [Outcome.warnings, List.filter_append, hevents, filter_warnings]
      exact List.append_nil _
    · rintro ⟨p, hp, hoffends⟩
      exact absurd hoffends (hall p hp)
  · rw [hinspect] at hvoid
    obtain ⟨hresult, hevents⟩ := eq_of_void_eq_error hvoid
    have hmem : p ∈ c.uses := by rw [hsplit]; simp
    have hoffends : g.Offends p := by rw [Offends, hp]; rfl
    have horder : InOrder ((before ++ p :: after).map Prod.fst) := by
      rw [← hsplit, huses]
      exact inOrder_tokens source
    obtain ⟨hleast, hfront⟩ := isLeast_offset horder hbefore hp
    rw [← hsplit] at hleast hfront
    rw [Outcome.andThen, hresult]
    refine ⟨iff_of_false ?_ fun hall => hall p hmem hoffends,
      fun hall => absurd hoffends (hall p hmem), fun _ => ⟨p, hmem, e, hp, hleast, rfl, ?_⟩⟩
    · rintro ⟨_, hm⟩
      cases hm
    · rw [Outcome.warnings, hevents, filter_warnings, hfront]

/-- A literal, a descending repeater, a name that no grammar declares, and one that is not looked at
any more. -/
def threeCauses : Choice :=
  .single (.followed (.plain none (.basic (.literal (.onFirstLine "'?'" 0))))
    (.followed (.repeated none (.name (.onFirstLine "NAME" 4))
        (.between (.onFirstLine "\x7b" 8) (.onFirstLine "3" 9) (.onFirstLine "," 10)
          (.onFirstLine "1" 11) (.onFirstLine "\x7d" 12)))
      (.followed (.plain none (.basic (.name (.onFirstLine "Foo" 14))))
        (.single (.plain none (.basic (.literal (.onFirstLine "'?'" 18))))))))

/-- The error comes with the two warnings in front of it and without the one behind it. -/
theorem compile_in_source_order_threeCauses :
    parse "'?' NAME\x7b3,1\x7d Foo '?'" = .ok threeCauses.pattern ∧
      ∃ (c : Choice) (p : Token × Use) (e : PatternError), p ∈ c.uses ∧
        Grammar.expression.fault? p.1 p.2 = some e ∧
        (Grammar.expression.matcherOfText "'?' NAME\x7b3,1\x7d Foo '?'").result =
          .error (.pattern e) ∧
        Grammar.expression.warnings (c.uses.filter fun q => q.1.offset < p.1.offset) =
          [.unknownOperator "?", .neverMatches 3 1] := by
  have hparse : parse "'?' NAME\x7b3,1\x7d Foo '?'" = .ok threeCauses.pattern :=
    parse_eq_ok_iff_choice.2 ⟨by decide +kernel, threeCauses, by decide +kernel, rfl⟩
  have hrefused : (Grammar.expression.matcherOfText
      "'?' NAME\x7b3,1\x7d Foo '?'").result.toOption.isNone := by decide +kernel
  have hwarnings : (Grammar.expression.matcherOfText "'?' NAME\x7b3,1\x7d Foo '?'").warnings =
      [.unknownOperator "?", .neverMatches 3 1] := by decide +kernel
  obtain ⟨c, -, -, hiff, -, hfirst⟩ := compile_in_source_order Grammar.expression hparse
  have hsome : ∃ p ∈ c.uses, Grammar.expression.Offends p := by
    by_contra hnone
    obtain ⟨m, hm⟩ := hiff.2 fun p hp hoffends => hnone ⟨p, hp, hoffends⟩
    rw [hm] at hrefused
    cases hrefused
  obtain ⟨p, hp, e, he, -, hresult, hbefore⟩ := hfirst hsome
  exact ⟨hparse, c, p, e, hp, he, hresult, hbefore.symm.trans hwarnings⟩

end TreeMatcher
