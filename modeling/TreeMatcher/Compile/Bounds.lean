import TreeMatcher.Compile.Outcome

/-!
# Repeat bounds

`*` repeats any number of times, `+` at least once, `{n}` exactly `n` times and `{n,m}` from `n` to
`m` times. Numbers are natural numbers in decimal, up to the largest integer below `2 ^ 53`.

* `boundOf` — the number of a leaf.
* `boundsOf` — the bounds of a repeater, from its children.

## Main results

* `boundOf_eq_ok_iff` — the value of a number leaf is that of its digits, or it is refused.
-/

namespace TreeMatcher

-- Powers of natural numbers are those of the core library, whatever else is imported.
attribute [local instance (high)] instPowNat

/-- The largest repeat bound. -/
def boundLimit : Nat := 2 ^ (53 : Nat) - 1

/-- The number that a leaf stands for as a repeat bound. -/
def boundOf : Tree → Except CompileError Nat
  | .leaf l =>
    if l.label = .token .number then
      if l.value.isDecimal then
        if l.value.decimalValue ≤ boundLimit then .ok l.value.decimalValue
        else .error (.pattern (l.error (.boundTooLarge l.value)))
      else .error (.shape (.malformedBound l.value))
    else .error (.shape .boundNotNumber)
  | .branch .. => .error (.shape .boundNotNumber)

/-- The bounds in braces, from the children of a repeater. -/
def bracedBounds (children : List Tree) : Except CompileError (Number × Number) :=
  if children.getLast?.map Tree.label = some (.token .rbrace) then
    match children with
    | [_, n, _] => do
      let n ← boundOf n
      pure (.int n, .int n)
    | [_, n, _, m, _] => do
      let n ← boundOf n
      let m ← boundOf m
      pure (.int n, .int m)
    | _ => .error (.shape .malformedRepeater)
  else .error (.shape .unterminatedRepeater)

/-- The bounds of a repeater, from its children. -/
def boundsOf (children : List Tree) : Except CompileError (Number × Number) :=
  match children with
  | .leaf l :: _ =>
    if l.label = .token .star then .ok (0, .infinity)
    else if l.label = .token .plus then .ok (1, .infinity)
    else if l.label = .token .lbrace then bracedBounds children
    else .error (.shape (.unexpectedRepeaterToken l.label))
  | _ => .error (.shape .emptyRepeater)

theorem boundOf_eq_ok_iff {l : Leaf} {n : Nat} (hk : l.label = .token .number)
    (hd : l.value.isDecimal) :
    boundOf (.leaf l) = .ok n ↔ n = l.value.decimalValue ∧ n ≤ boundLimit := by
  rw [boundOf, if_pos hk, if_pos hd]
  split
  · next h =>
    simp only [Except.ok.injEq]
    constructor
    · rintro rfl
      exact ⟨rfl, h⟩
    · rintro ⟨rfl, _⟩
      rfl
  · next h =>
    simp only [reduceCtorEq, false_iff, not_and]
    rintro rfl
    exact h

end TreeMatcher
