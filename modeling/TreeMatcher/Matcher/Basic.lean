import TreeMatcher.Number.Shortest

/-!
# Matchers

A compiled pattern. It matches consecutive children of a tree of the target language:

* a leaf matcher takes one leaf, of a given token kind and with a given text, where these are given;
* a node matcher takes one interior node, of a given symbol where one is given, whose children match
  the content where there is one;
* a wildcard takes at least `min` and at most `max` sequences in a row, each one of its
  alternatives;
* a negated matcher takes nothing, and stands where its operand does not match.

Every matcher may carry a capture name. Token kinds and symbols are numbers; those that a grammar
declares are integers. The bounds of a wildcard are numbers; the checked constructor admits natural
numbers and, as an upper bound, infinity.

## Main results

* `name?_withName` — a matcher has the name it was given.
* `wildcard?_eq_ok_iff` — the checked constructor fails on no other bounds.
-/

namespace TreeMatcher

/-- A compiled pattern. -/
inductive Matcher where
  | leaf (token? : Option Number) (value? : Option Text) (name? : Option Text)
  | node (symbol? : Option Number) (content? : Option (List Matcher)) (name? : Option Text)
  | wildcard (alternatives : List (List Matcher)) (min max : Number) (name? : Option Text)
  | negated (inner : Matcher) (name? : Option Text)
deriving Inhabited, Repr

namespace Matcher

/-! ## Equality -/

mutual

/-- Whether two matchers are equal. -/
def decEq : (a b : Matcher) → Decidable (a = b)
  | leaf t v n, leaf t' v' n' => decidable_of_iff (t = t' ∧ v = v' ∧ n = n') (by simp)
  | node s none n, node s' none n' => decidable_of_iff (s = s' ∧ n = n') (by simp)
  | node s (some c) n, node s' (some c') n' =>
    have := decEqList c c'
    decidable_of_iff (s = s' ∧ c = c' ∧ n = n') (by simp)
  | wildcard as a b n, wildcard as' a' b' n' =>
    have := decEqLists as as'
    decidable_of_iff (as = as' ∧ a = a' ∧ b = b' ∧ n = n') (by simp)
  | negated m n, negated m' n' =>
    have := decEq m m'
    decidable_of_iff (m = m' ∧ n = n') (by simp)
  | node _ none _, node _ (some _) _ => isFalse (by simp)
  | node _ (some _) _, node _ none _ => isFalse (by simp)
  | leaf .., node .. => isFalse (by simp)
  | leaf .., wildcard .. => isFalse (by simp)
  | leaf .., negated .. => isFalse (by simp)
  | node .., leaf .. => isFalse (by simp)
  | node .., wildcard .. => isFalse (by simp)
  | node .., negated .. => isFalse (by simp)
  | wildcard .., leaf .. => isFalse (by simp)
  | wildcard .., node .. => isFalse (by simp)
  | wildcard .., negated .. => isFalse (by simp)
  | negated .., leaf .. => isFalse (by simp)
  | negated .., node .. => isFalse (by simp)
  | negated .., wildcard .. => isFalse (by simp)

/-- Whether two sequences are equal. -/
def decEqList : (as bs : List Matcher) → Decidable (as = bs)
  | [], [] => isTrue rfl
  | [], _ :: _ => isFalse (by simp)
  | _ :: _, [] => isFalse (by simp)
  | a :: as, b :: bs =>
    have := decEq a b
    have := decEqList as bs
    decidable_of_iff (a = b ∧ as = bs) (by simp)

/-- Whether two lists of sequences are equal. -/
def decEqLists : (as bs : List (List Matcher)) → Decidable (as = bs)
  | [], [] => isTrue rfl
  | [], _ :: _ => isFalse (by simp)
  | _ :: _, [] => isFalse (by simp)
  | a :: as, b :: bs =>
    have := decEqList a b
    have := decEqLists as bs
    decidable_of_iff (a = b ∧ as = bs) (by simp)

end

instance : DecidableEq Matcher := decEq

/-! ## Names -/

/-- The capture name of a matcher. -/
def name? : Matcher → Option Text
  | leaf _ _ n => n
  | node _ _ n => n
  | wildcard _ _ _ n => n
  | negated _ n => n

/-- A matcher under a capture name. -/
def withName (name : Text) : Matcher → Matcher
  | leaf t v _ => leaf t v (some name)
  | node s c _ => node s c (some name)
  | wildcard as min max _ => wildcard as min max (some name)
  | negated m _ => negated m (some name)

@[simp] theorem name?_withName (name : Text) (m : Matcher) :
    (m.withName name).name? = some name := by
  cases m <;> rfl

/-! ## Bounds -/

/-- A bound that a wildcard cannot have. -/
inductive BoundError where
  | min (n : Number)
  | max (n : Number)
deriving DecidableEq, Repr

/-- The wording of an error in a bound. -/
def BoundError.message : BoundError → Text
  | min n => "Wildcard min must be a non-negative integer, got " ++ n.toText
  | max n => "Wildcard max must be a non-negative integer or UNBOUNDED, got " ++ n.toText

/-- A wildcard with checked bounds; of two bad bounds the lower one is reported. -/
def wildcard? (alternatives : List (List Matcher)) (min max : Number) (name? : Option Text) :
    Except BoundError Matcher :=
  if !min.isNat then .error (.min min)
  else if max ≠ .infinity && !max.isNat then .error (.max max)
  else .ok (wildcard alternatives min max name?)

/-- The bounds that a wildcard may have. -/
def ValidBounds (min max : Number) : Prop := min.isNat ∧ (max = .infinity ∨ max.isNat)

theorem wildcard?_eq_ok_iff {as : List (List Matcher)} {min max : Number} {n : Option Text} :
    wildcard? as min max n = .ok (wildcard as min max n) ↔ ValidBounds min max := by
  unfold wildcard? ValidBounds
  by_cases hmin : min.isNat <;> by_cases hmax : max = .infinity <;> by_cases h : max.isNat <;>
    simp [hmin, hmax, h]

end Matcher

end TreeMatcher
