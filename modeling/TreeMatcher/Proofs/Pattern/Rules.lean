import Mathlib.Computability.RegularExpressions
import TreeMatcher.Proofs.Pattern.Grouped

/-!
# The rules of the pattern language

The grammar of patterns, rule by rule. The body of a rule is a regular expression over kinds of
tokens and other rules; a derivation is a tree with a rule at every inner node, the constituents
below it being a word of the rule's body. Derivations hold anything at their leaves that has a token
kind: derivations of kinds say what the grammar allows, derivations of tokens say which tokens stand
where.

In the pattern tree of a derivation, each rule has a node, except basic patterns and optional
groups, whose children take the place of the node.

* `Rule.body` — the rules of the grammar.
* `Derivation`, `Derives` — derivations, and what it is to be one.
* `Derivation.trees` — the pattern tree of a derivation.
* `Derivation.element` — what a parser generated from the rules makes of a derivation.

## Main results

* `mem_body_alternatives`, `mem_body_alternative`, `mem_body_unit` and their companions — the words
  of each body.
* `Derives.map`, `Derives.exists_map` — whether a derivation is one depends on the kinds of its
  leaves alone.
-/

namespace TreeMatcher

/-! ## Rules -/

/-- The rules of the pattern language. -/
inductive Rule where
  | matcher
  | alternatives
  | alternative
  | negatedUnit
  | unit
  | basic
  | optional
  | details
  | repeater
deriving DecidableEq, Repr

/-- What a rule is made up of: a token of some kind, or what another rule derives. -/
inductive Constituent where
  | token (kind : TokenKind)
  | rule (rule : Rule)
deriving DecidableEq, Repr

namespace Rule

/-- A token in the body of a rule. -/
abbrev tok (k : TokenKind) : RegularExpression Constituent := .char (.token k)

/-- A rule in the body of a rule. -/
abbrev sub (r : Rule) : RegularExpression Constituent := .char (.rule r)

/-- Something in the body of a rule that may be left out. -/
abbrev maybe (p : RegularExpression Constituent) : RegularExpression Constituent := 1 + p

/-- The body of a rule. -/
def body : Rule → RegularExpression Constituent
  | matcher => sub alternatives
  | alternatives => sub alternative * (tok .vbar * sub alternative).star
  | alternative => (sub negatedUnit + sub unit) * (sub negatedUnit + sub unit).star
  | negatedUnit => tok .bang * (sub optional + sub basic)
  | unit => maybe (tok .name * tok .equal) * (sub optional + sub basic * maybe (sub repeater))
  | basic =>
    tok .string + tok .name * maybe (sub details) + tok .lpar * (sub alternatives * tok .rpar)
  | optional => tok .lsqb * (sub alternatives * tok .rsqb)
  | details => tok .less * (sub alternatives * tok .greater)
  | repeater =>
    tok .star + tok .plus +
      tok .lbrace * (tok .number * (maybe (tok .comma * tok .number) * tok .rbrace))

/-- The name of a rule. -/
def name : Rule → Text
  | matcher => "matcher"
  | alternatives => "alternatives"
  | alternative => "alternative"
  | negatedUnit => "negatedUnit"
  | unit => "unit"
  | basic => "basic"
  | optional => "optional"
  | details => "details"
  | repeater => "repeater"

/-- The phrase of a rule that has a node of its own. -/
def phrase? : Rule → Option Phrase
  | matcher => some .matcher
  | alternatives => some .alternatives
  | alternative => some .alternative
  | negatedUnit => some .negatedUnit
  | unit => some .unit
  | basic => none
  | optional => none
  | details => some .details
  | repeater => some .repeater

/-- The table that trees are built by gives each rule the same node, or none. -/
theorem lookup_name (r : Rule) : rules.lookup r.name = some r.phrase? := by cases r <;> rfl

end Rule

/-! ## Derivations -/

/-- A derivation, with leaves of a given type. -/
inductive Derivation (α : Type) where
  | token (a : α)
  | rule (rule : Rule) (children : List (Derivation α))

namespace Derivation

variable {α β γ : Type}

mutual

/-- The leaves of a derivation, in order. -/
def leaves : Derivation α → List α
  | token a => [a]
  | rule _ ds => leavesOfList ds

/-- The leaves of some derivations, in order. -/
def leavesOfList : List (Derivation α) → List α
  | [] => []
  | d :: ds => leaves d ++ leavesOfList ds

end

mutual

/-- A derivation with other leaves. -/
def map (f : α → β) : Derivation α → Derivation β
  | token a => token (f a)
  | rule r ds => rule r (mapList f ds)

/-- Some derivations with other leaves. -/
def mapList (f : α → β) : List (Derivation α) → List (Derivation β)
  | [] => []
  | d :: ds => map f d :: mapList f ds

end

/-- What the root of a derivation is; `kind` gives the kind of a leaf. -/
def root (kind : α → TokenKind) : Derivation α → Constituent
  | token a => .token (kind a)
  | rule r _ => .rule r

/-- Below every rule stands a word of its body. -/
inductive Valid (kind : α → TokenKind) : Derivation α → Prop where
  | token (a : α) : Valid kind (token a)
  | rule {r : Rule} {ds : List (Derivation α)} (hbody : ds.map (root kind) ∈ r.body.matches')
      (hds : ∀ d ∈ ds, Valid kind d) : Valid kind (rule r ds)

mutual

/-- What a derivation contributes to a pattern tree. -/
def trees : Derivation Token → List Tree
  | token t => [.ofToken t]
  | rule r ds =>
    match r.phrase? with
    | some p => [.phrase p (treesOfList ds)]
    | none => treesOfList ds

/-- What some derivations contribute to a pattern tree. -/
def treesOfList : List (Derivation Token) → List Tree
  | [] => []
  | d :: ds => trees d ++ treesOfList ds

end

mutual

/-- The element of a derivation, in which the children are grouped. -/
def element : Derivation Token → Element
  | token t => .token t
  | rule r ds => .of r.name (elements ds)

/-- The elements of some derivations. -/
def elements : List (Derivation Token) → List Element
  | [] => []
  | d :: ds => element d :: elements ds

end

/-! ## Derivations in a row -/

private theorem leavesOfList_eq (ds : List (Derivation α)) :
    leavesOfList ds = ds.flatMap leaves := by
  induction ds with
  | nil => rfl
  | cons d ds ih => rw [leavesOfList, ih, List.flatMap_cons]

private theorem mapList_eq (f : α → β) (ds : List (Derivation α)) :
    mapList f ds = ds.map (map f) := by
  induction ds with
  | nil => rfl
  | cons d ds ih => rw [mapList, ih, List.map_cons]

private theorem treesOfList_eq (ds : List (Derivation Token)) :
    treesOfList ds = ds.flatMap trees := by
  induction ds with
  | nil => rfl
  | cons d ds ih => rw [treesOfList, ih, List.flatMap_cons]

private theorem elements_eq (ds : List (Derivation Token)) : elements ds = ds.map element := by
  induction ds with
  | nil => rfl
  | cons d ds ih => rw [elements, ih, List.map_cons]

@[simp] theorem leaves_token (a : α) : (token a).leaves = [a] := by rw [leaves]

@[simp] theorem leaves_rule (r : Rule) (ds : List (Derivation α)) :
    (rule r ds).leaves = ds.flatMap leaves := by
  rw [leaves, leavesOfList_eq]

@[simp] theorem map_token (f : α → β) (a : α) : (token a).map f = token (f a) := by rw [map]

@[simp] theorem map_rule (f : α → β) (r : Rule) (ds : List (Derivation α)) :
    (rule r ds).map f = rule r (ds.map (map f)) := by
  rw [map, mapList_eq]

@[simp] theorem trees_token (t : Token) : (token t).trees = [.ofToken t] := by rw [trees]

@[simp] theorem trees_rule (r : Rule) (ds : List (Derivation Token)) :
    (rule r ds).trees =
      match r.phrase? with
      | some p => [.phrase p (ds.flatMap trees)]
      | none => ds.flatMap trees := by
  rw [trees, treesOfList_eq]

@[simp] theorem element_token (t : Token) : (token t).element = .token t := by rw [element]

@[simp] theorem element_rule (r : Rule) (ds : List (Derivation Token)) :
    (rule r ds).element = .of r.name (ds.map element) := by
  rw [element, elements_eq]

/-- A derivation is a leaf, or a rule over derivations for which the same is known. -/
@[induction_eliminator]
private theorem induction {motive : Derivation α → Prop} (token : ∀ a, motive (token a))
    (rule : ∀ r ds, (∀ d ∈ ds, motive d) → motive (rule r ds)) (d : Derivation α) : motive d := by
  refine d.rec (motive_1 := motive) (motive_2 := fun ds => ∀ d ∈ ds, motive d) token
    (fun r ds ih => rule r ds ih) (by simp) ?_
  intro d ds hd hds
  exact List.forall_mem_cons.2 ⟨hd, hds⟩

/-! ## Other leaves -/

private theorem leaves_map (f : α → β) (d : Derivation α) : (d.map f).leaves = d.leaves.map f := by
  induction d with
  | token a => simp
  | rule r ds ih =>
    rw [map_rule, leaves_rule, leaves_rule, List.flatMap_map, List.map_flatMap]
    exact List.flatMap_congr ih

theorem map_map (f : α → β) (h : β → γ) (d : Derivation α) : (d.map f).map h = d.map (h ∘ f) := by
  induction d with
  | token a => simp
  | rule r ds ih =>
    simp only [map_rule, List.map_map, rule.injEq, true_and]
    exact List.map_congr_left ih

theorem map_id (d : Derivation α) : d.map id = d := by
  induction d with
  | token a => simp
  | rule r ds ih =>
    rw [map_rule, (List.map_congr_left ih : ds.map (map id) = ds.map fun d => d), List.map_id']

private theorem root_map (kind : β → TokenKind) (f : α → β) (d : Derivation α) :
    (d.map f).root kind = d.root (kind ∘ f) := by
  cases d <;> simp [root]

private theorem map_roots (kind : β → TokenKind) (f : α → β) (ds : List (Derivation α)) :
    (ds.map (map f)).map (root kind) = ds.map (root (kind ∘ f)) := by
  rw [List.map_map]
  exact List.map_congr_left fun d _ => root_map kind f d

private theorem valid_map {kind : β → TokenKind} {f : α → β} {d : Derivation α}
    (h : d.Valid (kind ∘ f)) : (d.map f).Valid kind := by
  induction h with
  | token a =>
    rw [map_token]
    exact .token (f a)
  | @rule r ds hbody _ ih =>
    rw [map_rule]
    refine .rule (map_roots kind f ds ▸ hbody) fun d' hd' => ?_
    obtain ⟨d, hd, rfl⟩ := List.mem_map.1 hd'
    exact ih d hd

private theorem valid_of_map {kind : β → TokenKind} {f : α → β} {d : Derivation α}
    (h : (d.map f).Valid kind) : d.Valid (kind ∘ f) := by
  induction d with
  | token a => exact .token a
  | rule r ds ih =>
    rw [map_rule] at h
    cases h with
    | rule hbody hds =>
      rw [map_roots] at hbody
      exact .rule hbody fun d hd => ih d hd (hds _ (List.mem_map_of_mem hd))

/-- A derivation stands over any leaves that map to its own. -/
theorem exists_map {f : α → β} (d : Derivation β) (as : List α) (h : d.leaves = as.map f) :
    ∃ d' : Derivation α, d'.map f = d ∧ d'.leaves = as := by
  induction d generalizing as with
  | token b =>
    rw [leaves_token, eq_comm, List.map_eq_singleton_iff] at h
    obtain ⟨a, rfl, rfl⟩ := h
    exact ⟨token a, map_token f a, leaves_token a⟩
  | rule r ds ih =>
    have hlist : ∃ ds' : List (Derivation α), ds'.map (map f) = ds ∧ ds'.flatMap leaves = as := by
      rw [leaves_rule] at h
      induction ds generalizing as with
      | nil => exact ⟨[], rfl, (List.map_eq_nil_iff.1 h.symm).symm⟩
      | cons d ds ihlist =>
        rw [List.flatMap_cons, eq_comm, List.map_eq_append_iff] at h
        obtain ⟨as, as', rfl, hhead, htail⟩ := h
        obtain ⟨d', rfl, rfl⟩ := ih d List.mem_cons_self as hhead.symm
        obtain ⟨ds', rfl, rfl⟩ :=
          ihlist (fun d hd => ih d (List.mem_cons_of_mem _ hd)) as' htail.symm
        exact ⟨d' :: ds', List.map_cons, List.flatMap_cons⟩
    obtain ⟨ds', rfl, rfl⟩ := hlist
    exact ⟨rule r ds', map_rule f r ds', leaves_rule r ds'⟩

end Derivation

/-! ## What a rule derives -/

/-- The derivation `d` derives the leaves `as` from the rule `r`. -/
structure Derives {α : Type} (kind : α → TokenKind) (r : Rule) (as : List α) (d : Derivation α) :
    Prop where
  root : d.root kind = .rule r
  valid : d.Valid kind
  leaves : d.leaves = as

/-- A derivation is one whatever its leaves are, as long as their kinds are the same. -/
theorem Derives.map {α β : Type} (kind : β → TokenKind) (f : α → β) {r : Rule} {as : List α}
    {d : Derivation α} (h : Derives (kind ∘ f) r as d) : Derives kind r (as.map f) (d.map f) where
  root := (d.root_map kind f).trans h.root
  valid := Derivation.valid_map h.valid
  leaves := by rw [Derivation.leaves_map, h.leaves]

/-- The derivations of the images of some leaves are the images of their derivations. -/
theorem Derives.exists_map {α β : Type} {kind : β → TokenKind} {f : α → β} {r : Rule}
    {as : List α} {d : Derivation β} (h : Derives kind r (as.map f) d) :
    ∃ d' : Derivation α, d'.map f = d ∧ Derives (kind ∘ f) r as d' := by
  obtain ⟨d', rfl, hleaves⟩ := d.exists_map as h.leaves
  exact ⟨d', rfl, (d'.root_map kind f).symm.trans h.root, Derivation.valid_of_map h.valid, hleaves⟩

/-! ## The words of a body -/

open RegularExpression

section Words

variable {α : Type} {p q : RegularExpression α} {ks : List α}

private theorem mem_char {k : α} : ks ∈ (char k).matches' ↔ ks = [k] := Iff.rfl

private theorem mem_either : ks ∈ (p + q).matches' ↔ ks ∈ p.matches' ∨ ks ∈ q.matches' := Iff.rfl

private theorem mem_empty : ks ∈ (1 : RegularExpression α).matches' ↔ ks = [] := Iff.rfl

private theorem mem_both :
    ks ∈ (p * q).matches' ↔ ∃ xs ∈ p.matches', ∃ ys ∈ q.matches', xs ++ ys = ks :=
  Language.mem_mul

private theorem mem_first {k : α} :
    ks ∈ (char k * p).matches' ↔ ∃ ys ∈ p.matches', k :: ys = ks := by
  rw [mem_both]
  simp only [mem_char, exists_eq_left, List.singleton_append]

private theorem mem_star : ks ∈ p.star.matches' ↔ ks = [] ∨ ks ∈ (p * p.star).matches' := by
  rw [matches'_mul, matches'_star, ← mem_empty, ← Language.mem_add, matches'_epsilon,
    Language.one_add_self_mul_kstar_eq_kstar]

end Words

namespace Rule

variable {ks : List Constituent}

theorem mem_body_matcher : ks ∈ matcher.body.matches' ↔ ks = [.rule .alternatives] := Iff.rfl

/-- Alternatives are one, or one and a bar and alternatives. -/
theorem mem_body_alternatives :
    ks ∈ alternatives.body.matches' ↔
      ks = [.rule .alternative] ∨
        ∃ ks' ∈ alternatives.body.matches', .rule .alternative :: .token .vbar :: ks' = ks := by
  rw [body, mem_first]
  constructor
  · rintro ⟨ys, hys, rfl⟩
    rcases mem_star.1 hys with rfl | hmore
    · exact .inl rfl
    · obtain ⟨xs, hxs, zs, hzs, rfl⟩ := mem_both.1 hmore
      obtain ⟨ks, rfl, rfl⟩ := mem_first.1 hxs
      exact .inr ⟨_, mem_first.2 ⟨zs, hzs, rfl⟩, rfl⟩
  · rintro (rfl | ⟨ks', hks', rfl⟩)
    · exact ⟨[], mem_star.2 (.inl rfl), rfl⟩
    · obtain ⟨zs, hzs, rfl⟩ := mem_first.1 hks'
      refine ⟨_, mem_star.2 (.inr (mem_both.2 ⟨[.token .vbar, .rule .alternative], ?_, zs, hzs,
        rfl⟩)), rfl⟩
      exact mem_first.2 ⟨_, rfl, rfl⟩

/-- An alternative is one unit, or one and an alternative. -/
theorem mem_body_alternative :
    ks ∈ alternative.body.matches' ↔
      ∃ k, (k = .rule .negatedUnit ∨ k = .rule .unit) ∧
        (ks = [k] ∨ ∃ ks' ∈ alternative.body.matches', k :: ks' = ks) := by
  rw [body, mem_both]
  constructor
  · rintro ⟨xs, hxs, ys, hys, rfl⟩
    obtain ⟨k, hk, rfl⟩ : ∃ k, (k = .rule .negatedUnit ∨ k = .rule .unit) ∧ xs = [k] :=
      hxs.elim (fun h => ⟨_, .inl rfl, h⟩) fun h => ⟨_, .inr rfl, h⟩
    rcases mem_star.1 hys with rfl | hmore
    · exact ⟨k, hk, .inl rfl⟩
    · exact ⟨k, hk, .inr ⟨ys, hmore, rfl⟩⟩
  · rintro ⟨k, hk, hks⟩
    have hunit : [k] ∈ (sub negatedUnit + sub unit).matches' :=
      hk.imp (fun h => congrArg (fun k => [k]) h) fun h => congrArg (fun k => [k]) h
    rcases hks with rfl | ⟨ks', hks', rfl⟩
    · exact ⟨[k], hunit, [], mem_star.2 (.inl rfl), rfl⟩
    · exact ⟨[k], hunit, ks', mem_star.2 (.inr hks'), rfl⟩

theorem mem_body_negatedUnit :
    ks ∈ negatedUnit.body.matches' ↔
      ks = [.token .bang, .rule .optional] ∨ ks = [.token .bang, .rule .basic] := by
  simp only [body, mem_first, mem_either, mem_char, or_and_right, exists_or, exists_eq_left,
    eq_comm]

theorem mem_body_unit :
    ks ∈ unit.body.matches' ↔
      ∃ capture operand, (capture = [] ∨ capture = [.token .name, .token .equal]) ∧
        (operand = [.rule .optional] ∨ operand = [.rule .basic] ∨
          operand = [.rule .basic, .rule .repeater]) ∧ capture ++ operand = ks := by
  have hcapture (xs : List Constituent) : xs ∈ (maybe (tok .name * tok .equal)).matches' ↔
      xs = [] ∨ xs = [.token .name, .token .equal] := by
    simp only [mem_either, mem_empty, mem_first, mem_char, exists_eq_left, eq_comm]
  have hoperand (xs : List Constituent) :
      xs ∈ (sub optional + sub basic * maybe (sub repeater)).matches' ↔
        xs = [.rule .optional] ∨ xs = [.rule .basic] ∨ xs = [.rule .basic, .rule .repeater] := by
    simp only [mem_either, mem_first, mem_empty, mem_char, or_and_right, exists_or, exists_eq_left,
      eq_comm]
  simp only [body, mem_both, hcapture, hoperand]
  constructor
  · rintro ⟨xs, hxs, ys, hys, rfl⟩
    exact ⟨xs, ys, hxs, hys, rfl⟩
  · rintro ⟨xs, ys, hxs, hys, rfl⟩
    exact ⟨xs, hxs, ys, hys, rfl⟩

theorem mem_body_basic :
    ks ∈ basic.body.matches' ↔
      ks = [.token .string] ∨ ks = [.token .name] ∨ ks = [.token .name, .rule .details] ∨
        ks = [.token .lpar, .rule .alternatives, .token .rpar] := by
  simp only [body, mem_first, mem_either, mem_empty, mem_char, or_and_right, exists_or,
    exists_eq_left, or_assoc, eq_comm]

theorem mem_body_optional :
    ks ∈ optional.body.matches' ↔ ks = [.token .lsqb, .rule .alternatives, .token .rsqb] := by
  simp only [body, mem_first, mem_char, exists_eq_left, eq_comm]

theorem mem_body_details :
    ks ∈ details.body.matches' ↔ ks = [.token .less, .rule .alternatives, .token .greater] := by
  simp only [body, mem_first, mem_char, exists_eq_left, eq_comm]

theorem mem_body_repeater :
    ks ∈ repeater.body.matches' ↔
      ks = [.token .star] ∨ ks = [.token .plus] ∨
        ks = [.token .lbrace, .token .number, .token .rbrace] ∨
        ks = [.token .lbrace, .token .number, .token .comma, .token .number, .token .rbrace] := by
  have hclose (xs : List Constituent) :
      xs ∈ (maybe (tok .comma * tok .number) * tok .rbrace).matches' ↔
        xs = [.token .rbrace] ∨ xs = [.token .comma, .token .number, .token .rbrace] := by
    simp only [mem_both, mem_either, mem_empty, mem_char, or_and_right, exists_or, exists_eq_left,
      List.nil_append, List.cons_append, eq_comm]
  simp only [body, mem_either, mem_first, mem_char, hclose, or_and_right, exists_or, exists_eq_left,
    or_assoc, eq_comm]

end Rule

end TreeMatcher
