import TreeMatcher.Proofs.Pattern.Syntax

/-!
# Grouped children and their order

A parser that is generated from rules gives an element for each rule: the tokens and elements read,
grouped by their keys in the order in which the keys first appear. A group holds its members in
source order, but the order between the groups is lost: the alternatives of a choice come first, and
then all the bars. The pattern tree is made by sorting the children of an element by the offset of
their first tokens, and by putting the children of basic patterns and optional groups in the place
of the elements themselves.

Three checks guard against elements that no parser gives: an element without tokens, a rule that is
not known, and a root that is no matcher.

* `Element` — an element, with its children in groups.
* `patternTree` — the tree of a root, or the check that fails.
* `Yields`, `YieldsEach` — the tokens that elements begin with, and the trees that they contribute.

## Main results

* `arrange_eq_ok` — children that stand one behind the other are arranged as they stand.
* `YieldsEach.joined_eq` — grouped children are put back into source order.
-/

namespace TreeMatcher

/-! ## Elements -/

/-- What a rule reads, or a token. -/
inductive Element where
  | token (t : Token)
  | rule (name : Text) (groups : List (List Element))

/-- A check on elements that fails. -/
inductive ElementError where
  /-- An element without tokens. -/
  | emptyElement (name : Text)
  /-- A rule that is not known. -/
  | unknownRule (name : Text)
  /-- A root that is no matcher. -/
  | notMatcher (name : Text)
deriving DecidableEq, Repr

/-- The wording of a check that fails. -/
def ElementError.message : ElementError → Text
  | emptyElement name => "Empty CST node \"" ++ name ++ "\""
  | unknownRule name => "Unknown grammar rule \"" ++ name ++ "\""
  | notMatcher name => "Expected a matcher rule, got \"" ++ name ++ "\""

/-- The rules and their phrases; the children of the last two take the place of the element. -/
def rules : List (Text × Option Phrase) :=
  [("matcher", some .matcher), ("alternatives", some .alternatives),
   ("alternative", some .alternative), ("negatedUnit", some .negatedUnit), ("unit", some .unit),
   ("repeater", some .repeater), ("details", some .details), ("basic", none), ("optional", none)]

namespace Element

/-! ## Groups -/

/-- The key of a child: the kind of a token, the name of a rule. -/
def key : Element → Text
  | token t => t.kind.label
  | rule name _ => name

/-- A child is put at the end of the group of its key, or into a new group behind the others. -/
def push (e : Element) : List (List Element) → List (List Element)
  | [] => [[e]]
  | es :: gs => if es.head?.map key = some e.key then (es ++ [e]) :: gs else es :: push e gs

/-- Children as a parser groups them, one after the other. -/
def grouped (es : List Element) : List (List Element) := es.foldl (fun gs e => push e gs) []

/-! ## The first token -/

mutual

/-- The first token of an element: that of the first child in its first group. -/
def first? : Element → Option Token
  | token t => some t
  | rule _ groups => firstOfGroups? groups

/-- The first token of the first child in the first group that has one. -/
def firstOfGroups? : List (List Element) → Option Token
  | [] => none
  | es :: gs => if es.isEmpty then firstOfGroups? gs else firstOfGroup? es

/-- The first token of the first child. -/
def firstOfGroup? : List Element → Option Token
  | [] => none
  | e :: _ => first? e

end

/-- The offset of the first token. -/
def offset : Element → Except ElementError Nat
  | token t => .ok t.offset
  | rule name groups =>
    match first? (.rule name groups) with
    | some t => .ok t.offset
    | none => .error (.emptyElement name)

/-! ## Conversion -/

/-- What an element is converted to: where it stands, and the trees that it contributes. -/
structure Converted where
  offset : Except ElementError Nat
  trees : Except ElementError (List Tree)

/-- Children in the order of their offsets; one alone is not looked at. -/
def arrange : List Converted → Except ElementError (List Converted)
  | [] => .ok []
  | [c] => .ok [c]
  | cs => do
    let located ← cs.mapM fun c => c.offset.map fun o => (o, c)
    pure ((located.mergeSort fun a b => a.1 ≤ b.1).map Prod.snd)

/-- The trees of children, in source order. -/
def joined (cs : List Converted) : Except ElementError (List Tree) := do
  let cs ← arrange cs
  let ts ← cs.mapM Converted.trees
  pure ts.flatten

mutual

/-- An element converted. -/
def converted : Element → Converted
  | token t => ⟨.ok t.offset, .ok [.ofToken t]⟩
  | rule name groups =>
    ⟨offset (.rule name groups),
      match rules.lookup name with
      | none => .error (.unknownRule name)
      | some none => joined (convertedGroups groups)
      | some (some p) => (joined (convertedGroups groups)).map fun ts => [.phrase p ts]⟩

/-- The children in some groups converted, group by group. -/
def convertedGroups : List (List Element) → List Converted
  | [] => []
  | es :: gs => convertedGroup es ++ convertedGroups gs

/-- The children in a group converted. -/
def convertedGroup : List Element → List Converted
  | [] => []
  | e :: es => converted e :: convertedGroup es

end

end Element

/-- The pattern tree of a root, from its rule and its children. -/
def patternTree (name : Text) (groups : List (List Element)) : Except ElementError Tree :=
  if rules.lookup name = some (some .matcher) then
    (Element.joined (Element.convertedGroups groups)).map (.phrase .matcher)
  else .error (.notMatcher name)

/-- The element of a rule that has read some children. -/
def Element.of (name : Text) (es : List Element) : Element := .rule name (grouped es)

/-! ## Grouping loses nothing -/

namespace Element

private theorem flatten_push (e : Element) (gs : List (List Element)) :
    (push e gs).flatten.Perm (gs.flatten ++ [e]) := by
  induction gs with
  | nil => simp [push]
  | cons es gs ih =>
    rw [push]
    split
    · rw [List.flatten_cons, List.flatten_cons, List.append_assoc, List.append_assoc]
      exact (List.perm_append_comm).append_left es
    · rw [List.flatten_cons, List.flatten_cons, List.append_assoc]
      exact ih.append_left es

private theorem flatten_foldl_push (es : List Element) (gs : List (List Element)) :
    (es.foldl (fun gs e => push e gs) gs).flatten.Perm (gs.flatten ++ es) := by
  induction es generalizing gs with
  | nil => simp
  | cons e es ih =>
    refine (ih (push e gs)).trans ?_
    rw [List.append_cons]
    exact (flatten_push e gs).append_right es

/-- The groups together hold the children. -/
private theorem flatten_grouped (es : List Element) : (grouped es).flatten.Perm es :=
  flatten_foldl_push es []

private theorem firstOfGroups?_push {e : Element} {gs : List (List Element)} {t : Token}
    (h : firstOfGroups? gs = some t) : firstOfGroups? (push e gs) = some t := by
  induction gs with
  | nil => cases h
  | cons es gs ih =>
    rw [push]
    rw [firstOfGroups?] at h
    split at h
    · next hnil =>
      rw [List.isEmpty_iff] at hnil
      subst hnil
      rw [if_neg (by simp), firstOfGroups?, if_pos List.isEmpty_nil, ih h]
    · next hne =>
      obtain ⟨x, xs, rfl⟩ := List.exists_cons_of_ne_nil (mt List.isEmpty_iff.2 hne)
      rw [firstOfGroup?] at h
      split
      · rw [List.cons_append, firstOfGroups?, if_neg (by simp), firstOfGroup?, h]
      · rw [firstOfGroups?, if_neg (by simp), firstOfGroup?, h]

/-- The first token of the groups is that of the first child. -/
private theorem firstOfGroups?_grouped {e : Element} {t : Token} (h : e.first? = some t)
    (es : List Element) : firstOfGroups? (grouped (e :: es)) = some t := by
  have hfold : ∀ (es : List Element) (gs : List (List Element)), firstOfGroups? gs = some t →
      firstOfGroups? (es.foldl (fun gs e => push e gs) gs) = some t := by
    intro es
    induction es with
    | nil => exact fun _ h => h
    | cons x es ih => exact fun gs h => ih _ (firstOfGroups?_push h)
  rw [grouped, List.foldl_cons]
  refine hfold es _ ?_
  rw [push, firstOfGroups?, if_neg (by simp), firstOfGroup?, h]

private theorem convertedGroup_eq_map (es : List Element) :
    convertedGroup es = es.map converted := by
  induction es with
  | nil => rfl
  | cons e es ih => rw [convertedGroup, ih, List.map_cons]

private theorem convertedGroups_eq_map (gs : List (List Element)) :
    convertedGroups gs = gs.flatten.map converted := by
  induction gs with
  | nil => rfl
  | cons es gs ih =>
    rw [convertedGroups, ih, convertedGroup_eq_map, List.flatten_cons, List.map_append]

/-! ## Sorting puts children back into source order -/

private theorem mapM_eq_ok {α β ε : Type} {f : α → Except ε β} {g : α → β} {as : List α}
    (h : ∀ a ∈ as, f a = .ok (g a)) : as.mapM f = .ok (as.map g) := by
  induction as with
  | nil => rfl
  | cons a as ih =>
    rw [List.forall_mem_cons] at h
    rw [List.mapM_cons, h.1, ih h.2]
    rfl

/-- Sorting puts children that stand one behind the other in that order. -/
private theorem mergeSort_located {cs ds : List Converted} {k : Converted → Nat}
    (hperm : cs.Perm ds) (horder : ds.Pairwise fun a b => k a < k b) :
    (cs.map fun d => (k d, d)).mergeSort (fun a b => a.1 ≤ b.1) = ds.map fun d => (k d, d) := by
  have hinj : ∀ ⦃a⦄, a ∈ ds → ∀ ⦃b⦄, b ∈ ds → k a = k b → a = b :=
    List.Pairwise.forall_of_forall_of_flip (fun _ _ _ => rfl)
      (horder.imp fun hlt heq => absurd heq (Nat.ne_of_lt hlt))
      (horder.imp fun hlt heq => absurd heq.symm (Nat.ne_of_lt hlt))
  have hsorted : ((cs.map fun d => (k d, d)).mergeSort fun a b => a.1 ≤ b.1).Pairwise
      fun a b => decide (a.1 ≤ b.1) := by
    refine List.pairwise_mergeSort (fun a b c hab hbc => ?_) (fun a b => ?_) _
    · exact decide_eq_true (Nat.le_trans (of_decide_eq_true hab) (of_decide_eq_true hbc))
    · simpa using Nat.le_total a.1 b.1
  have hsame := (List.mergeSort_perm (cs.map fun d => (k d, d)) fun a b => a.1 ≤ b.1).trans
    (hperm.map fun d => (k d, d))
  refine hsame.eq_of_pairwise (fun a b ha hb hab hba => ?_) (hsorted.imp of_decide_eq_true)
    (List.pairwise_map.2 (horder.imp Nat.le_of_lt))
  obtain ⟨d, hd, rfl⟩ := List.mem_map.1 (hsame.mem_iff.1 ha)
  obtain ⟨d', hd', rfl⟩ := List.mem_map.1 hb
  rw [hinj hd hd' (Nat.le_antisymm hab hba)]

/-- Children that stand one behind the other, in any order, are arranged as they stand. -/
theorem arrange_eq_ok {cs ds : List Converted} {k : Converted → Nat} (hperm : cs.Perm ds)
    (hoffset : ∀ d ∈ ds, d.offset = .ok (k d)) (horder : ds.Pairwise fun a b => k a < k b) :
    arrange cs = .ok ds := by
  match cs, hperm with
  | [], hperm => rw [List.nil_perm.1 hperm]; rfl
  | [c], hperm => rw [List.perm_singleton.1 hperm.symm]; rfl
  | c :: c' :: cs, hperm =>
    have hlocated : (c :: c' :: cs).mapM (fun c => c.offset.map fun o => (o, c)) =
        .ok ((c :: c' :: cs).map fun d => (k d, d)) :=
      mapM_eq_ok fun d hd => by rw [hoffset d (hperm.mem_iff.1 hd)]; rfl
    have hsnd : (ds.map fun d => (k d, d)).map Prod.snd = ds := by simp [Function.comp_def]
    rw [← hsnd, ← mergeSort_located hperm horder]
    unfold arrange
    dsimp only
    rw [hlocated]
    rfl

/-! ## What elements yield -/

/-- Tokens that stand one behind the other. -/
def InOrder (ts : List Token) : Prop := ts.Pairwise fun a b => a.offset < b.offset

theorem InOrder.left {ts us : List Token} (h : InOrder (ts ++ us)) : InOrder ts :=
  (List.pairwise_append.1 h).1

theorem InOrder.right {ts us : List Token} (h : InOrder (ts ++ us)) : InOrder us :=
  (List.pairwise_append.1 h).2.1

theorem InOrder.tail {t : Token} {ts : List Token} (h : InOrder (t :: ts)) : InOrder ts :=
  h.of_cons

/-- An element begins with the first of some tokens and contributes some trees. -/
structure Yields (e : Element) (ts : List Token) (trees : List Tree) : Prop where
  first : ∃ t ∈ ts.head?, e.first? = some t
  trees_eq : e.converted.trees = .ok trees

/-- Elements in a row, with their tokens and trees. -/
inductive YieldsEach : List Element → List Token → List Tree → Prop where
  | nil : YieldsEach [] [] []
  | cons {e : Element} {es : List Element} {ts us : List Token} {trees trees' : List Tree}
      (h : e.Yields ts trees) (hs : YieldsEach es us trees') :
      YieldsEach (e :: es) (ts ++ us) (trees ++ trees')

/-- Where a converted element stands. -/
def Converted.place (c : Converted) : Nat :=
  match c.offset with
  | .ok n => n
  | .error _ => 0

private theorem offset_of_first? {e : Element} {t : Token} (h : e.first? = some t) :
    e.converted.offset = .ok t.offset := by
  cases e with
  | token u =>
    cases h
    rfl
  | rule name groups => rw [converted, offset, h]

private theorem Yields.exists_place {e : Element} {ts : List Token} {trees : List Tree}
    (h : e.Yields ts trees) :
    ∃ t ∈ ts.head?, e.converted.offset = .ok t.offset ∧ e.converted.place = t.offset := by
  obtain ⟨t, ht, hfirst⟩ := h.first
  have hoffset := offset_of_first? hfirst
  exact ⟨t, ht, hoffset, by rw [Converted.place, hoffset]⟩

theorem yields_token (t : Token) : (token t).Yields [t] [.ofToken t] :=
  ⟨⟨t, rfl, rfl⟩, rfl⟩

namespace YieldsEach

variable {es : List Element} {ts : List Token} {trees : List Tree}

theorem single {e : Element} (h : e.Yields ts trees) : YieldsEach [e] ts trees := by
  simpa using cons h nil

theorem append {es' : List Element} {ts' : List Token} {trees' : List Tree}
    (h : YieldsEach es ts trees) (h' : YieldsEach es' ts' trees') :
    YieldsEach (es ++ es') (ts ++ ts') (trees ++ trees') := by
  induction h with
  | nil => exact h'
  | cons he _ ih =>
    rw [List.append_assoc, List.append_assoc]
    exact cons he ih

private theorem exists_place (h : YieldsEach es ts trees) :
    ∀ e ∈ es, ∃ t ∈ ts, e.converted.offset = .ok t.offset ∧ e.converted.place = t.offset := by
  induction h with
  | nil => simp
  | cons he _ ih =>
    rw [List.forall_mem_cons]
    constructor
    · obtain ⟨t, ht, hplace⟩ := he.exists_place
      exact ⟨t, List.mem_append_left _ (List.mem_of_mem_head? ht), hplace⟩
    · intro e hmem
      obtain ⟨t, ht, hplace⟩ := ih e hmem
      exact ⟨t, List.mem_append_right _ ht, hplace⟩

/-- Where the tokens stand one behind the other, so do the elements. -/
private theorem pairwise_place (h : YieldsEach es ts trees)
    (horder : InOrder ts) :
    (es.map converted).Pairwise fun a b => a.place < b.place := by
  induction h with
  | nil => exact .nil
  | cons he hs ih =>
    obtain ⟨-, hrest, hbefore⟩ := List.pairwise_append.1 horder
    refine List.pairwise_cons.2 ⟨fun c hc => ?_, ih hrest⟩
    obtain ⟨e, hmem, rfl⟩ := List.mem_map.1 hc
    obtain ⟨t, ht, -, hplace⟩ := he.exists_place
    obtain ⟨u, hu, -, hplace'⟩ := hs.exists_place e hmem
    rw [hplace, hplace']
    exact hbefore t (List.mem_of_mem_head? ht) u hu

private theorem mapM_trees (h : YieldsEach es ts trees) :
    ∃ tss, (es.map converted).mapM Converted.trees = .ok tss ∧ tss.flatten = trees := by
  induction h with
  | nil => exact ⟨[], rfl, rfl⟩
  | cons he _ ih =>
    obtain ⟨tss, hmapM, hflatten⟩ := ih
    refine ⟨_ :: tss, ?_, by rw [List.flatten_cons, hflatten]⟩
    rw [List.map_cons, List.mapM_cons, he.trees_eq, hmapM]
    rfl

/-- Sorting puts grouped children back into source order, and no check fails. -/
theorem joined_eq (h : YieldsEach es ts trees)
    (horder : InOrder ts) :
    joined (convertedGroups (grouped es)) = .ok trees := by
  have hperm : (convertedGroups (grouped es)).Perm (es.map converted) := by
    rw [convertedGroups_eq_map]
    exact (flatten_grouped es).map converted
  have hoffset : ∀ d ∈ es.map converted, d.offset = .ok d.place := by
    intro d hd
    obtain ⟨e, hmem, rfl⟩ := List.mem_map.1 hd
    obtain ⟨t, -, hoffset, hplace⟩ := h.exists_place e hmem
    rw [hoffset, hplace]
  obtain ⟨tss, hmapM, hflatten⟩ := h.mapM_trees
  rw [joined, arrange_eq_ok hperm hoffset (h.pairwise_place horder)]
  show ((es.map converted).mapM Converted.trees).bind (fun ts => .ok ts.flatten) = .ok trees
  rw [hmapM, ← hflatten]
  rfl

private theorem first (h : YieldsEach es ts trees) (hne : es ≠ []) :
    ∃ t ∈ ts.head?, firstOfGroups? (grouped es) = some t := by
  cases h with
  | nil => exact absurd rfl hne
  | @cons e es ts us _ _ he hs =>
    obtain ⟨t, ht, hfirst⟩ := he.first
    refine ⟨t, ?_, firstOfGroups?_grouped hfirst es⟩
    rw [List.head?_append, Option.mem_def.1 ht]
    rfl

/-- The element of a rule with a phrase of its own. -/
theorem phrase (h : YieldsEach es ts trees) (hne : es ≠ [])
    (horder : InOrder ts) {name : Text} {p : Phrase}
    (hname : rules.lookup name = some (some p)) :
    (Element.of name es).Yields ts [.phrase p trees] := by
  refine ⟨h.first hne, ?_⟩
  rw [Element.of, converted, hname, h.joined_eq horder]
  rfl

/-- The element of a rule whose children take its place. -/
theorem inlined (h : YieldsEach es ts trees) (hne : es ≠ [])
    (horder : InOrder ts) {name : Text}
    (hname : rules.lookup name = some none) : (Element.of name es).Yields ts trees := by
  refine ⟨h.first hne, ?_⟩
  rw [Element.of, converted, hname]
  exact h.joined_eq horder

end YieldsEach

end Element

end TreeMatcher
