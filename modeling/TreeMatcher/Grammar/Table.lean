import TreeMatcher.Text.Decimal

/-!
# Tables with ordered keys

A table holds one value per key. Keys that are the canonical decimal numeral of a number up to
`4294967294` come first, in ascending order; the other keys follow in the order in which they first
came. A repeated key keeps its place and takes the last value.

* `Table.insert` puts a value under a key; `Table.ofList` inserts all entries of a list.

## Main results

* `keys_insert` — insertion treats keys alike whatever their values are.
* `lookup?_insert` — a key has the value last put under it; other keys keep theirs.
* `ofList_entries` — the entries of a table, inserted in order, give the table again.
-/

namespace TreeMatcher

/-! ## The order of keys -/

/-- The greatest number whose numeral is ordered as a number. -/
def indexLimit : Nat := 4294967294

/-- The number whose canonical decimal numeral a key is, if it is small enough. -/
def keyIndex? (k : Text) : Option Nat :=
  if k.isDecimal && (k.length == 1 || k.head? != some 0x30) && k.decimalValue ≤ indexLimit then
    some k.decimalValue
  else none

/-- Whether a key stands in front of another one, wherever they came first. -/
def keyBefore (a b : Text) : Bool :=
  match keyIndex? a, keyIndex? b with
  | some i, some j => i < j
  | some _, none => true
  | none, _ => false

theorem keyBefore_trans {a b c : Text} (hab : keyBefore a b) (hbc : keyBefore b c) :
    keyBefore a c := by
  unfold keyBefore at *
  cases ha : keyIndex? a <;> cases hb : keyIndex? b <;> cases hc : keyIndex? c <;>
    simp_all
  omega

theorem keyBefore_asymm {a b : Text} (hab : keyBefore a b) : keyBefore b a = false := by
  unfold keyBefore at *
  cases ha : keyIndex? a <;> cases hb : keyIndex? b <;> simp_all
  omega

/-- Keys without repetition, of which none should stand in front of an earlier one. -/
def OrderedKeys (ks : List Text) : Prop :=
  ks.Pairwise fun a b => a ≠ b ∧ keyBefore b a = false

/-- Where a key goes among other keys. -/
def insertKey (k : Text) : List Text → List Text
  | [] => [k]
  | k' :: ks =>
    if k' = k then k' :: ks
    else if keyBefore k k' then k :: k' :: ks
    else k' :: insertKey k ks

theorem mem_insertKey {k a : Text} {ks : List Text} : a ∈ insertKey k ks ↔ a = k ∨ a ∈ ks := by
  induction ks with
  | nil => simp [insertKey]
  | cons k' ks ih =>
    unfold insertKey
    split
    · next h => subst h; simp
    · split
      · simp
      · simp only [List.mem_cons, ih]
        exact or_left_comm

theorem OrderedKeys.insertKey {ks : List Text} (h : OrderedKeys ks) (k : Text) :
    OrderedKeys (insertKey k ks) := by
  unfold OrderedKeys at *
  induction ks with
  | nil => simp [TreeMatcher.insertKey]
  | cons k' ks ih =>
    have hp := List.pairwise_cons.1 h
    unfold TreeMatcher.insertKey
    split
    · exact h
    · next hne =>
      split
      · next hlt =>
        refine List.pairwise_cons.2 ⟨fun b hb => ?_, h⟩
        rcases List.mem_cons.1 hb with rfl | hb
        · exact ⟨fun he => hne he.symm, keyBefore_asymm hlt⟩
        · have hb' := (hp.1 b hb).2
          have hnot : ∀ c, keyBefore c k = true → c ∈ ks → False := fun c hc hm => by
            have := keyBefore_trans hc hlt
            rw [(hp.1 c hm).2] at this
            exact Bool.false_ne_true this
          refine ⟨?_, ?_⟩
          · rintro rfl
            rw [hb'] at hlt
            exact Bool.false_ne_true hlt
          · cases hbk : keyBefore b k
            · rfl
            · exact (hnot b hbk hb).elim
      · next hnlt =>
        refine List.pairwise_cons.2 ⟨fun b hb => ?_, ih hp.2⟩
        rcases mem_insertKey.1 hb with rfl | hb
        · exact ⟨hne, by simpa using hnlt⟩
        · exact hp.1 b hb

/-! ## Tables -/

/-- A table with ordered keys. -/
structure Table (α : Type) where
  entries : List (Text × α)
  ordered : OrderedKeys (entries.map Prod.fst)

namespace Table

variable {α : Type}

/-- The keys of a table, in order. -/
def keys (t : Table α) : List Text := t.entries.map Prod.fst

/-- The value under a key. -/
def lookup? (t : Table α) (k : Text) : Option α := t.entries.lookup k

/-- The table without entries. -/
def empty : Table α := ⟨[], List.Pairwise.nil⟩

/-- A value put under a key, in a list of entries. -/
def insertEntry (k : Text) (v : α) : List (Text × α) → List (Text × α)
  | [] => [(k, v)]
  | (k', v') :: es =>
    if k' = k then (k', v) :: es
    else if keyBefore k k' then (k, v) :: (k', v') :: es
    else (k', v') :: insertEntry k v es

theorem keys_insertEntry (k : Text) (v : α) (es : List (Text × α)) :
    (insertEntry k v es).map Prod.fst = insertKey k (es.map Prod.fst) := by
  induction es with
  | nil => rfl
  | cons e es ih =>
    simp only [insertEntry, List.map_cons, insertKey]
    split
    · rfl
    · split
      · rfl
      · rw [List.map_cons, ih]

/-- A value put under a key. -/
def insert (t : Table α) (k : Text) (v : α) : Table α :=
  ⟨insertEntry k v t.entries, by rw [keys_insertEntry]; exact t.ordered.insertKey k⟩

/-- The table of a list of entries. -/
def ofList (es : List (Text × α)) : Table α := es.foldl (fun t e => t.insert e.1 e.2) empty

theorem keys_insert (t : Table α) (k : Text) (v : α) :
    (t.insert k v).keys = insertKey k t.keys :=
  keys_insertEntry k v t.entries

theorem lookup_cons_eq_ite (e : Text × α) (es : List (Text × α)) (a : Text) :
    (e :: es).lookup a = if a = e.1 then some e.2 else es.lookup a := by
  obtain ⟨k, v⟩ := e
  rw [List.lookup_cons]
  cases h : a == k with
  | true => simp [beq_iff_eq.1 h]
  | false => simp [beq_eq_false_iff_ne.1 h]

theorem lookup_insertEntry (es : List (Text × α)) (k a : Text) (v : α) :
    (insertEntry k v es).lookup a = if a = k then some v else es.lookup a := by
  induction es with
  | nil => rw [insertEntry, lookup_cons_eq_ite]
  | cons e es ih =>
    simp only [insertEntry]
    by_cases hk : e.1 = k
    · rw [if_pos hk, lookup_cons_eq_ite, lookup_cons_eq_ite, ← hk]
      by_cases h : a = e.1 <;> simp [h]
    · rw [if_neg hk]
      by_cases hlt : keyBefore k e.1
      · rw [if_pos hlt, lookup_cons_eq_ite]
      · rw [if_neg hlt, lookup_cons_eq_ite, lookup_cons_eq_ite, ih]
        by_cases h : a = e.1
        · simp [h, hk]
        · simp [h]

theorem lookup?_insert (t : Table α) (k a : Text) (v : α) :
    (t.insert k v).lookup? a = if a = k then some v else t.lookup? a :=
  lookup_insertEntry t.entries k a v

theorem insertEntry_append {k : Text} {v : α} {es : List (Text × α)}
    (h : OrderedKeys ((es ++ [(k, v)]).map Prod.fst)) : insertEntry k v es = es ++ [(k, v)] := by
  induction es with
  | nil => rfl
  | cons e es ih =>
    simp only [List.cons_append, List.map_cons, OrderedKeys, List.pairwise_cons] at h
    have hk := h.1 k (by simp)
    rw [insertEntry, if_neg hk.1, if_neg (by simp [hk.2]), ih h.2]
    rfl

theorem foldl_insert_entries (es : List (Text × α)) (t : Table α)
    (h : OrderedKeys ((t.entries ++ es).map Prod.fst)) :
    (es.foldl (fun t e => t.insert e.1 e.2) t).entries = t.entries ++ es := by
  induction es generalizing t with
  | nil => simp
  | cons e es ih =>
    have hfirst : OrderedKeys ((t.entries ++ [(e.1, e.2)]).map Prod.fst) := by
      refine List.Pairwise.sublist ?_ h
      simp
    have hins : (t.insert e.1 e.2).entries = t.entries ++ [(e.1, e.2)] :=
      insertEntry_append hfirst
    rw [List.foldl_cons, ih _ (by rw [hins]; simpa using h), hins]
    simp

theorem entries_ofList {es : List (Text × α)} (h : OrderedKeys (es.map Prod.fst)) :
    (ofList es).entries = es := by
  unfold ofList
  rw [foldl_insert_entries es empty (by simpa [empty] using h)]
  simp [empty]

theorem ofList_entries (t : Table α) : ofList t.entries = t := by
  have h := entries_ofList t.ordered
  cases t
  cases h' : ofList _
  simp_all

end Table

end TreeMatcher
