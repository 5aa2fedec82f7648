import RegularLanguages.Ordered.Set

/-!
# Ordered maps

A finite map that remembers in which order its keys first came in. The states of an automaton and
the transitions of a state are such maps.

* `OrderedMap` -- a list of entries whose keys are pairwise distinct;
* `get?`, `insert`, `insertIfNew`, `modify` -- the operations; `get?_insert` and `keys_insert` say
  what an insertion does to the values and to the order;
* `EquivBy` -- equality up to the order of the entries and up to a relation on the values.
-/

namespace RegularLanguages

/-- A finite map whose entries are kept in the order in which their keys were first inserted. -/
structure OrderedMap (κ ν : Type) where
  /-- The entries, oldest key first. -/
  entries : List (κ × ν)
  /-- No key occurs twice. -/
  nodup : (entries.map Prod.fst).Nodup

namespace OrderedMap

variable {κ ν : Type}

/-! ## 1. Keys and values -/

/-- The keys in order. -/
def keys (m : OrderedMap κ ν) : List κ := m.entries.map Prod.fst

/-- The values in the order of their keys. -/
def values (m : OrderedMap κ ν) : List ν := m.entries.map Prod.snd

/-- The number of entries. -/
def size (m : OrderedMap κ ν) : Nat := m.entries.length

/-- A key belongs to a map if it has an entry. -/
instance : Membership κ (OrderedMap κ ν) := ⟨fun m k => k ∈ m.keys⟩

theorem mem_def {m : OrderedMap κ ν} {k : κ} : k ∈ m ↔ k ∈ m.keys := Iff.rfl

/-- The map without entries. -/
def empty : OrderedMap κ ν := ⟨[], List.nodup_nil⟩

instance : EmptyCollection (OrderedMap κ ν) := ⟨empty⟩

instance : Inhabited (OrderedMap κ ν) := ⟨empty⟩

@[simp] theorem entries_empty : (∅ : OrderedMap κ ν).entries = [] := rfl

@[simp] theorem keys_empty : (∅ : OrderedMap κ ν).keys = [] := rfl

instance [DecidableEq κ] [DecidableEq ν] : DecidableEq (OrderedMap κ ν) := fun m n =>
  if h : m.entries = n.entries then
    isTrue (by cases m; cases n; cases h; rfl)
  else
    isFalse fun e => h (e ▸ rfl)

variable [DecidableEq κ]

instance (m : OrderedMap κ ν) (k : κ) : Decidable (k ∈ m) :=
  inferInstanceAs (Decidable (k ∈ m.keys))

/-- The value stored under a key. -/
def get? (m : OrderedMap κ ν) (k : κ) : Option ν :=
  (m.entries.find? fun e => e.1 = k).map Prod.snd

/-- The position of a key, counted from zero. -/
def indexOf? (m : OrderedMap κ ν) (k : κ) : Option Nat :=
  m.keys.findIdx? (· = k)

@[simp] theorem get?_empty (k : κ) : (∅ : OrderedMap κ ν).get? k = none := rfl

theorem get?_eq_none_iff {m : OrderedMap κ ν} {k : κ} : m.get? k = none ↔ k ∉ m := by
  simp only [get?, Option.map_eq_none_iff, List.find?_eq_none, decide_eq_true_eq, mem_def, keys,
    List.mem_map, not_exists, not_and]

theorem isSome_get?_iff {m : OrderedMap κ ν} {k : κ} : (m.get? k).isSome ↔ k ∈ m := by
  rw [← Decidable.not_iff_not, ← get?_eq_none_iff]
  cases m.get? k <;> simp

/-! ## 2. Insertion -/

/-- The entries after a value was put under a key: in place if the key is there, else at the end.
-/
def insertEntry (k : κ) (v : ν) : List (κ × ν) → List (κ × ν)
  | [] => [(k, v)]
  | e :: es => if e.1 = k then (k, v) :: es else e :: insertEntry k v es

theorem map_fst_insertEntry (k : κ) (v : ν) (es : List (κ × ν)) :
    (insertEntry k v es).map Prod.fst =
      if k ∈ es.map Prod.fst then es.map Prod.fst else es.map Prod.fst ++ [k] := by
  induction es with
  | nil => simp [insertEntry]
  | cons e es ih =>
    by_cases he : e.1 = k
    · simp [insertEntry, he]
    · have hk : k ≠ e.1 := fun h => he h.symm
      by_cases hm : k ∈ es.map Prod.fst <;> simp_all [insertEntry]

/-- Puts a value under a key. A new key comes last, a known key keeps its place. -/
def insert (m : OrderedMap κ ν) (k : κ) (v : ν) : OrderedMap κ ν :=
  ⟨insertEntry k v m.entries, by
    rw [map_fst_insertEntry]
    split
    · exact m.nodup
    · rename_i h
      exact List.nodup_append.2
        ⟨m.nodup, by simp, by intro b hb c hc; simp at hc; subst hc; exact fun e => h (e ▸ hb)⟩⟩

theorem keys_insert (m : OrderedMap κ ν) (k : κ) (v : ν) :
    (m.insert k v).keys = if k ∈ m then m.keys else m.keys ++ [k] :=
  map_fst_insertEntry k v m.entries

theorem find?_insertEntry (k : κ) (v : ν) (l : κ) (es : List (κ × ν)) :
    ((insertEntry k v es).find? fun e => e.1 = l).map Prod.snd =
      if l = k then some v else (es.find? fun e => e.1 = l).map Prod.snd := by
  induction es with
  | nil => by_cases h : l = k <;> simp [insertEntry, h, eq_comm]
  | cons e es ih =>
    by_cases he : e.1 = k
    · by_cases h : l = k
      · simp [insertEntry, he, h]
      · have h' : k ≠ l := fun x => h x.symm
        simp [insertEntry, he, h, h']
    · by_cases h : l = k
      · subst h
        simpa [insertEntry, he] using ih
      · by_cases hl : e.1 = l <;> simp_all [insertEntry]

@[simp] theorem get?_insert (m : OrderedMap κ ν) (k : κ) (v : ν) (l : κ) :
    (m.insert k v).get? l = if l = k then some v else m.get? l :=
  find?_insertEntry k v l m.entries

@[simp] theorem mem_insert {m : OrderedMap κ ν} {k l : κ} {v : ν} :
    l ∈ m.insert k v ↔ l ∈ m ∨ l = k := by
  rw [mem_def, keys_insert]
  split
  · rename_i h
    exact ⟨Or.inl, fun hl => hl.elim id fun e => e ▸ h⟩
  · simp [mem_def]

/-- Puts a value under a key that has none yet; a known key keeps its value. -/
def insertIfNew (m : OrderedMap κ ν) (k : κ) (v : ν) : OrderedMap κ ν :=
  if k ∈ m then m else m.insert k v

theorem get?_insertIfNew (m : OrderedMap κ ν) (k : κ) (v : ν) (l : κ) :
    (m.insertIfNew k v).get? l = if l = k ∧ k ∉ m then some v else m.get? l := by
  simp only [insertIfNew]
  split <;> simp_all

@[simp] theorem mem_insertIfNew {m : OrderedMap κ ν} {k l : κ} {v : ν} :
    l ∈ m.insertIfNew k v ↔ l ∈ m ∨ l = k := by
  simp only [insertIfNew]
  split
  · rename_i h
    exact ⟨Or.inl, fun hl => hl.elim id fun e => e ▸ h⟩
  · simp

/-- Changes the value of a key; nothing happens to a map without the key. -/
def modify (m : OrderedMap κ ν) (k : κ) (f : ν → ν) : OrderedMap κ ν :=
  match m.get? k with
  | some v => m.insert k (f v)
  | none => m

theorem get?_modify (m : OrderedMap κ ν) (k : κ) (f : ν → ν) (l : κ) :
    (m.modify k f).get? l = if l = k then (m.get? l).map f else m.get? l := by
  simp only [modify]
  split
  · rename_i v h
    by_cases hl : l = k <;> simp [hl, h]
  · rename_i h
    by_cases hl : l = k <;> simp [hl, h]

theorem keys_modify (m : OrderedMap κ ν) (k : κ) (f : ν → ν) : (m.modify k f).keys = m.keys := by
  simp only [modify]
  split
  · rename_i v h
    have hk : k ∈ m := isSome_get?_iff.1 (by simp [h])
    simp [keys_insert, hk]
  · rfl

@[simp] theorem mem_modify {m : OrderedMap κ ν} {k l : κ} {f : ν → ν} :
    l ∈ m.modify k f ↔ l ∈ m := by
  simp [mem_def, keys_modify]

/-! ## 3. Equality up to order -/

/-- Two maps have the same keys, and under each key values that the relation `r` accepts. -/
def EquivBy (r : ν → ν → Prop) (m n : OrderedMap κ ν) : Prop :=
  (∀ e ∈ m.entries, ∃ w, w ∈ n.get? e.1 ∧ r e.2 w) ∧ (∀ k ∈ n.keys, k ∈ m)

instance {r : ν → ν → Prop} [∀ v w, Decidable (r v w)] (m n : OrderedMap κ ν) :
    Decidable (m.EquivBy r n) :=
  inferInstanceAs (Decidable
    ((∀ e ∈ m.entries, ∃ w, w ∈ n.get? e.1 ∧ r e.2 w) ∧ (∀ k ∈ n.keys, k ∈ m)))

end OrderedMap

end RegularLanguages
