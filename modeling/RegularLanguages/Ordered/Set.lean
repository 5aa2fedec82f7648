/-!
# Ordered sets

A finite set that remembers in which order its members first came in. Alphabets, accepting states
and the targets of a transition are such sets: their order is visible wherever an automaton is
printed or walked, and inserting a member that is already there changes nothing.

* `OrderedSet` -- a list without duplicates;
* `insert`, `erase`, `ofList`, `append` -- the operations, each with the lemma that says what it
  does to `toList` or to membership;
* `Equiv` (written `≈`) -- equality that ignores the order.
-/

namespace RegularLanguages

/-- A finite set whose members are kept in the order of their first insertion. -/
structure OrderedSet (α : Type) where
  /-- The members, oldest first. -/
  toList : List α
  /-- No member occurs twice. -/
  nodup : toList.Nodup

namespace OrderedSet

variable {α : Type}

/-! ## 1. Members -/

instance : Membership α (OrderedSet α) := ⟨fun s a => a ∈ s.toList⟩

theorem mem_def {s : OrderedSet α} {a : α} : a ∈ s ↔ a ∈ s.toList := Iff.rfl

instance [DecidableEq α] (s : OrderedSet α) (a : α) : Decidable (a ∈ s) :=
  inferInstanceAs (Decidable (a ∈ s.toList))

instance [DecidableEq α] : DecidableEq (OrderedSet α) := fun s t =>
  if h : s.toList = t.toList then
    isTrue (by cases s; cases t; cases h; rfl)
  else
    isFalse fun e => h (e ▸ rfl)

/-- The set without members. -/
def empty : OrderedSet α := ⟨[], List.nodup_nil⟩

instance : EmptyCollection (OrderedSet α) := ⟨empty⟩

instance : Inhabited (OrderedSet α) := ⟨empty⟩

@[simp] theorem toList_empty : (∅ : OrderedSet α).toList = [] := rfl

@[simp] theorem not_mem_empty (a : α) : a ∉ (∅ : OrderedSet α) := by simp [mem_def]

/-- The number of members. -/
def size (s : OrderedSet α) : Nat := s.toList.length

/-! ## 2. Insertion and removal -/

variable [DecidableEq α]

/-- Puts a new member behind all others; a member that is there already keeps its place. -/
def insert (s : OrderedSet α) (a : α) : OrderedSet α :=
  if h : a ∈ s.toList then s
  else ⟨s.toList ++ [a], List.nodup_append.2
    ⟨s.nodup, by simp, by intro b hb c hc; simp at hc; subst hc; exact fun e => h (e ▸ hb)⟩⟩

theorem toList_insert (s : OrderedSet α) (a : α) :
    (s.insert a).toList = if a ∈ s then s.toList else s.toList ++ [a] := by
  simp only [insert, mem_def]
  split <;> simp_all

@[simp] theorem mem_insert {s : OrderedSet α} {a b : α} : b ∈ s.insert a ↔ b ∈ s ∨ b = a := by
  simp only [mem_def, toList_insert]
  split
  · rename_i h
    exact ⟨Or.inl, fun hb => hb.elim id fun e => e ▸ h⟩
  · simp

theorem insert_of_mem {s : OrderedSet α} {a : α} (h : a ∈ s) : s.insert a = s := by
  simp only [insert, mem_def] at *
  simp [h]

/-- Takes a member out; the others keep their order. -/
def erase (s : OrderedSet α) (a : α) : OrderedSet α :=
  ⟨s.toList.filter (· ≠ a), s.nodup.sublist List.filter_sublist⟩

@[simp] theorem mem_erase {s : OrderedSet α} {a b : α} : b ∈ s.erase a ↔ b ∈ s ∧ b ≠ a := by
  simp [mem_def, erase]

/-- Inserts the elements of a list one after the other. -/
def append (s : OrderedSet α) (l : List α) : OrderedSet α := l.foldl insert s

@[simp] theorem append_nil (s : OrderedSet α) : s.append [] = s := rfl

@[simp] theorem append_cons (s : OrderedSet α) (a : α) (l : List α) :
    s.append (a :: l) = (s.insert a).append l := rfl

@[simp] theorem mem_append {s : OrderedSet α} {l : List α} {a : α} :
    a ∈ s.append l ↔ a ∈ s ∨ a ∈ l := by
  induction l generalizing s with
  | nil => simp
  | cons b l ih => simp [ih, or_assoc]

/-- What was in the set before stays in front. -/
theorem toList_prefix_insert (s : OrderedSet α) (a : α) : s.toList <+: (s.insert a).toList := by
  rw [toList_insert]
  split
  · exact List.prefix_refl _
  · exact List.prefix_append _ _

theorem toList_prefix_append (s : OrderedSet α) (l : List α) :
    s.toList <+: (s.append l).toList := by
  induction l generalizing s with
  | nil => exact List.prefix_refl _
  | cons a l ih => exact (s.toList_prefix_insert a).trans (ih (s.insert a))

/-- The elements of a list in order of first occurrence. -/
def ofList (l : List α) : OrderedSet α := (∅ : OrderedSet α).append l

@[simp] theorem mem_ofList {l : List α} {a : α} : a ∈ ofList l ↔ a ∈ l := by
  simp [ofList]

/-! ## 3. Equality up to order -/

/-- Two ordered sets are equivalent if they have the same members. -/
protected def Equiv (s t : OrderedSet α) : Prop :=
  (∀ a ∈ s.toList, a ∈ t) ∧ (∀ a ∈ t.toList, a ∈ s)

instance : HasEquiv (OrderedSet α) := ⟨OrderedSet.Equiv⟩

instance (s t : OrderedSet α) : Decidable (s ≈ t) :=
  inferInstanceAs (Decidable ((∀ a ∈ s.toList, a ∈ t) ∧ (∀ a ∈ t.toList, a ∈ s)))

omit [DecidableEq α] in
theorem equiv_iff {s t : OrderedSet α} : s ≈ t ↔ ∀ a, a ∈ s ↔ a ∈ t :=
  ⟨fun h a => ⟨h.1 a, h.2 a⟩, fun h => ⟨fun a ha => (h a).1 ha, fun a ha => (h a).2 ha⟩⟩

omit [DecidableEq α] in
theorem equiv_trans {s t u : OrderedSet α} (h : s ≈ t) (h' : t ≈ u) : s ≈ u :=
  equiv_iff.2 fun a => (equiv_iff.1 h a).trans (equiv_iff.1 h' a)

end OrderedSet

end RegularLanguages
