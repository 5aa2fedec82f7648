import Mathlib.Data.List.Forall2
import RegularLanguages.Ordered.Exploration
import RegularLanguages.Ordered.Map

/-!
# Corresponding sets, maps and searches

A relation that pairs each element of one type with at most one of another, and the other way
round, cannot tell two searches apart that proceed by paired steps: what they find corresponds,
member by member and in the same order.

* `OrderedSet.Corresponds`, `OrderedMap.Corresponds` -- sets and maps whose entries correspond in
  order, and that insertions and look-ups respect it;
* `explore_eq_of_bounds` -- an exploration does not depend on its bound, if that is not too small;
* `corresponds_explore` -- **searches along corresponding successors find corresponding elements in
  the same order**.
-/

namespace RegularLanguages

variable {α β ν : Type} [DecidableEq α] [DecidableEq β] {r : α → β → Prop} {x : α} {y : β}

omit [DecidableEq α] [DecidableEq β] in
theorem rel_getElem? {l : List α} {m : List β} (h : List.Forall₂ r l m) (i : Nat) :
    Option.Rel r l[i]? m[i]? := by
  induction h generalizing i with
  | nil => exact .none
  | cons hxy _ ih =>
    cases i with
    | zero => exact .some hxy
    | succ i => exact ih i

/-! ## 1. Sets -/

namespace OrderedSet

variable {s : OrderedSet α} {t : OrderedSet β}

/-- Two ordered sets correspond if their members do, in order. -/
def Corresponds (r : α → β → Prop) (s : OrderedSet α) (t : OrderedSet β) : Prop :=
  List.Forall₂ r s.toList t.toList

theorem Corresponds.insert (hr : Relator.BiUnique r) (h : Corresponds r s t) (hxy : r x y) :
    Corresponds r (s.insert x) (t.insert y) := by
  have hmem : x ∈ s ↔ y ∈ t := List.rel_mem hr hxy h
  rw [Corresponds, toList_insert, toList_insert]
  by_cases hx : x ∈ s
  · rw [if_pos hx, if_pos (hmem.1 hx)]
    exact h
  · rw [if_neg hx, if_neg (mt hmem.2 hx)]
    exact List.rel_append h (.cons hxy .nil)

theorem Corresponds.append (hr : Relator.BiUnique r) {l : List α} {m : List β}
    (hl : List.Forall₂ r l m) (h : Corresponds r s t) :
    Corresponds r (s.append l) (t.append m) := by
  induction hl generalizing s t with
  | nil => exact h
  | cons hxy _ ih => exact ih (h.insert hr hxy)

end OrderedSet

/-! ## 2. Searches -/

/-- A search whose steps suffice for all that can be reached stops before it has used them up, so
further steps change nothing. -/
theorem exploreFrom_add {next : α → List α} {init : List α} {bound : Nat}
    (hb : BoundsReach next init bound) (k : Nat) : ∀ {steps i : Nat} {seen : OrderedSet α},
      (∀ b ∈ seen, Reaches next init b) → bound ≤ steps + i →
        exploreFrom next (steps + k) i seen = exploreFrom next steps i seen
  | 0, i, seen, hs, hi => by
    have hlen : seen.toList.length ≤ bound := hb seen.toList seen.nodup hs
    have hnone : seen.toList[i]? = none := List.getElem?_eq_none_iff.2 (by omega)
    cases k with
    | zero => rfl
    | succ k => rw [Nat.zero_add, exploreFrom, exploreFrom, hnone]
  | steps + 1, i, seen, hs, hi => by
    rw [Nat.add_right_comm, exploreFrom, exploreFrom]
    cases hget : seen.toList[i]? with
    | none => rfl
    | some b =>
      refine exploreFrom_add hb k (fun c hc => ?_) (by omega)
      rcases OrderedSet.mem_append.1 hc with hc | hc
      · exact hs c hc
      · exact .step (hs b (List.mem_of_getElem? hget)) hc

/-- **An exploration does not depend on its bound**, if that is not too small. -/
theorem explore_eq_of_bounds {next : α → List α} {init : List α} {bound n : Nat}
    (hb : BoundsReach next init bound) (hn : bound ≤ n) :
    explore next n init = explore next bound init := by
  obtain ⟨k, rfl⟩ := Nat.exists_eq_add_of_le hn
  exact exploreFrom_add hb k (fun b h => .init (OrderedSet.mem_ofList.1 h)) (Nat.le_refl bound)

section Search

variable {next : α → List α} {next' : β → List β} (hr : Relator.BiUnique r)
  (hnext : ∀ x y, r x y → List.Forall₂ r (next x) (next' y))

include hr hnext

theorem corresponds_exploreFrom {steps i : Nat} {s : OrderedSet α} {t : OrderedSet β}
    (h : s.Corresponds r t) :
    (exploreFrom next steps i s).Corresponds r (exploreFrom next' steps i t) := by
  induction steps generalizing i s t with
  | zero => exact h
  | succ steps ih =>
    have hget : Option.Rel r s.toList[i]? t.toList[i]? := rel_getElem? h i
    rw [exploreFrom, exploreFrom]
    cases hs : s.toList[i]? with
    | none =>
      cases ht : t.toList[i]? with
      | none => exact h
      | some y => rw [hs, ht] at hget; cases hget
    | some x =>
      cases ht : t.toList[i]? with
      | none => rw [hs, ht] at hget; cases hget
      | some y =>
        rw [hs, ht] at hget
        cases hget with
        | some hxy => exact ih (h.append hr (hnext x y hxy))

/-- **Searches along corresponding successors find corresponding elements in the same order.** -/
theorem corresponds_explore {bound : Nat} {init : List α} {init' : List β}
    (h : List.Forall₂ r init init') :
    (explore next bound init).Corresponds r (explore next' bound init') :=
  corresponds_exploreFrom hr hnext (OrderedSet.Corresponds.append hr h .nil)

end Search

/-! ## 3. Maps -/

namespace OrderedMap

variable {m : OrderedMap α ν} {n : OrderedMap β ν}

/-- Two ordered maps correspond if their keys do, in order, and the values are the same. -/
def Corresponds (r : α → β → Prop) (m : OrderedMap α ν) (n : OrderedMap β ν) : Prop :=
  List.Forall₂ (fun d e => r d.1 e.1 ∧ d.2 = e.2) m.entries n.entries

omit [DecidableEq α] [DecidableEq β] in
theorem corresponds_empty : Corresponds r (∅ : OrderedMap α ν) (∅ : OrderedMap β ν) := .nil

omit [DecidableEq α] [DecidableEq β] in
theorem Corresponds.values_eq (h : Corresponds r m n) : m.values = n.values := by
  unfold Corresponds at h
  unfold values
  generalize m.entries = ds, n.entries = es at h ⊢
  induction h with
  | nil => rfl
  | cons hd _ ih => rw [List.map_cons, List.map_cons, hd.2, ih]

omit [DecidableEq α] [DecidableEq β] in
theorem Corresponds.size_eq (h : Corresponds r m n) : m.size = n.size := h.length_eq

theorem Corresponds.insert (hr : Relator.BiUnique r) (h : Corresponds r m n) (hxy : r x y)
    (v : ν) : Corresponds r (m.insert x v) (n.insert y v) := by
  show List.Forall₂ _ (insertEntry x v m.entries) (insertEntry y v n.entries)
  unfold Corresponds at h
  generalize m.entries = ds, n.entries = es at h ⊢
  induction h with
  | nil => exact .cons ⟨hxy, rfl⟩ .nil
  | @cons d e ds es hd hrest ih =>
    have hkey : d.1 = x ↔ e.1 = y := Relator.rel_eq hr hd.1 hxy
    rw [insertEntry, insertEntry]
    by_cases hx : d.1 = x
    · rw [if_pos hx, if_pos (hkey.1 hx)]
      exact .cons ⟨hxy, rfl⟩ hrest
    · rw [if_neg hx, if_neg (mt hkey.2 hx)]
      exact .cons hd ih

/-- Under corresponding keys there is the same value. -/
theorem Corresponds.get?_eq (hr : Relator.BiUnique r) (h : Corresponds r m n) (hxy : r x y) :
    m.get? x = n.get? y := by
  unfold Corresponds at h
  unfold get?
  generalize m.entries = ds, n.entries = es at h ⊢
  induction h with
  | nil => rfl
  | @cons d e ds es hd _ ih =>
    have hkey : d.1 = x ↔ e.1 = y := Relator.rel_eq hr hd.1 hxy
    by_cases hx : d.1 = x
    · simp only [List.find?_cons, hx, hkey.1 hx, decide_true, Option.map_some, hd.2]
    · simp only [List.find?_cons, hx, mt hkey.2 hx, decide_false, ih]

end OrderedMap

end RegularLanguages
