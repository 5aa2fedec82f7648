import RegularLanguages.Ordered.Set

/-!
# Ordered sets and their lists

* `append_of_nodup` -- new and different elements come last, in their order;
* `ofList_toList` -- the list of an ordered set gives the set back;
* `append_toList_append`, `ofList_append` -- of the elements that are added, only the first
  occurrences matter;
* `eq_of_mem_of_size_le_one`, `size_le_one_of_unique` -- sets with at most one member.
-/

namespace RegularLanguages.OrderedSet

variable {α : Type}

theorem ext_toList {s t : OrderedSet α} (h : s.toList = t.toList) : s = t := by
  cases s
  cases t
  cases h
  rfl

theorem eq_of_mem_of_size_le_one {s : OrderedSet α} {a b : α} (h : s.size ≤ 1) (ha : a ∈ s)
    (hb : b ∈ s) : a = b := by
  rw [mem_def] at ha hb
  unfold size at h
  match s.toList, h, ha, hb with
  | [x], _, ha, hb => exact (List.mem_singleton.1 ha).trans (List.mem_singleton.1 hb).symm

theorem size_le_one_of_unique {s : OrderedSet α} (h : ∀ a ∈ s, ∀ b ∈ s, a = b) : s.size ≤ 1 := by
  have hn := s.nodup
  simp only [mem_def] at h
  unfold size
  match s.toList, hn, h with
  | [], _, _ => exact Nat.zero_le 1
  | [x], _, _ => exact Nat.le_refl 1
  | x :: y :: rest, hn, h =>
    have e := h x List.mem_cons_self y (List.mem_cons_of_mem x List.mem_cons_self)
    exact absurd (e ▸ List.mem_cons_self) (List.nodup_cons.1 hn).1

variable [DecidableEq α]

/-- New and different elements come last, in their order. -/
theorem append_of_nodup : ∀ {l : List α} {s : OrderedSet α}, l.Nodup → (∀ a ∈ l, a ∉ s) →
    (s.append l).toList = s.toList ++ l
  | [], s, _, _ => (List.append_nil s.toList).symm
  | a :: l, s, hn, hd => by
    have hn' := List.nodup_cons.1 hn
    have ha : a ∉ s := hd a List.mem_cons_self
    have hl : ∀ b ∈ l, b ∉ s.insert a := by
      intro b hb h
      rcases mem_insert.1 h with h | rfl
      · exact hd b (List.mem_cons_of_mem a hb) h
      · exact hn'.1 hb
    rw [append_cons, append_of_nodup hn'.2 hl, toList_insert, if_neg ha, List.append_assoc]
    rfl

/-- The list of an ordered set gives the set back. -/
theorem ofList_toList (s : OrderedSet α) : ofList s.toList = s :=
  ext_toList (append_of_nodup s.nodup fun a _ => not_mem_empty a)

/-- Elements that are there already change nothing. -/
theorem append_of_subset : ∀ {l : List α} {s : OrderedSet α}, (∀ a ∈ l, a ∈ s) → s.append l = s
  | [], _, _ => rfl
  | a :: l, s, h => by
    rw [append_cons, insert_of_mem (h a List.mem_cons_self)]
    exact append_of_subset fun b hb => h b (List.mem_cons_of_mem a hb)

/-- Of the elements that are added, only the first occurrences matter. -/
theorem append_toList_append (s t : OrderedSet α) (l : List α) :
    s.append (t.append l).toList = (s.append t.toList).append l := by
  induction l generalizing t with
  | nil => rfl
  | cons a l ih =>
    have hinsert : s.append (t.insert a).toList = (s.append t.toList).insert a := by
      rw [toList_insert]
      split
      · rename_i ha
        rw [insert_of_mem (mem_append.2 (Or.inr ha))]
      · exact List.foldl_append
    rw [append_cons, ih, append_cons, hinsert]

theorem ofList_append (l m : List α) : ofList (l ++ m) = (ofList l).append (ofList m).toList :=
  List.foldl_append.trans (append_toList_append (ofList l) ∅ m).symm

end RegularLanguages.OrderedSet
