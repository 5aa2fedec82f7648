import RegularLanguages.Ordered.Set

/-!
# Grouping

Splitting a list into groups of elements that share a key. The groups come in the order in which
their keys first occur, and inside a group the elements keep their order.

* `groupBy` -- the groups with their keys;
* `flatMap_groupBy_perm`, `ne_nil_of_mem_groupBy` -- nothing is lost, and no group is empty.
-/

namespace RegularLanguages

variable {α κ : Type} [DecidableEq κ]

/-- The groups of a list by a key, each with its key. -/
def groupBy (key : α → κ) (l : List α) : List (κ × List α) :=
  (OrderedSet.ofList (l.map key)).toList.map fun k => (k, l.filter fun a => key a = k)

/-- Every key of a group is the key of an element. -/
theorem mem_keys_groupBy {key : α → κ} {l : List α} {k : κ} {g : List α}
    (h : (k, g) ∈ groupBy key l) : k ∈ l.map key ∧ g = l.filter fun a => key a = k := by
  simp only [groupBy, List.mem_map, Prod.mk.injEq] at h
  obtain ⟨k', hk', rfl, rfl⟩ := h
  exact ⟨OrderedSet.mem_ofList.1 hk', rfl⟩

/-- No group is empty. -/
theorem ne_nil_of_mem_groupBy {key : α → κ} {l : List α} {k : κ} {g : List α}
    (h : (k, g) ∈ groupBy key l) : g ≠ [] := by
  obtain ⟨hk, rfl⟩ := mem_keys_groupBy h
  obtain ⟨a, ha, rfl⟩ := List.mem_map.1 hk
  exact List.ne_nil_of_mem (List.mem_filter.2 ⟨ha, by simp⟩)

/-- The elements with keys from a list without repetitions, key by key. -/
theorem flatMap_filter_perm (key : α → κ) (l : List α) : ∀ {ks : List κ}, ks.Nodup →
    (ks.flatMap fun k => l.filter fun a => key a = k).Perm (l.filter fun a => key a ∈ ks)
  | [], _ => by simp
  | k :: ks, h => by
    have hk := List.nodup_cons.1 h
    have ih := flatMap_filter_perm key l hk.2
    have split := List.filter_append_perm (fun a => decide (key a = k))
      (l.filter fun a => key a ∈ k :: ks)
    have first : (l.filter fun a => key a ∈ k :: ks).filter (fun a => key a = k) =
        l.filter fun a => key a = k := by
      rw [List.filter_filter]
      exact List.filter_congr fun a _ => by by_cases e : key a = k <;> simp [e]
    have others : (l.filter fun a => key a ∈ k :: ks).filter (fun a => !decide (key a = k)) =
        l.filter fun a => key a ∈ ks := by
      rw [List.filter_filter]
      refine List.filter_congr fun a _ => ?_
      by_cases e : key a = k
      · subst e
        simp [hk.1]
      · simp [e]
    rw [first, others] at split
    rw [List.flatMap_cons]
    exact (ih.append_left _).trans split

/-- Nothing is lost by grouping: the groups hold exactly the elements of the list. -/
theorem flatMap_groupBy_perm (key : α → κ) (l : List α) :
    ((groupBy key l).flatMap Prod.snd).Perm l := by
  have h := flatMap_filter_perm key l (OrderedSet.ofList (l.map key)).nodup
  have all : (l.filter fun a => key a ∈ (OrderedSet.ofList (l.map key)).toList) = l :=
    List.filter_eq_self.2 fun a ha =>
      decide_eq_true (OrderedSet.mem_ofList.2 (List.mem_map_of_mem ha))
  rw [all] at h
  simpa [groupBy, List.flatMap_map] using h

end RegularLanguages
