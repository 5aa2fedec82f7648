import RegularLanguages.Ordered.Exploration

/-!
# Exploration with a worklist

A search with a queue goes on until the queue is empty. An exploration has a bound instead of a
queue: it reads the set that it builds from left to right. Both do the same, since the queue is
always that part of the set which has not been read.

* `StandsAt` -- how much of what is found has been looked at; the rest is the queue;
* `standsAt_step`, `standsAt_after` -- what one step and a whole run make of this;
* `found_after` -- **a search finds step by step what an exploration finds**;
* `pending_after` -- **within the bound of an exploration the queue gets empty**;
* `acc_of_pending_after` -- so the search ends.
-/

namespace RegularLanguages

namespace Worklist

variable {α : Type} [DecidableEq α] {next : α → List α} {init as : List α} {r r' : Worklist α}
  {a : α} {i n bound : Nat}

/-! ## 1. What one step does -/

theorem step_eq_none_iff : step next r = none ↔ r.pending = [] := by
  unfold step
  split
  · rename_i h
    exact iff_of_true rfl h
  · rename_i h
    exact iff_of_false (fun e => nomatch e) (by rw [h]; exact List.cons_ne_nil _ _)

theorem found_note (r : Worklist α) (a : α) : (r.note a).found = r.found.insert a := by
  unfold note
  split
  · rename_i h
    exact (OrderedSet.insert_of_mem h).symm
  · rfl

theorem found_foldl_note (r : Worklist α) (as : List α) :
    (as.foldl note r).found = r.found.append as := by
  induction as generalizing r with
  | nil => rfl
  | cons a as ih =>
    show (as.foldl note (r.note a)).found = (r.found.insert a).append as
    rw [ih, found_note]

/-- Of what is found, so many elements have been looked at. The others are the queue. -/
structure StandsAt (r : Worklist α) (i : Nat) : Prop where
  /-- No more have been looked at than are found. -/
  le_length : i ≤ r.found.toList.length
  /-- The queue holds the others in the order in which they were found. -/
  pending_eq : r.pending = r.found.toList.drop i

theorem standsAt_note (h : r.StandsAt i) (a : α) : (r.note a).StandsAt i := by
  unfold note
  split
  · exact h
  · rename_i hnew
    have hlist : (r.found.insert a).toList = r.found.toList ++ [a] := by
      rw [OrderedSet.toList_insert]
      exact if_neg hnew
    constructor
    · show i ≤ (r.found.insert a).toList.length
      have hle := h.le_length
      rw [hlist, List.length_append]
      omega
    · show r.pending ++ [a] = (r.found.insert a).toList.drop i
      rw [hlist, List.drop_append_of_le_length h.le_length, h.pending_eq]

theorem standsAt_foldl_note (h : r.StandsAt i) : (as.foldl note r).StandsAt i := by
  induction as generalizing r with
  | nil => exact h
  | cons a as ih => exact ih (standsAt_note h a)

/-- **A step looks at the next element**: it finds the successors of that element, and what is found
and has not been looked at is in the queue again. -/
theorem standsAt_step (h : r.StandsAt i) (hs : step next r = some r') :
    r'.StandsAt (i + 1) ∧
      ∃ a, r.found.toList[i]? = some a ∧ r'.found = r.found.append (next a) := by
  unfold step at hs
  split at hs
  · cases hs
  · rename_i a rest hpending
    obtain rfl := Option.some.inj hs
    have hdrop : r.found.toList.drop i = a :: rest := h.pending_eq.symm.trans hpending
    have hget : r.found.toList[i]? = some a := by
      rw [← List.head?_drop, hdrop]
      rfl
    have hrest : rest = r.found.toList.drop (i + 1) := by
      rw [← List.tail_drop, hdrop]
      rfl
    have hlt : i < r.found.toList.length := (List.getElem?_eq_some_iff.1 hget).1
    exact ⟨standsAt_foldl_note ⟨hlt, hrest⟩, a, hget, found_foldl_note _ _⟩

/-! ## 2. What a run does -/

theorem found_ofList (init : List α) : (ofList init).found = .ofList init :=
  found_foldl_note ⟨∅, []⟩ init

/-- Nothing has been looked at when the search begins. -/
theorem standsAt_ofList (init : List α) : (ofList init).StandsAt 0 :=
  standsAt_foldl_note ⟨Nat.le_refl 0, rfl⟩

/-- **A search finds step by step what an exploration finds.** -/
theorem found_after (h : r.StandsAt i) (n : Nat) :
    (after next n r).found = exploreFrom next n i r.found := by
  induction n generalizing r i with
  | zero => rfl
  | succ n ih =>
    unfold after exploreFrom
    cases hs : step next r with
    | none =>
      have hend : r.found.toList.drop i = [] := h.pending_eq.symm.trans (step_eq_none_iff.1 hs)
      have hnone : r.found.toList[i]? = none := by
        rw [← List.head?_drop, hend]
        rfl
      rw [hnone]
    | some r' =>
      obtain ⟨hstands, a, hget, hfound⟩ := standsAt_step h hs
      rw [hget]
      show (after next n r').found = exploreFrom next n (i + 1) (r.found.append (next a))
      rw [ih hstands, hfound]

/-- **A run ends, or it looks at one element in each of its steps.** -/
theorem standsAt_after (h : r.StandsAt i) (n : Nat) :
    (after next n r).pending = [] ∨ (after next n r).StandsAt (i + n) := by
  induction n generalizing r i with
  | zero => exact Or.inr h
  | succ n ih =>
    unfold after
    cases hs : step next r with
    | none => exact Or.inl (step_eq_none_iff.1 hs)
    | some r' =>
      have hstands := ih (standsAt_step h hs).1
      rwa [Nat.add_right_comm i 1 n] at hstands

/-- A search from some elements finds what the exploration from them finds. -/
theorem found_after_ofList (n : Nat) : (after next n (ofList init)).found = explore next n init := by
  rw [found_after (standsAt_ofList init), found_ofList]
  rfl

/-- **Within the bound of an exploration the queue gets empty.** Else there would be more elements in
what is found than have been looked at, and so more than the bound allows. -/
theorem pending_after (hb : BoundsReach next init bound) :
    (after next bound (ofList init)).pending = [] := by
  have hrun : (after next bound (ofList init)).pending = [] ∨
      (after next bound (ofList init)).StandsAt (0 + bound) :=
    standsAt_after (standsAt_ofList init) bound
  rcases hrun with h | h
  · exact h
  · have hlength : (after next bound (ofList init)).found.toList.length ≤ bound := by
      refine hb _ (after next bound (ofList init)).found.nodup fun a ha => ?_
      rw [found_after_ofList] at ha
      exact (mem_explore_iff hb).1 ha
    rw [h.pending_eq]
    exact List.drop_eq_nil_of_le (by omega)

/-- A search that has nothing left to be looked at after so many steps does not go on for ever. -/
theorem acc_of_pending_after (h : (after next n r).pending = []) :
    Acc (fun r' r => step next r = some r') r := by
  induction n generalizing r with
  | zero =>
    have hend : step next r = none := step_eq_none_iff.2 h
    refine .intro r fun r' hs => ?_
    rw [hend] at hs
    cases hs
  | succ n ih =>
    refine .intro r fun r' hs => ?_
    unfold after at h
    rw [hs] at h
    exact ih h

end Worklist

end RegularLanguages
