import RegularLanguages.History
import RegularLanguages.Proofs.Minimization.DoubleReversal
import RegularLanguages.Proofs.Minimization.Quotient

/-!
# Names of the states that are made

The states of an automaton that is made from another one are named after the states of that one: by
their names, by joined names, or by these and a number. Names are also made of a letter and a
number, and one fresh name is added by a reversal. So what these ways of naming keep is kept by
every construction.

* `KeptByNaming` -- a property of names that joining and numbering keep;
* `mem_states_of_mem_reachable`, `mem_states_of_mem_partitionRefinement` -- states taken over;
* `KeptByNaming.subsetAutomaton`, `KeptByNaming.determinize` -- states that stand for sets;
* `KeptByNaming.applyTransformation` -- **every construction keeps the property**, if the fresh
  name of a reversal has it.
-/

namespace RegularLanguages.Automaton

variable {a : Automaton} {initial s : StateSet} {n p : StateName}
  {proposal : StateSet → Nat → StateName} {P : StateName → Prop}

/-- A property of names that is kept where sets of states are named: joined and numbered names have
it, and so have the names made of a letter and a number. -/
structure KeptByNaming (P : StateName → Prop) : Prop where
  joined : ∀ ns : List StateName, ns ≠ [] → (∀ n ∈ ns, P n) → P (",".intercalate ns)
  numbered : ∀ n, P n → ∀ i : Nat, P (n ++ "." ++ toString i)
  counted : ∀ i : Nat, P ("d" ++ toString i)

/-! ## 1. States taken over -/

theorem mem_states_of_mem_reachable (ha : a.WellFormed) (hn : n ∈ a.reachable.states) :
    n ∈ a.states := ((mem_states_reachable ha).1 hn).mem_states ha

/-- The states of a quotient are states, where the representatives are. -/
theorem mem_states_of_mem_quotient {classes : List (List StateName)} (ha : a.WellFormed)
    (hrep : ∀ p ∈ a.states, a.representative classes p ∈ a.states)
    (hn : n ∈ (a.quotient classes).states) : n ∈ a.states := by
  rw [quotient_eq, mem_states_selection ha] at hn
  rcases hn with rfl | ⟨hn, _⟩ | ⟨q, l, _, u, hu, rfl⟩
  · exact ha.start_mem
  · exact hn
  · exact hrep u (ha.mem_of_mem_successors hu)

theorem representative_run_mem (ha : a.WellFormed) (hp : p ∈ a.states) :
    a.representative (a.initialRefinement.run a).classes p ∈ a.states := by
  have hinitial := Refinement.invariant_initialRefinement a
  have hdivides := (Refinement.invariant_run ha hinitial).1.divides
  obtain ⟨members, hm, hp⟩ := hdivides.exists_mem hp
  exact hdivides.mem_states hm (hdivides.representative_mem hm hp)

theorem mem_states_of_mem_partitionRefinement (ha : a.WellFormed)
    (hn : n ∈ a.partitionRefinement.states) : n ∈ a.states :=
  mem_states_of_mem_reachable ha <| mem_states_of_mem_quotient wellFormed_reachable
    (fun _ hp => representative_run_mem wellFormed_reachable hp) hn

/-! ## 2. States that stand for sets -/

/-- A distinct name is the proposal or a numbered variant of it. -/
theorem KeptByNaming.distinctName (hP : KeptByNaming P) {taken : List StateName} (hn : P n) :
    P (distinctName taken n) := by
  obtain ⟨i, _, hname, _⟩ := exists_distinctName taken n
  rw [hname]
  unfold variant
  split
  · exact hn
  · exact hP.numbered n hn i

/-- Every name that is given was proposed, up to a number. -/
theorem KeptByNaming.of_get?_nameSets (hP : KeptByNaming P) {sets : List StateSet}
    (h : ∀ s ∈ sets, ∀ k, P (proposal s k)) (hn : (nameSets proposal sets).get? s = some n) :
    P n := by
  induction sets using List.reverseRecOn with
  | nil => cases hn
  | append_singleton sets t ih =>
    rw [nameSets_concat, OrderedMap.get?_insert] at hn
    split at hn
    · obtain rfl := Option.some.inj hn
      exact hP.distinctName (h t (List.mem_append_right _ List.mem_cons_self) _)
    · exact ih (fun s hs => h s (List.mem_append_left _ hs)) hn

theorem KeptByNaming.subsetAutomaton (hP : KeptByNaming P) (ha : a.WellFormed)
    (h : ∀ s ∈ a.subsets initial, ∀ k, P (proposal s k)) :
    ∀ n ∈ (a.subsetAutomaton initial proposal).states, P n := by
  intro n hn
  obtain ⟨s, hs, e⟩ := (mem_states_subsetAutomaton ha).1 hn
  exact hP.of_get?_nameSets h (get?_nameSets_iff.2 ⟨hs, e⟩)

/-- The sets that are met from the start hold states, and at least one. -/
theorem members_of_mem_subsets (ha : a.WellFormed) (hs : s ∈ a.subsets a.initialSet) :
    s.members ≠ [] ∧ ∀ n ∈ s.members, n ∈ a.states := by
  obtain ⟨w, rfl, h⟩ := (mem_subsets_iff ha).1 hs
  constructor
  · intro hnil
    rcases h with rfl | h
    · have hstart : a.start ∈ a.initialSet := mem_initialSet_iff.2 (.here _)
      rw [after_nil] at hnil
      rw [StateSet.mem_def, hnil] at hstart
      exact List.not_mem_nil hstart
    · rw [StateSet.isEmpty, hnil] at h
      cases h
  · intro n hn
    exact (mem_after_initialSet_iff.1 hn).mem_states ha ha.start_mem

/-- **Joined names keep the property.** -/
theorem KeptByNaming.determinize (hP : KeptByNaming P) (ha : a.WellFormed)
    (h : ∀ n ∈ a.states, P n) : ∀ n ∈ a.determinize.states, P n := by
  refine hP.subsetAutomaton ha fun s hs _ => ?_
  obtain ⟨hne, hmem⟩ := members_of_mem_subsets ha hs
  exact hP.joined s.members hne fun n hn => h n (hmem n hn)

/-- Counted names have it, whatever the old names are. -/
theorem KeptByNaming.determinizeFromEntry (hP : KeptByNaming P) (ha : a.WellFormed) :
    ∀ n ∈ a.determinizeFromEntry.states, P n :=
  hP.subsetAutomaton ha fun _ _ k => hP.counted k

theorem KeptByNaming.reverseDeterminized (hP : KeptByNaming P) :
    ∀ n ∈ a.reverseDeterminized.states, P n := by
  intro n hn
  rw [Automaton.reverseDeterminized] at hn
  have hentry := mem_states_of_mem_reachable wellFormed_determinizeFromEntry hn
  exact hP.determinizeFromEntry wellFormed_reverse n hentry

theorem KeptByNaming.doubleReversal (hP : KeptByNaming P) : ∀ n ∈ a.doubleReversal.states, P n :=
  hP.reverseDeterminized (a := a.reverseDeterminized)

/-! ## 3. All constructions -/

/-- **Every construction keeps the property**, if the fresh name of a reversal has it. -/
theorem KeptByNaming.applyTransformation (hP : KeptByNaming P) (ha : a.WellFormed)
    (h : ∀ n ∈ a.states, P n) (t : Transformation)
    (hfresh : t = .reverse → P a.reverse.start) : ∀ n ∈ (t.apply a).states, P n := by
  cases t with
  | determinize => exact hP.determinize ha h
  | reachable => exact fun n hn => h n (mem_states_of_mem_reachable ha hn)
  | reverse =>
    intro n hn
    rcases (mem_states_reverse ha).1 hn with rfl | hn
    · exact hfresh rfl
    · exact h n hn
  | determinizeFromEntry => exact hP.determinizeFromEntry ha
  | partitionRefinement => exact fun n hn => h n (mem_states_of_mem_partitionRefinement ha hn)
  | doubleReversal => exact hP.doubleReversal

end RegularLanguages.Automaton
