import RegularLanguages.Proofs.Automaton.Pruning
import RegularLanguages.Proofs.Minimization.Refinement

/-!
# Minimization by refinement keeps the language

* `Congruence` -- a choice of representatives that the moves and marks of an automaton respect, and
  `congruence_of_stable`: stable classes give one;
* `mem_successors_quotient`, `isAccepting_quotient` -- the views of the automaton of the
  representatives;
* `run?_quotient` -- its runs are the representatives of the runs before;
* `accepts_partitionRefinement_iff` -- **the minimized automaton accepts what the automaton
  accepted**.
-/

namespace RegularLanguages

/-! ## 1. Representatives of stable classes -/

namespace Automaton

/-- A choice of representatives that the start, the marks and the moves of an automaton respect. -/
structure Congruence (a : Automaton) (rep : StateName → StateName) : Prop where
  /-- States are represented by states. -/
  mem : ∀ p ∈ a.states, rep p ∈ a.states
  /-- A representative stands for itself. -/
  idempotent : ∀ p ∈ a.states, rep (rep p) = rep p
  /-- The start stands for itself. -/
  start : rep a.start = a.start
  /-- A state and its representative accept together. -/
  accepting : ∀ p ∈ a.states, a.isAccepting (rep p) = a.isAccepting p
  /-- A state and its representative have the same moves, up to representatives. -/
  step : ∀ p ∈ a.states, ∀ c, (a.step? (rep p) c).map rep = (a.step? p c).map rep

end Automaton

namespace Refinement

variable {a : Automaton} {r : Refinement} {members : List StateName} {p q : StateName} {i : Nat}
  {c : Symbol}

/-- Two classes with a common member are the same. -/
theorem Divides.eq_of_mem (h : r.Divides a.stateNames []) {members' : List StateName}
    (hm : members ∈ r.classes) (hm' : members' ∈ r.classes) (hp : p ∈ members)
    (hp' : p ∈ members') : members = members' := by
  obtain ⟨i, hi⟩ := List.mem_iff_getElem?.1 hm
  obtain ⟨j, hj⟩ := List.mem_iff_getElem?.1 hm'
  have hpi := (h.get?_iff p List.not_mem_nil i).2 ⟨members, hi, hp⟩
  have hpj := (h.get?_iff p List.not_mem_nil j).2 ⟨members', hj, hp'⟩
  obtain rfl : i = j := Option.some.inj (hpi.symm.trans hpj)
  exact Option.some.inj (hi.symm.trans hj)

theorem Divides.exists_mem (h : r.Divides a.stateNames []) (hp : p ∈ a.states) :
    ∃ members ∈ r.classes, p ∈ members := by
  have hmem := h.perm.mem_iff.2 hp
  rwa [List.append_nil, List.mem_flatten] at hmem

/-- The states of a class are states. -/
theorem Divides.mem_states (h : r.Divides a.stateNames []) (hm : members ∈ r.classes)
    (hp : p ∈ members) : p ∈ a.states := by
  refine h.perm.mem_iff.1 ?_
  rw [List.append_nil]
  exact List.mem_flatten.2 ⟨members, hm, hp⟩

theorem Divides.representative_eq (h : r.Divides a.stateNames []) (hm : members ∈ r.classes)
    (hp : p ∈ members) : a.representative r.classes p =
      if a.start ∈ members then a.start else members.headD p := by
  unfold Automaton.representative
  cases hf : r.classes.find? fun members => p ∈ members with
  | none => exact absurd (decide_eq_true hp) (List.find?_eq_none.1 hf members hm)
  | some members' =>
    have hp' : p ∈ members' := by simpa using List.find?_some hf
    rw [h.eq_of_mem hm (List.mem_of_find?_eq_some hf) hp hp']

/-- A class is represented by one of its members. -/
theorem Divides.representative_mem (h : r.Divides a.stateNames []) (hm : members ∈ r.classes)
    (hp : p ∈ members) : a.representative r.classes p ∈ members := by
  rw [h.representative_eq hm hp]
  split
  · assumption
  · cases members with
    | nil => exact absurd hp List.not_mem_nil
    | cons x xs => exact List.mem_cons_self

/-- All members of a class have the same representative. -/
theorem Divides.representative_congr (h : r.Divides a.stateNames []) (hm : members ∈ r.classes)
    (hp : p ∈ members) (hq : q ∈ members) :
    a.representative r.classes p = a.representative r.classes q := by
  rw [h.representative_eq hm hp, h.representative_eq hm hq]
  cases members with
  | nil => exact absurd hp List.not_mem_nil
  | cons x xs => rfl

/-- **Where the successors are in one class, they have one representative.** -/
theorem Divides.map_representative_eq (h : r.Divides a.stateNames []) (ha : a.WellFormed)
    (he : successorClass a r c p = successorClass a r c q) :
    (a.step? p c).map (a.representative r.classes) =
      (a.step? q c).map (a.representative r.classes) := by
  have hindex : ∀ {n t}, a.step? n c = some t →
      ∃ i, r.Holds i t ∧ r.classIndex.get? t = some i := by
    intro n t ht
    have hmem := ha.mem_of_mem_successors (List.mem_of_head? ht)
    obtain ⟨members, hm, hp⟩ := h.exists_mem hmem
    obtain ⟨i, hi⟩ := List.mem_iff_getElem?.1 hm
    exact ⟨i, ⟨members, hi, hp⟩, (h.get?_iff t List.not_mem_nil i).2 ⟨members, hi, hp⟩⟩
  unfold successorClass at he
  cases hp : a.step? p c with
  | none =>
    cases hq : a.step? q c with
    | none => rfl
    | some u =>
      obtain ⟨j, _, hj⟩ := hindex hq
      rw [hp, hq, Option.bind_none, Option.bind_some, hj] at he
      cases he
  | some t =>
    obtain ⟨i, ⟨members, hi, ht⟩, hget⟩ := hindex hp
    cases hq : a.step? q c with
    | none =>
      rw [hp, hq, Option.bind_none, Option.bind_some, hget] at he
      cases he
    | some u =>
      obtain ⟨j, ⟨members', hj, hu⟩, hget'⟩ := hindex hq
      rw [hp, hq, Option.bind_some, Option.bind_some, hget, hget'] at he
      cases he
      obtain rfl : members = members' := Option.some.inj (hi.symm.trans hj)
      exact congrArg some (h.representative_congr (List.mem_of_getElem? hi) ht hu)

/-- **Stable classes give a congruence.** -/
theorem congruence_of_stable (ha : a.WellFormed) (h : Invariant a r) (hs : ∀ i, r.Stable a i) :
    a.Congruence (a.representative r.classes) where
  mem p hp := by
    obtain ⟨members, hm, hp⟩ := h.divides.exists_mem hp
    exact h.divides.mem_states hm (h.divides.representative_mem hm hp)
  idempotent p hp := by
    obtain ⟨members, hm, hp⟩ := h.divides.exists_mem hp
    exact h.divides.representative_congr hm (h.divides.representative_mem hm hp) hp
  start := by
    obtain ⟨members, hm, hp⟩ := h.divides.exists_mem ha.start_mem
    rw [h.divides.representative_eq hm hp, if_pos hp]
  accepting p hp := by
    obtain ⟨members, hm, hp⟩ := h.divides.exists_mem hp
    exact h.accepting members hm _ (h.divides.representative_mem hm hp) p hp
  step p hp c := by
    obtain ⟨members, hm, hp⟩ := h.divides.exists_mem hp
    obtain ⟨i, hi⟩ := List.mem_iff_getElem?.1 hm
    exact h.divides.map_representative_eq ha
      (hs i _ p c ⟨members, hi, h.divides.representative_mem hm hp⟩ ⟨members, hi, hp⟩)

end Refinement

/-! ## 2. The automaton of the representatives -/

namespace Automaton

variable {a : Automaton} {classes : List (List StateName)} {n p q t : StateName} {l : Label}
  {w : Word} {c : Symbol}

theorem quotient_eq (a : Automaton) (classes : List (List StateName)) : a.quotient classes =
    a.selection (fun n => a.representative classes n = n) (a.representative classes) := rfl

theorem wellFormed_quotient : (a.quotient classes).WellFormed := by
  rw [quotient_eq]
  exact wellFormed_selection

@[simp] theorem start_quotient : (a.quotient classes).start = a.start := by
  rw [quotient_eq, start_selection]

/-- **Representatives have their own moves, to representatives.** -/
theorem mem_successors_quotient (ha : a.WellFormed) :
    t ∈ (a.quotient classes).successors n l ↔ a.representative classes n = n ∧
      ∃ u ∈ a.successors n l, t = a.representative classes u := by
  rw [quotient_eq, mem_successors_selection ha]

theorem isAccepting_quotient (ha : a.WellFormed) : (a.quotient classes).isAccepting n = true ↔
    a.representative classes n = n ∧ a.isAccepting n = true := by
  rw [quotient_eq, isAccepting_selection ha]

theorem Deterministic.quotient (hd : a.Deterministic) (ha : a.WellFormed) :
    (a.quotient classes).Deterministic := by
  rw [quotient_eq]
  exact hd.selection ha

section Congruence

variable (hc : a.Congruence (a.representative classes)) (ha : a.WellFormed)
  (hd : a.Deterministic)

include hc ha

theorem isAccepting_quotient_representative (hp : p ∈ a.states) :
    (a.quotient classes).isAccepting (a.representative classes p) = a.isAccepting p := by
  rw [Bool.eq_iff_iff, isAccepting_quotient ha, hc.accepting p hp]
  exact ⟨And.right, fun h => ⟨hc.idempotent p hp, h⟩⟩

include hd

theorem step?_quotient (hp : p ∈ a.states) :
    (a.quotient classes).step? (a.representative classes p) c =
      (a.step? p c).map (a.representative classes) := by
  rw [← hc.step p hp c]
  refine Option.ext fun t => ?_
  rw [step?_eq_some_iff (hd.quotient ha), mem_successors_quotient ha, Option.map_eq_some_iff]
  refine ⟨fun h => ?_, fun h => ?_⟩
  · obtain ⟨_, u, hu, rfl⟩ := h
    exact ⟨u, (step?_eq_some_iff hd).2 hu, rfl⟩
  · obtain ⟨u, hu, rfl⟩ := h
    exact ⟨hc.idempotent p hp, u, (step?_eq_some_iff hd).1 hu, rfl⟩

/-- **Its runs are the representatives of the runs before.** -/
theorem run?_quotient (hp : p ∈ a.states) :
    (a.quotient classes).run? (a.representative classes p) w =
      (a.run? p w).map (a.representative classes) := by
  induction w generalizing p with
  | nil => rfl
  | cons c w ih =>
    rw [run?_cons, run?_cons, step?_quotient hc ha hd hp]
    cases hs : a.step? p c with
    | none => rfl
    | some q => exact ih (ha.mem_of_mem_successors ((step?_eq_some_iff hd).1 hs))

theorem accepts_quotient : (a.quotient classes).accepts w = a.accepts w := by
  have hrun := run?_quotient hc ha hd ha.start_mem (w := w)
  rw [hc.start] at hrun
  rw [Bool.eq_iff_iff, accepts_iff_run?, accepts_iff_run?, start_quotient, hrun]
  simp only [Option.map_eq_some_iff]
  have hmem : ∀ {q}, a.run? a.start w = some q → q ∈ a.states := fun h =>
    ((path_iff_run? hd).2 h).mem_states ha ha.start_mem
  refine ⟨fun h => ?_, fun h => ?_⟩
  · obtain ⟨_, ⟨q, hq, rfl⟩, hacc⟩ := h
    exact ⟨q, hq, (isAccepting_quotient_representative hc ha (hmem hq)).symm.trans hacc⟩
  · obtain ⟨q, hq, hacc⟩ := h
    exact ⟨_, ⟨q, hq, rfl⟩,
      (isAccepting_quotient_representative hc ha (hmem hq)).trans hacc⟩

end Congruence

/-! ## 3. Minimization by refinement -/

/-- The classes at the end of the refinement give a congruence. -/
theorem congruence_run (ha : a.WellFormed) :
    a.Congruence (a.representative (a.initialRefinement.run a).classes) :=
  have h := Refinement.invariant_initialRefinement a
  Refinement.congruence_of_stable ha (Refinement.invariant_run ha h).1 (Refinement.stable_run ha h)

theorem wellFormed_partitionRefinement : a.partitionRefinement.WellFormed := wellFormed_quotient

theorem deterministic_partitionRefinement (ha : a.WellFormed) (hd : a.Deterministic) :
    a.partitionRefinement.Deterministic :=
  (hd.reachable ha).quotient wellFormed_reachable

/-- **The minimized automaton accepts what the automaton accepted.** -/
theorem accepts_partitionRefinement_iff (ha : a.WellFormed) (hd : a.Deterministic) :
    a.partitionRefinement.accepts w = true ↔ a.Recognizes w := by
  have hpruned : a.partitionRefinement.accepts w = a.reachable.accepts w :=
    accepts_quotient (congruence_run wellFormed_reachable) wellFormed_reachable (hd.reachable ha)
  rw [hpruned, accepts_iff_recognizes (hd.reachable ha), recognizes_reachable ha]

end Automaton

end RegularLanguages
