import RegularLanguages.Proofs.Automaton.Outcome
import RegularLanguages.Proofs.Minimization.Quotient

/-!
# Refinement finds the coarsest partition

A stable partition never puts states together that can be told apart. The refinement does not
separate others either: a class is divided only where its members have successors in different
classes, and these can be told apart already. So what is left at the end is one class for all states
that are alike.

* `Coarse` -- every class holds, with a state, all states that are alike; `coarse_step`,
  `coarse_run`: **steps keep this**;
* `finalRepresentative_eq_iff` -- two states get one representative iff they are alike;
* `outcome_partitionRefinement`, `run?_partitionRefinement_eq_iff` -- what is left shows the same
  as before, and reads two words to one state iff they cannot be told apart;
* `length_le_of_distinguishable` -- how many states are left at least;
* `partitionRefinement_merges_indistinguishable` -- **minimization by refinement merges exactly
  the states that cannot be told apart**.
-/

namespace RegularLanguages

variable {a : Automaton} {p q : StateName} {u v w : Word} {c : Symbol}

/-! ## 1. States that are alike stay together -/

namespace Refinement

variable {r s : Refinement} {i : Nat} {part : List StateName} {parts : List (List StateName)}

/-- Every class holds, with a state, all states that are alike. -/
def Coarse (a : Automaton) (r : Refinement) : Prop :=
  ∀ members ∈ r.classes, ∀ p ∈ members, ∀ q ∈ a.states, a.Alike p q → q ∈ members

/-- States in one class have one index. -/
theorem Divides.get?_eq_of_alike (h : r.Divides a.stateNames []) (hc : Coarse a r)
    (hp : p ∈ a.states) (hq : q ∈ a.states) (hpq : a.Alike p q) :
    r.classIndex.get? p = r.classIndex.get? q := by
  obtain ⟨members, hm, hpm⟩ := h.exists_mem hp
  obtain ⟨i, hi⟩ := List.mem_iff_getElem?.1 hm
  have hqm : q ∈ members := hc members hm p hpm q hq hpq
  rw [(h.get?_iff p List.not_mem_nil i).2 ⟨members, hi, hpm⟩,
    (h.get?_iff q List.not_mem_nil i).2 ⟨members, hi, hqm⟩]

/-- States that are alike have their successors in one class. -/
theorem successorClass_eq_of_alike (ha : a.WellFormed) (h : r.Divides a.stateNames [])
    (hc : Coarse a r) (hpq : a.Alike p q) : successorClass a r c p = successorClass a r c q := by
  have hmem : ∀ {n t}, a.step? n c = some t → t ∈ a.states := fun ht =>
    ha.mem_of_mem_successors (List.mem_of_head? ht)
  unfold successorClass
  rcases OrderedMap.rel_cases (hpq.step c) with ⟨hp, hq⟩ | ⟨p', q', hp, hq, hpq'⟩
  · rw [hp, hq]
  · rw [hp, hq]
    exact h.get?_eq_of_alike hc (hmem hp) (hmem hq) hpq'

/-- A part of a class holds the members with one class of successors. -/
theorem mem_groups_iff (h : part ∈ groups a r i c) (hp : p ∈ part) :
    q ∈ part ↔ q ∈ r.classes.getD i [] ∧ successorClass a r c q = successorClass a r c p := by
  obtain ⟨⟨k, g⟩, hg, rfl⟩ := List.mem_map.1 h
  obtain ⟨_, rfl⟩ := mem_keys_groupBy hg
  have hk : successorClass a r c p = k := by simpa using (List.mem_filter.1 hp).2
  rw [List.mem_filter, decide_eq_true_eq, hk]

theorem getD_mem_of_mem (hp : p ∈ r.classes.getD i []) : r.classes.getD i [] ∈ r.classes := by
  rw [List.getD_eq_getElem?_getD] at hp ⊢
  cases hi : r.classes[i]? with
  | none =>
    rw [hi] at hp
    exact absurd hp List.not_mem_nil
  | some members => exact List.mem_of_getElem? hi

/-- Dividing a class does not separate states that are alike. -/
theorem Coarse.divide (ha : a.WellFormed) (hd : r.Divides a.stateNames []) (h : Coarse a r)
    (hparts : parts? a r i = some parts) : Coarse a (r.divide i parts) := by
  intro members hm p hp q hq hpq
  rcases mem_classes_divide hm with hold | hnew
  · exact h members hold p hp q hq hpq
  · -- a part holds the members of the old class with one class of successors
    obtain ⟨c, _, rfl⟩ := List.mem_map.1 (List.mem_of_find?_eq_some hparts)
    have hp' := (mem_groups_iff hnew hp).1 hp
    refine (mem_groups_iff hnew hp).2 ⟨?_, ?_⟩
    · exact h _ (getD_mem_of_mem hp'.1) p hp'.1 q hq hpq
    · exact (successorClass_eq_of_alike ha hd h hpq).symm

/-- **A step does not separate states that are alike.** -/
theorem coarse_step (ha : a.WellFormed) (hinv : Invariant a r) (h : Coarse a r)
    (hs : step a r = some s) : Coarse a s := by
  unfold step at hs
  split at hs
  · cases hs
  · rename_i i rest hi
    have hdequeued := (hinv.toConsistent.dequeue hi).divides
    split at hs
    · cases hs
      exact h
    · rename_i parts hparts
      cases hs
      exact Coarse.divide ha hdequeued h hparts

/-- **Nor does a run.** -/
theorem coarse_run (ha : a.WellFormed) (hinv : Invariant a r) (h : Coarse a r) :
    Coarse a (run a r) := by
  fun_induction run a r with
  | case1 r _ => exact h
  | case2 r s hs ih => exact ih (invariant_step ha hinv hs) (coarse_step ha hinv h hs)

/-- The first partition holds the states together that accept, and those that do not. -/
theorem coarse_initialRefinement (a : Automaton) : Coarse a a.initialRefinement := by
  intro members hm p hp q hq hpq
  have hclass : members = a.stateNames.filter a.isAccepting ∨
      members = a.stateNames.filter fun n => !a.isAccepting n := by
    have hm' := hm
    rw [Automaton.initialRefinement, ofClasses, queueIdle, classes_foldl_addClass] at hm'
    simpa using (List.mem_filter.1 hm').1
  rcases hclass with rfl | rfl
  · rw [List.mem_filter] at hp ⊢
    exact ⟨hq, hpq.isAccepting_eq ▸ hp.2⟩
  · rw [List.mem_filter] at hp ⊢
    exact ⟨hq, hpq.isAccepting_eq ▸ hp.2⟩

end Refinement

/-! ## 2. Representatives -/

namespace Automaton

/-- The state that stands for a state at the end of the refinement. -/
def finalRepresentative (a : Automaton) (p : StateName) : StateName :=
  a.representative (a.initialRefinement.run a).classes p

section Representatives

variable (ha : a.WellFormed) (hd : a.Deterministic)

include ha

theorem congruence_finalRepresentative : a.Congruence a.finalRepresentative := congruence_run ha

/-- States that are alike get one representative. -/
theorem finalRepresentative_eq_of_alike (hp : p ∈ a.states) (hq : q ∈ a.states)
    (h : a.Alike p q) : a.finalRepresentative p = a.finalRepresentative q := by
  have hinit := Refinement.invariant_initialRefinement a
  have hdivides := (Refinement.invariant_run ha hinit).1.divides
  have hcoarse := Refinement.coarse_run ha hinit (Refinement.coarse_initialRefinement a)
  obtain ⟨members, hm, hpm⟩ := hdivides.exists_mem hp
  exact hdivides.representative_congr hm hpm (hcoarse members hm p hpm q hq h)

include hd

/-- Representatives show what the states for which they stand show. -/
theorem outcome_quotient_finalRepresentative (hp : p ∈ a.states) :
    (a.quotient (a.initialRefinement.run a).classes).outcome (a.finalRepresentative p) w =
      a.outcome p w := by
  have hc := congruence_run ha
  unfold outcome finalRepresentative
  rw [run?_quotient hc ha hd hp, Option.map_map]
  refine Option.map_congr fun n hn => ?_
  exact isAccepting_quotient_representative hc ha (((path_iff_run? hd).2 hn).mem_states ha hp)

/-- **Two states get one representative iff they are alike.** -/
theorem finalRepresentative_eq_iff (hp : p ∈ a.states) (hq : q ∈ a.states) :
    a.finalRepresentative p = a.finalRepresentative q ↔ a.Alike p q := by
  refine ⟨fun h w => ?_, finalRepresentative_eq_of_alike ha hp hq⟩
  rw [← outcome_quotient_finalRepresentative ha hd hp,
    ← outcome_quotient_finalRepresentative ha hd hq, h]

end Representatives

/-! ## 3. Minimization by refinement -/

theorem start_partitionRefinement : a.partitionRefinement.start = a.start :=
  start_quotient.trans start_reachable

/-- Its states are reachable ones, each standing for itself. -/
theorem finalRepresentative_of_mem_states (hp : p ∈ a.partitionRefinement.states) :
    p ∈ a.reachable.states ∧ a.reachable.finalRepresentative p = p := by
  have hw : a.reachable.WellFormed := wellFormed_reachable
  have hc := congruence_finalRepresentative hw
  rw [partitionRefinement, quotient_eq, mem_states_selection hw] at hp
  rcases hp with rfl | ⟨hp, hrep⟩ | ⟨_, _, _, u, hu, rfl⟩
  · exact ⟨hw.start_mem, hc.start⟩
  · exact ⟨hp, hrep⟩
  · have hu' := hw.mem_of_mem_successors hu
    exact ⟨hc.mem u hu', hc.idempotent u hu'⟩

section Minimized

variable (ha : a.WellFormed) (hd : a.Deterministic)

include ha hd

theorem outcome_reachable (hp : a.Accessible p) : a.reachable.outcome p w = a.outcome p w := by
  unfold outcome
  rw [run?_reachable ha hd hp]
  refine Option.map_congr fun n hn => ?_
  rw [Bool.eq_iff_iff, isAccepting_reachable ha]
  exact ⟨And.right, fun h => ⟨hp.path ((path_iff_run? hd).2 hn), h⟩⟩

/-- **It reads a word to what stands for the state that the word led to.** -/
theorem run?_partitionRefinement : a.partitionRefinement.run? a.partitionRefinement.start w =
    (a.run? a.start w).map a.reachable.finalRepresentative := by
  have hw : a.reachable.WellFormed := wellFormed_reachable
  have hrun := run?_quotient (congruence_run hw) hw (hd.reachable ha) hw.start_mem (w := w)
  rw [(congruence_run hw).start, start_reachable, run?_reachable ha hd accessible_start] at hrun
  rw [start_partitionRefinement]
  exact hrun

/-- **Reading a word shows the same as before.** -/
theorem outcome_partitionRefinement :
    a.partitionRefinement.outcome a.partitionRefinement.start w = a.outcome a.start w := by
  rw [outcome_eq_iff, run?_partitionRefinement ha hd, Option.isSome_map]
  refine ⟨rfl, ?_⟩
  rw [Bool.eq_iff_iff, accepts_partitionRefinement_iff ha hd, accepts_iff_recognizes hd]

/-- Every state is reached by a word, which leads to a state for which it stands. -/
theorem exists_run?_partitionRefinement (hp : p ∈ a.partitionRefinement.states) :
    ∃ w, a.run? a.start w = some p ∧
      a.partitionRefinement.run? a.partitionRefinement.start w = some p := by
  obtain ⟨hmem, hrep⟩ := finalRepresentative_of_mem_states hp
  obtain ⟨w, hw⟩ := (mem_states_reachable ha).1 hmem
  have hrun := (path_iff_run? hd).1 hw
  exact ⟨w, hrun, by rw [run?_partitionRefinement ha hd, hrun, Option.map_some, hrep]⟩

/-- **It reads two words to one state iff they cannot be told apart.** -/
theorem run?_partitionRefinement_eq_iff (hu : a.run? a.start u = some p)
    (hv : a.run? a.start v = some q) :
    a.partitionRefinement.run? a.partitionRefinement.start u =
      a.partitionRefinement.run? a.partitionRefinement.start v ↔ a.Indistinguishable u v := by
  have hp : a.Accessible p := ⟨u, (path_iff_run? hd).2 hu⟩
  have hq : a.Accessible q := ⟨v, (path_iff_run? hd).2 hv⟩
  rw [run?_partitionRefinement ha hd, run?_partitionRefinement ha hd, hu, hv, Option.map_some,
    Option.map_some, Option.some_inj, indistinguishable_iff_alike hu hv,
    finalRepresentative_eq_iff wellFormed_reachable (hd.reachable ha)
      ((mem_states_reachable ha).2 hp) ((mem_states_reachable ha).2 hq)]
  refine forall_congr' fun w => ?_
  rw [outcome_reachable ha hd hp, outcome_reachable ha hd hq]

/-- **It leaves as many states as there are words that can be told apart**, or more. -/
theorem length_le_of_distinguishable {words : List Word} (hn : words.Nodup)
    (hread : ∀ u ∈ words, (a.run? a.start u).isSome = true)
    (hdifferent : ∀ u ∈ words, ∀ v ∈ words, a.Indistinguishable u v → u = v) :
    words.length ≤ a.partitionRefinement.size := by
  have hminimized : a.partitionRefinement.Deterministic := deterministic_partitionRefinement ha hd
  refine length_le_of_relation hn (fun u p =>
    a.partitionRefinement.run? a.partitionRefinement.start u = some p) (fun u hu => ?_)
    fun u hu v hv p hp hq => ?_
  · obtain ⟨q, hq⟩ := Option.isSome_iff_exists.1 (hread u hu)
    have hrun := run?_partitionRefinement ha hd (w := u)
    rw [hq, Option.map_some] at hrun
    have hpath := (path_iff_run? hminimized).2 hrun
    exact ⟨_, hpath.mem_states wellFormed_partitionRefinement
      wellFormed_partitionRefinement.start_mem, hrun⟩
  · obtain ⟨p', hu'⟩ := Option.isSome_iff_exists.1 (hread u hu)
    obtain ⟨q', hv'⟩ := Option.isSome_iff_exists.1 (hread v hv)
    exact hdifferent u hu v hv
      ((run?_partitionRefinement_eq_iff ha hd hu' hv').1 (hp.trans hq.symm))

/-- No two of its states are alike. -/
theorem eq_of_alike_partitionRefinement (hp : p ∈ a.partitionRefinement.states)
    (hq : q ∈ a.partitionRefinement.states) (h : a.partitionRefinement.Alike p q) : p = q := by
  obtain ⟨u, hu, hu'⟩ := exists_run?_partitionRefinement ha hd hp
  obtain ⟨v, hv, hv'⟩ := exists_run?_partitionRefinement ha hd hq
  rw [← indistinguishable_iff_alike hu' hv',
    indistinguishable_congr fun _ => outcome_partitionRefinement ha hd,
    ← run?_partitionRefinement_eq_iff ha hd hu hv, hu', hv'] at h
  exact Option.some.inj h

end Minimized

/-- **Minimization by refinement merges exactly the states that cannot be told apart.** It makes a
deterministic automaton from the start and some of the reachable states, in which all states are
reachable; reading a word is possible where it was, with the same answer; and two words lead to one
state iff they could not be told apart. -/
theorem partitionRefinement_merges_indistinguishable (ha : a.WellFormed)
    (hd : a.isDeterministic = true) :
    a.partitionRefinement.isDeterministic = true ∧ a.partitionRefinement.start = a.start ∧
      (∀ p ∈ a.partitionRefinement.states, ∃ w, a.run? a.start w = some p ∧
        a.partitionRefinement.run? a.partitionRefinement.start w = some p) ∧
      (∀ u, (a.partitionRefinement.run? a.partitionRefinement.start u).isSome =
          (a.run? a.start u).isSome ∧ a.partitionRefinement.accepts u = a.accepts u) ∧
      ∀ u v, (a.run? a.start u).isSome = true → (a.run? a.start v).isSome = true →
        (a.partitionRefinement.run? a.partitionRefinement.start u =
          a.partitionRefinement.run? a.partitionRefinement.start v ↔ a.Indistinguishable u v) := by
  have hdet : a.Deterministic := (isDeterministic_iff ha).1 hd
  refine ⟨?_, start_partitionRefinement, fun p hp => exists_run?_partitionRefinement ha hdet hp,
    fun u => outcome_eq_iff.1 (outcome_partitionRefinement ha hdet), fun u v hu hv => ?_⟩
  · exact (isDeterministic_iff wellFormed_partitionRefinement).2
      (deterministic_partitionRefinement ha hdet)
  · obtain ⟨p, hp⟩ := Option.isSome_iff_exists.1 hu
    obtain ⟨q, hq⟩ := Option.isSome_iff_exists.1 hv
    exact run?_partitionRefinement_eq_iff ha hdet hp hq

/-- An automaton in which two of three states have the same moves. -/
def twins : Automaton :=
  ofRows "p" ['x', 'y'] [⟨"p", true, [(.symbol 'x', "q"), (.symbol 'y', "r")]⟩,
    ⟨"q", false, [(.symbol 'x', "p")]⟩, ⟨"r", false, [(.symbol 'x', "p")]⟩]

theorem partitionRefinement_merges_indistinguishable_twins : twins.WellFormed ∧
    twins.isDeterministic = true ∧ twins.Indistinguishable ['x'] ['y'] ∧
      twins.partitionRefinement.run? twins.partitionRefinement.start ['x'] =
        twins.partitionRefinement.run? twins.partitionRefinement.start ['y'] ∧
      twins.partitionRefinement.run? twins.partitionRefinement.start ['x'] ≠
        twins.partitionRefinement.run? twins.partitionRefinement.start ['x', 'x'] := by
  have ha : twins.WellFormed := wellFormed_ofRows
  have hd : twins.isDeterministic = true := by decide
  have hmoves : twins.successors "q" = twins.successors "r" := rfl
  have hsame : twins.Indistinguishable ['x'] ['y'] := by
    refine (indistinguishable_iff_alike (p := "q") (q := "r") (by decide) (by decide)).2 fun w => ?_
    cases w with
    | nil => decide
    | cons c w => rw [outcome_cons, outcome_cons, step?, step?, hmoves]
  have hdifferent : ¬ twins.Indistinguishable ['x'] ['x', 'x'] := fun h =>
    absurd (h []).2 (by decide)
  have hmerged := (partitionRefinement_merges_indistinguishable ha hd).2.2.2.2
  exact ⟨ha, hd, hsame, (hmerged ['x'] ['y'] (by decide) (by decide)).2 hsame,
    fun e => hdifferent ((hmerged ['x'] ['x', 'x'] (by decide) (by decide)).1 e)⟩

end Automaton

end RegularLanguages
