import RegularLanguages.Proofs.Automaton.Idempotence
import RegularLanguages.Proofs.Minimization.Coarsest
import RegularLanguages.Proofs.Minimization.DoubleReversal

/-!
# What refinement leaves as it is

Refinement has nothing to do where paths lead to all states and no two states are alike. Both
minimizations end there, for different reasons: refinement merges states that are alike, and double
reversal keeps one state for each future.

* `Reduced` -- a deterministic automaton with nothing to take away and nothing to merge;
* `Reduced.partitionRefinement_equiv` -- **refinement leaves it as it is**;
* `reduced_partitionRefinement`, `reduced_doubleReversal` -- both minimizations are reduced;
* `partitionRefinement_fixes_minimized` -- **so refinement leaves them as they are**.
-/

namespace RegularLanguages.Automaton

variable {a : Automaton} {p q : StateName} {classes : List (List StateName)}

/-! ## 1. Reduced automata -/

/-- A deterministic automaton in which paths from the start lead to all states and no two states
are alike. -/
structure Reduced (a : Automaton) : Prop where
  wellFormed : a.WellFormed
  deterministic : a.Deterministic
  accessible : ∀ p ∈ a.states, a.Accessible p
  eq_of_alike : ∀ p ∈ a.states, ∀ q ∈ a.states, a.Alike p q → p = q

/-- Pruning leaves it reduced. -/
theorem Reduced.reachable (h : a.Reduced) : a.reachable.Reduced where
  wellFormed := wellFormed_reachable
  deterministic := h.deterministic.reachable h.wellFormed
  accessible _ := accessible_reachable h.wellFormed
  eq_of_alike p hp q hq hpq := by
    rw [mem_states_reachable h.wellFormed] at hp hq
    refine h.eq_of_alike p (hp.mem_states h.wellFormed) q (hq.mem_states h.wellFormed) fun w => ?_
    rw [← outcome_reachable h.wellFormed h.deterministic hp,
      ← outcome_reachable h.wellFormed h.deterministic hq, hpq w]

/-- Its states stand for themselves when refinement ends. -/
theorem Reduced.finalRepresentative_eq (h : a.Reduced) (hp : p ∈ a.states) :
    a.finalRepresentative p = p := by
  have hc := congruence_finalRepresentative h.wellFormed
  have hmem : a.finalRepresentative p ∈ a.states := hc.mem p hp
  refine h.eq_of_alike _ hmem p hp ?_
  rw [← finalRepresentative_eq_iff h.wellFormed h.deterministic hmem hp]
  exact hc.idempotent p hp

/-- Where all states stand for themselves, the automaton of the representatives is the same. -/
theorem quotient_equiv (ha : a.WellFormed)
    (h : ∀ p ∈ a.states, a.representative classes p = p) : a.quotient classes ≈ a := by
  have hstates : ∀ p, p ∈ (a.quotient classes).states ↔ p ∈ a.states := fun p => by
    rw [quotient_eq, mem_states_selection ha]
    refine ⟨fun hp => ?_, fun hp => Or.inr (Or.inl ⟨hp, h p hp⟩)⟩
    rcases hp with rfl | ⟨hp, _⟩ | ⟨_, _, _, u, hu, rfl⟩
    · exact ha.start_mem
    · exact hp
    · have hu' := ha.mem_of_mem_successors hu
      rwa [h u hu']
  refine equiv_of_views_of_mem wellFormed_quotient ha start_quotient (fun c => ?_) hstates
    (fun p hp => ?_) fun p hp l t => ?_
  · rw [quotient_eq, alphabet_selection ha]
  · rw [Bool.eq_iff_iff, isAccepting_quotient ha]
    exact and_iff_right (h p ((hstates p).1 hp))
  · rw [mem_successors_quotient ha, and_iff_right (h p ((hstates p).1 hp))]
    refine ⟨fun ht => ?_, fun ht => ⟨t, ht, (h t (ha.mem_of_mem_successors ht)).symm⟩⟩
    obtain ⟨u, hu, rfl⟩ := ht
    rwa [h u (ha.mem_of_mem_successors hu)]

/-- **Refinement leaves a reduced automaton as it is.** -/
theorem Reduced.partitionRefinement_equiv (h : a.Reduced) : a.partitionRefinement ≈ a := by
  have hpruned : a.reachable.Reduced := h.reachable
  exact equiv_trans (quotient_equiv wellFormed_reachable fun p => hpruned.finalRepresentative_eq)
    (reachable_equiv h.wellFormed h.accessible)

/-! ## 2. Minimized automata -/

/-- **What refinement yields is reduced**: alike states were merged. -/
theorem reduced_partitionRefinement (ha : a.WellFormed) (hd : a.Deterministic) :
    a.partitionRefinement.Reduced where
  wellFormed := wellFormed_partitionRefinement
  deterministic := deterministic_partitionRefinement ha hd
  accessible p hp := by
    obtain ⟨w, _, hw⟩ := exists_run?_partitionRefinement ha hd hp
    exact ⟨w, (path_iff_run? (deterministic_partitionRefinement ha hd)).2 hw⟩
  eq_of_alike p hp q hq := eq_of_alike_partitionRefinement ha hd hp hq

/-- States that double reversal leaves are one if they recognize the same words: the words that
lead to them have one future. -/
theorem eq_of_sameLanguageFrom_doubleReversal (ha : a.WellFormed)
    (hp : p ∈ a.doubleReversal.states) (hq : q ∈ a.doubleReversal.states)
    (h : a.doubleReversal.SameLanguageFrom p q) : p = q := by
  obtain ⟨u, hu⟩ := accessible_doubleReversal hp
  obtain ⟨v, hv⟩ := accessible_doubleReversal hq
  have hrun : ∀ {w n}, a.doubleReversal.Path a.doubleReversal.start w n →
      a.doubleReversal.run? a.doubleReversal.start w = some n :=
    (path_iff_run? deterministic_doubleReversal).1
  have hfuture : ∀ {w n}, a.doubleReversal.Path a.doubleReversal.start w n →
      w = [] ∨ ∃ x, a.Recognizes (w ++ x) := fun hw =>
    (isSome_run?_doubleReversal_iff ha).1 (Option.isSome_of_eq_some (hrun hw))
  have hsame : a.SameFuture u v :=
    ((sameLanguage_doubleReversal ha).sameLanguageFrom_iff deterministic_doubleReversal hu hv).1 h
  have heq := (run?_doubleReversal_eq_iff ha (hfuture hu) (hfuture hv)).2 hsame
  rw [hrun hu, hrun hv] at heq
  exact Option.some.inj heq

/-- **What double reversal yields is reduced**: alike states recognize the same words. -/
theorem reduced_doubleReversal (ha : a.WellFormed) : a.doubleReversal.Reduced where
  wellFormed := wellFormed_doubleReversal
  deterministic := deterministic_doubleReversal
  accessible _ := accessible_doubleReversal
  eq_of_alike _ hp _ hq hpq := eq_of_sameLanguageFrom_doubleReversal ha hp hq
    ((alike_iff deterministic_doubleReversal).1 hpq).2

/-- **Refinement leaves minimized automata as they are**, names, marks and moves included: the
refinement of a deterministic automaton and the double reversal of any automaton. -/
theorem partitionRefinement_fixes_minimized (ha : a.WellFormed) :
    (a.isDeterministic = true → a.partitionRefinement.partitionRefinement ≈ a.partitionRefinement) ∧
      a.doubleReversal.partitionRefinement ≈ a.doubleReversal := by
  refine ⟨fun hd => ?_, (reduced_doubleReversal ha).partitionRefinement_equiv⟩
  have hdet : a.Deterministic := (isDeterministic_iff ha).1 hd
  exact (reduced_partitionRefinement ha hdet).partitionRefinement_equiv

theorem partitionRefinement_fixes_minimized_twins : twins.WellFormed ∧
    twins.isDeterministic = true ∧
      twins.partitionRefinement.partitionRefinement ≈ twins.partitionRefinement ∧
      stuttering.WellFormed ∧ stuttering.isDeterministic = false ∧
      stuttering.doubleReversal.partitionRefinement ≈ stuttering.doubleReversal := by
  have ha : twins.WellFormed := wellFormed_ofRows
  have hd : twins.isDeterministic = true := by decide
  have hb : stuttering.WellFormed := wellFormed_ofRows
  exact ⟨ha, hd, (partitionRefinement_fixes_minimized ha).1 hd, hb, by decide,
    (partitionRefinement_fixes_minimized hb).2⟩

end RegularLanguages.Automaton
