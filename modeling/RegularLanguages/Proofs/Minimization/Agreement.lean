import RegularLanguages.Proofs.Automaton.Isomorphism
import RegularLanguages.Proofs.Automaton.Productive
import RegularLanguages.Proofs.Minimization.Comparison
import RegularLanguages.Proofs.Pipeline

/-!
# Where the two minimizations agree

If something is recognized from every state, a word can be read iff it has a future. Then
refinement, which goes by what can be read and by the future, and double reversal, which goes by the
future alone, put the same words together. An expression without `empty` has such an automaton.

* `Productive.isSome_run?_iff` -- the words that can be read are those that have a future;
* `isomorphic_partitionRefinement_doubleReversal` -- **the minimizations of an automaton without
  useless states differ in the names of the states only**;
* `compile_strategies_agree` -- **so do the automata of an expression without `empty`, and no
  deterministic automaton for its language is smaller**.
-/

namespace RegularLanguages

variable {a : Automaton} {e : Regex} {w : Word}

/-! ## 1. Automata without useless states -/

namespace Automaton

section Minimized

variable (ha : a.WellFormed) (hd : a.Deterministic) (h : a.Productive)

include ha hd h

/-- A word can be read iff it has a future. -/
theorem Productive.isSome_run?_iff :
    (a.run? a.start w).isSome = true ↔ ∃ x, a.Recognizes (w ++ x) := by
  rw [Option.isSome_iff_exists]
  refine ⟨fun hrun => ?_, fun hfuture => ?_⟩
  · obtain ⟨q, hq⟩ := hrun
    have hpath := (path_iff_run? hd).2 hq
    obtain ⟨x, hx⟩ := h q (hpath.mem_states ha ha.start_mem)
    exact ⟨x, (recognizesFrom_iff_append hd hpath).1 hx⟩
  · obtain ⟨q, _, hq⟩ := exists_run?_of_future ha hd (Or.inr hfuture)
    exact ⟨q, hq⟩

/-- So what can be read depends on the future only. -/
theorem Productive.readsByFuture : a.ReadsByFuture := by
  intro u v _ _ hfuture w
  rw [Bool.eq_iff_iff, h.isSome_run?_iff ha hd, h.isSome_run?_iff ha hd]
  simp only [List.append_assoc, hfuture _]

/-- Double reversal changes nothing about which words can be read. -/
theorem outcome_doubleReversal :
    a.doubleReversal.outcome a.doubleReversal.start w = a.outcome a.start w := by
  refine outcome_eq_iff.2 ⟨?_, ?_⟩
  · rw [Bool.eq_iff_iff, isSome_run?_doubleReversal_iff ha, ← h.isSome_run?_iff ha hd]
    exact or_iff_right_of_imp fun hw => hw ▸ rfl
  · rw [Bool.eq_iff_iff, accepts_doubleReversal_iff ha, accepts_iff_recognizes hd]

/-- **Both minimizations leave the same up to the names of the states.** -/
theorem isomorphic_partitionRefinement_doubleReversal :
    Isomorphic a.partitionRefinement a.doubleReversal := by
  have hminimized : a.partitionRefinement.Deterministic := deterministic_partitionRefinement ha hd
  refine isomorphic_of_runs wellFormed_partitionRefinement wellFormed_doubleReversal hminimized
    deterministic_doubleReversal (fun p hp => ?_) (fun q hq => accessible_reverseDeterminized hq)
    (fun w => ?_) fun u v hu hv => ?_
  · obtain ⟨w, _, hw⟩ := exists_run?_partitionRefinement ha hd hp
    exact ⟨w, (path_iff_run? hminimized).2 hw⟩
  · rw [outcome_partitionRefinement ha hd, outcome_doubleReversal ha hd h]
  · have hread : ∀ x, (a.partitionRefinement.run? a.partitionRefinement.start x).isSome =
        (a.run? a.start x).isSome := fun _ =>
      (outcome_eq_iff.1 (outcome_partitionRefinement ha hd)).1
    rw [hread] at hu hv
    obtain ⟨p, hp⟩ := Option.isSome_iff_exists.1 hu
    obtain ⟨q, hq⟩ := Option.isSome_iff_exists.1 hv
    rw [run?_partitionRefinement_eq_iff ha hd hp hq,
      indistinguishable_iff_sameFuture hd (h.readsByFuture ha hd) hu hv]
    rw [h.isSome_run?_iff ha hd] at hu hv
    exact (run?_doubleReversal_eq_iff ha (Or.inr hu) (Or.inr hv)).symm

/-- Then either strategy leaves a smallest automaton. -/
theorem size_minimize_le {b : Automaton} (hb : b.WellFormed) (hdb : b.Deterministic)
    (hsame : a.SameLanguage b) (s : Strategy) : (a.minimize s).size ≤ b.size := by
  have hle : a.doubleReversal.size ≤ b.size := size_doubleReversal_le ha hb hdb hsame
  cases s with
  | partition => exact (isomorphic_partitionRefinement_doubleReversal ha hd h).size_eq.trans_le hle
  | reversal => exact hle

end Minimized

end Automaton

/-! ## 2. Expressions without `empty` -/

namespace Regex

/-- **On expressions without `empty` the strategies agree**: the automata that they make differ in
the names of the states only; they are deterministic automata for the language, and none for it has
fewer states. -/
theorem compile_strategies_agree (e : Regex) (options : Options)
    (h : .empty ∉ e.subexpressions) :
    Automaton.Isomorphic (e.compile { options with strategy := .partition, minimize := true })
        (e.compile { options with strategy := .reversal, minimize := true }) ∧
      ∀ s : Strategy,
        (e.compile { options with strategy := s, minimize := true }).isDeterministic = true ∧
        (∀ w, (e.compile { options with strategy := s, minimize := true }).accepts w = true ↔
          e.Denotes w) ∧
        ∀ b : Automaton, b.WellFormed → b.isDeterministic = true →
          (∀ w, b.accepts w = true ↔ e.Denotes w) →
            (e.compile { options with strategy := s, minimize := true }).size ≤ b.size := by
  have hthompson : (Automaton.ofRegex e).WellFormed := Automaton.wellFormed_fromRegex e 0
  have ha : (Automaton.ofRegex e).determinize.WellFormed := Automaton.wellFormed_determinize
  have hd : (Automaton.ofRegex e).determinize.Deterministic :=
    Automaton.deterministic_determinize hthompson
  have hproductive : (Automaton.ofRegex e).determinize.Productive :=
    (Automaton.productive_fromRegex h).determinize hthompson
  refine ⟨Automaton.isomorphic_partitionRefinement_doubleReversal ha hd hproductive,
    fun s => ⟨?_, fun w => accepts_compile_iff _, fun b hb hdb hlanguage => ?_⟩⟩
  · exact (Automaton.isDeterministic_iff (wellFormed_compile _)).2 (deterministic_compile _)
  · have hdet : b.Deterministic := (Automaton.isDeterministic_iff hb).1 hdb
    refine Automaton.size_minimize_le ha hd hproductive hb hdet (fun w => ?_) s
    rw [Automaton.recognizes_determinize_iff hthompson, ← Automaton.accepts_iff_recognizes hdet,
      hlanguage, Automaton.ofRegex, Automaton.recognizes_fromRegex_iff, mem_language]

/-- An expression whose deterministic automaton has two states, which both accept. -/
def repeated : Regex := .star (.symbol 'a')

theorem compile_strategies_agree_repeated : .empty ∉ repeated.subexpressions ∧
    Automaton.Isomorphic (repeated.compile {}) (repeated.compile { strategy := .reversal }) ∧
      (repeated.compile {}).isDeterministic = true ∧ (repeated.compile {}).accepts ['a'] = true ∧
        (repeated.compile {}).size ≤ (repeated.compile { minimize := false }).size := by
  have h : .empty ∉ repeated.subexpressions := by decide
  have hword : repeated.Denotes ['a'] := .again (.symbol 'a') .stop
  have hd : (repeated.compile { minimize := false }).isDeterministic = true :=
    (Automaton.isDeterministic_iff (wellFormed_compile _)).2 (deterministic_compile _)
  obtain ⟨hisomorphic, hleast⟩ := compile_strategies_agree repeated {} h
  obtain ⟨hdet, haccepts, hsize⟩ := hleast .partition
  exact ⟨h, hisomorphic, hdet, (haccepts ['a']).2 hword,
    hsize _ (wellFormed_compile _) hd fun _ => accepts_compile_iff _⟩

end Regex

end RegularLanguages
