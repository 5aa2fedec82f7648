import RegularLanguages.Proofs.Minimization.Coarsest
import RegularLanguages.Proofs.Minimization.DoubleReversal

/-!
# How far the two minimizations are apart

Double reversal leaves one state for each future in which something is accepted. Refinement keeps
the states from which nothing is accepted as well, and since a missing move is not the same to it
as a move to such a state, it may keep several states with one future.

* `sameLanguageFrom_iff_sameFuture` -- the words recognized from a state that refinement leaves are
  the future of the words that lead to it;
* `length_le_of_differentLanguages` -- so the states it leaves have at most one language more than
  double reversal leaves states;
* `ReadsByFuture` -- what may be read depends on the future only, and
  `indistinguishable_iff_sameFuture`: then refinement goes by the future, too;
* `size_partitionRefinement_bounds` -- **the sizes of the two minimizations**;
* `not_size_partitionRefinement_le` -- refinement may leave two states more.
-/

namespace RegularLanguages.Automaton

variable {a : Automaton} {p q : StateName} {u v w : Word} {names : List StateName}

/-! ## 1. Languages of the states that are left -/

section Languages

variable (ha : a.WellFormed) (hd : a.Deterministic)

include ha hd

theorem recognizes_partitionRefinement_iff :
    a.partitionRefinement.Recognizes w ↔ a.Recognizes w := by
  rw [← accepts_iff_recognizes (deterministic_partitionRefinement ha hd),
    accepts_partitionRefinement_iff ha hd]

theorem sameLanguage_partitionRefinement : a.partitionRefinement.SameLanguage a :=
  fun _ => recognizes_partitionRefinement_iff ha hd

theorem recognizesFrom_partitionRefinement_iff
    (hu : a.partitionRefinement.run? a.partitionRefinement.start u = some p) :
    a.partitionRefinement.RecognizesFrom p w ↔ a.Recognizes (u ++ w) := by
  have hdet := deterministic_partitionRefinement ha hd
  exact (sameLanguage_partitionRefinement ha hd).recognizesFrom_iff hdet
    ((path_iff_run? hdet).2 hu)

/-- Two states have the same language iff the words that lead to them have the same future. -/
theorem sameLanguageFrom_iff_sameFuture
    (hu : a.partitionRefinement.run? a.partitionRefinement.start u = some p)
    (hv : a.partitionRefinement.run? a.partitionRefinement.start v = some q) :
    a.partitionRefinement.SameLanguageFrom p q ↔ a.SameFuture u v := by
  have hdet := deterministic_partitionRefinement ha hd
  exact (sameLanguage_partitionRefinement ha hd).sameLanguageFrom_iff hdet
    ((path_iff_run? hdet).2 hu) ((path_iff_run? hdet).2 hv)

/-- States with different languages, in each of which there is a word, correspond to states that
double reversal leaves. -/
theorem length_le_of_nonemptyLanguages (hn : names.Nodup)
    (hmem : ∀ p ∈ names, p ∈ a.partitionRefinement.states)
    (hdifferent : ∀ p ∈ names, ∀ q ∈ names, a.partitionRefinement.SameLanguageFrom p q → p = q)
    (hword : ∀ p ∈ names, ∃ w, a.partitionRefinement.RecognizesFrom p w) :
    names.length ≤ a.doubleReversal.size := by
  refine length_le_of_relation hn (fun p q => ∃ w, (∃ x, a.Recognizes (w ++ x)) ∧
    a.partitionRefinement.run? a.partitionRefinement.start w = some p ∧
      a.doubleReversal.run? a.doubleReversal.start w = some q) ?_ ?_
  · intro p hp
    obtain ⟨w, _, hw⟩ := exists_run?_partitionRefinement ha hd (hmem p hp)
    obtain ⟨x, hx⟩ := hword p hp
    rw [recognizesFrom_partitionRefinement_iff ha hd hw] at hx
    obtain ⟨q, hq⟩ := Option.isSome_iff_exists.1
      ((isSome_run?_doubleReversal_iff ha).2 (Or.inr ⟨x, hx⟩))
    have hpath := (path_iff_run? deterministic_doubleReversal).2 hq
    have hstart : a.doubleReversal.start ∈ a.doubleReversal.states :=
      wellFormed_doubleReversal.start_mem
    exact ⟨q, hpath.mem_states wellFormed_doubleReversal hstart, w, ⟨x, hx⟩, hw, hq⟩
  · intro p hp p' hp' q h h'
    obtain ⟨u, hfuture, hu, hq⟩ := h
    obtain ⟨v, hfuture', hv, hq'⟩ := h'
    refine hdifferent p hp p' hp' ((sameLanguageFrom_iff_sameFuture ha hd hu hv).2 ?_)
    exact (run?_doubleReversal_eq_iff ha (Or.inr hfuture) (Or.inr hfuture')).1
      (hq.trans hq'.symm)

/-- **States with different languages are at most one more than the states that double reversal
leaves**: the one more is a state from which nothing is accepted. -/
theorem length_le_of_differentLanguages (hn : names.Nodup)
    (hmem : ∀ p ∈ names, p ∈ a.partitionRefinement.states)
    (hdifferent : ∀ p ∈ names, ∀ q ∈ names, a.partitionRefinement.SameLanguageFrom p q → p = q) :
    names.length ≤ a.doubleReversal.size + 1 := by
  by_cases hdead : ∃ d ∈ names, ∀ w, ¬ a.partitionRefinement.RecognizesFrom d w
  · -- there is no second such state, so without it all others recognize something
    obtain ⟨d, hdmem, hdead⟩ := hdead
    have hsub : ∀ p ∈ names.erase d, p ∈ names := fun p hp => List.mem_of_mem_erase hp
    have hle : (names.erase d).length ≤ a.doubleReversal.size := by
      refine length_le_of_nonemptyLanguages ha hd (hn.erase d) (fun p hp => hmem p (hsub p hp))
        (fun p hp q hq => hdifferent p (hsub p hp) q (hsub q hq)) fun p hp => ?_
      refine Classical.byContradiction fun hnone => ?_
      rw [not_exists] at hnone
      have hpd : p = d := hdifferent p (hsub p hp) d hdmem fun w => by simp [hnone w, hdead w]
      exact ((List.Nodup.mem_erase_iff hn).1 hp).1 hpd
    rw [List.length_erase_of_mem hdmem] at hle
    omega
  · have hword : ∀ p ∈ names, ∃ w, a.partitionRefinement.RecognizesFrom p w := by
      simpa using hdead
    exact (length_le_of_nonemptyLanguages ha hd hn hmem hdifferent hword).trans (Nat.le_succ _)

end Languages

/-! ## 2. Where refinement goes by the future -/

/-- What may be read behind a word depends on its future only. -/
def ReadsByFuture (a : Automaton) : Prop :=
  ∀ u v, (a.run? a.start u).isSome = true → (a.run? a.start v).isSome = true →
    a.SameFuture u v → ∀ w, (a.run? a.start (u ++ w)).isSome = (a.run? a.start (v ++ w)).isSome

/-- No state misses a move on a symbol of the alphabet. -/
def Complete (a : Automaton) : Prop :=
  ∀ p ∈ a.states, ∀ c ∈ a.alphabet, (a.step? p c).isSome = true

/-- Where no move is missing, all words over the alphabet can be read. -/
theorem Complete.isSome_run?_iff (h : a.Complete) (ha : a.WellFormed) (hp : p ∈ a.states) :
    (a.run? p w).isSome = true ↔ ∀ c ∈ w, c ∈ a.alphabet := by
  induction w generalizing p with
  | nil => simp
  | cons c w ih =>
    rw [run?_cons, List.forall_mem_cons]
    by_cases hc : c ∈ a.alphabet
    · obtain ⟨q, hq⟩ := Option.isSome_iff_exists.1 (h p hp c hc)
      have hmem : q ∈ a.states := ha.mem_of_mem_successors (List.mem_of_head? hq)
      rw [hq, Option.bind_some, ih hmem]
      exact (and_iff_right hc).symm
    · rw [step?, ha.successors_eq_nil hc]
      simp [hc]

/-- What may be read then does not depend on anything. -/
theorem Complete.readsByFuture (h : a.Complete) (ha : a.WellFormed) : a.ReadsByFuture := by
  intro u v hu hv _ w
  have hread : ∀ x, (a.run? a.start x).isSome = true ↔ ∀ c ∈ x, c ∈ a.alphabet := fun _ =>
    h.isSome_run?_iff ha ha.start_mem
  rw [hread] at hu hv
  rw [Bool.eq_iff_iff, hread, hread, List.forall_mem_append, List.forall_mem_append,
    and_iff_right hu, and_iff_right hv]

theorem indistinguishable_iff_sameFuture (hd : a.Deterministic) (h : a.ReadsByFuture)
    (hu : (a.run? a.start u).isSome = true) (hv : (a.run? a.start v).isSome = true) :
    a.Indistinguishable u v ↔ a.SameFuture u v := by
  have haccepts : ∀ w, a.accepts (u ++ w) = a.accepts (v ++ w) ↔
      (a.Recognizes (u ++ w) ↔ a.Recognizes (v ++ w)) := fun w => by
    rw [Bool.eq_iff_iff, accepts_iff_recognizes hd, accepts_iff_recognizes hd]
  refine ⟨fun hsame w => (haccepts w).1 (hsame w).2, fun hfuture w => ?_⟩
  exact ⟨h u v hu hv hfuture w, (haccepts w).2 (hfuture w)⟩

/-- Then states with one language are one. -/
theorem eq_of_sameLanguageFrom (ha : a.WellFormed) (hd : a.Deterministic) (h : a.ReadsByFuture)
    (hp : p ∈ a.partitionRefinement.states) (hq : q ∈ a.partitionRefinement.states)
    (hpq : a.partitionRefinement.SameLanguageFrom p q) : p = q := by
  obtain ⟨u, hu, hu'⟩ := exists_run?_partitionRefinement ha hd hp
  obtain ⟨v, hv, hv'⟩ := exists_run?_partitionRefinement ha hd hq
  rw [sameLanguageFrom_iff_sameFuture ha hd hu' hv',
    ← indistinguishable_iff_sameFuture hd h (Option.isSome_of_eq_some hu)
      (Option.isSome_of_eq_some hv),
    ← run?_partitionRefinement_eq_iff ha hd hu hv, hu', hv'] at hpq
  exact Option.some.inj hpq

/-! ## 3. Sizes -/

/-- **The sizes of the two minimizations.** Refinement leaves as many states as double reversal or
more. States that recognize the same words counted once, it leaves at most one more; such states
differ in the words that can be read from them. If what may be read depends on the future only,
there are no such states. -/
theorem size_partitionRefinement_bounds (ha : a.WellFormed) (hd : a.isDeterministic = true) :
    a.doubleReversal.size ≤ a.partitionRefinement.size ∧
      (∀ names : List StateName, names.Nodup → (∀ p ∈ names, p ∈ a.partitionRefinement.states) →
        (∀ p ∈ names, ∀ q ∈ names, a.partitionRefinement.SameLanguageFrom p q → p = q) →
          names.length ≤ a.doubleReversal.size + 1) ∧
      (∀ p ∈ a.partitionRefinement.states, ∀ q ∈ a.partitionRefinement.states,
        a.partitionRefinement.SameLanguageFrom p q →
          (∀ w, (a.partitionRefinement.run? p w).isSome =
            (a.partitionRefinement.run? q w).isSome) → p = q) ∧
      (a.ReadsByFuture → a.partitionRefinement.size ≤ a.doubleReversal.size + 1) := by
  have hdet : a.Deterministic := (isDeterministic_iff ha).1 hd
  have hminimized : a.partitionRefinement.Deterministic :=
    deterministic_partitionRefinement ha hdet
  refine ⟨?_, fun names hn hmem hdifferent =>
    length_le_of_differentLanguages ha hdet hn hmem hdifferent, fun p hp q hq hpq hread => ?_,
    fun h => ?_⟩
  · exact size_doubleReversal_le ha wellFormed_partitionRefinement hminimized fun _ =>
      (recognizes_partitionRefinement_iff ha hdet).symm
  · exact eq_of_alike_partitionRefinement ha hdet hp hq ((alike_iff hminimized).2 ⟨hread, hpq⟩)
  · rw [← length_stateNames (a := a.partitionRefinement)]
    exact length_le_of_differentLanguages ha hdet a.partitionRefinement.states.nodup
      (fun p hp => hp) fun p hp q hq hpq => eq_of_sameLanguageFrom ha hdet h hp hq hpq

/-- An automaton that reads on when nothing more is accepted. -/
def sinking : Automaton :=
  ofRows "p" ['x'] [⟨"p", true, [(.symbol 'x', "q")]⟩, ⟨"q", false, [(.symbol 'x', "q")]⟩]

theorem size_partitionRefinement_bounds_sinking : sinking.WellFormed ∧
    sinking.isDeterministic = true ∧ sinking.ReadsByFuture ∧
      sinking.doubleReversal.size = 1 ∧ sinking.partitionRefinement.size = 2 ∧
      sinking.partitionRefinement.size ≤ sinking.doubleReversal.size + 1 := by
  have ha : sinking.WellFormed := wellFormed_ofRows
  have hd : sinking.isDeterministic = true := by decide
  have hall : (sinking.stateNames.all fun p => sinking.alphabet.toList.all fun c =>
      (sinking.step? p c).isSome) = true := by decide
  have hcomplete : sinking.Complete := fun p hp =>
    List.all_eq_true.1 (List.all_eq_true.1 hall p hp)
  have hreads : sinking.ReadsByFuture := hcomplete.readsByFuture ha
  have hreversal : sinking.doubleReversal.size = 1 := by decide
  have hle := (size_partitionRefinement_bounds ha hd).2.2.2 hreads
  have hge : [[], ['x']].length ≤ sinking.partitionRefinement.size := by
    refine length_le_of_distinguishable ha ((isDeterministic_iff ha).1 hd) (by decide) (by decide)
      fun u hu v hv h => ?_
    have haccepts : ∀ u ∈ [[], ['x']], ∀ v ∈ [[], ['x']],
        sinking.accepts u = sinking.accepts v → u = v := by decide
    exact haccepts u hu v hv (by simpa using (h []).2)
  rw [hreversal] at hle
  exact ⟨ha, hd, hreads, hreversal, Nat.le_antisymm hle hge, hreversal ▸ hle⟩

/-- An automaton that reads two more symbols, and then no other, when nothing more is accepted. -/
def trailing : Automaton :=
  ofRows "p" ['x'] [⟨"p", true, [(.symbol 'x', "q")]⟩, ⟨"q", false, [(.symbol 'x', "r")]⟩,
    ⟨"r", false, []⟩]

/-- Refinement may leave two states more than double reversal: the empty word is told apart by
being accepted, and of the other two only one can be read on. -/
theorem not_size_partitionRefinement_le : ¬ ∀ a : Automaton, a.WellFormed →
    a.isDeterministic = true → a.partitionRefinement.size ≤ a.doubleReversal.size + 1 := by
  intro h
  have ha : trailing.WellFormed := wellFormed_ofRows
  have hd : trailing.isDeterministic = true := by decide
  have hle := h trailing ha hd
  have hge : [[], ['x'], ['x', 'x']].length ≤ trailing.partitionRefinement.size := by
    refine length_le_of_distinguishable ha ((isDeterministic_iff ha).1 hd) (by decide) (by decide)
      fun u hu v hv hsame => ?_
    have hshow : ∀ u ∈ [[], ['x'], ['x', 'x']], ∀ v ∈ [[], ['x'], ['x', 'x']],
        trailing.accepts u = trailing.accepts v →
          (trailing.run? trailing.start (u ++ ['x'])).isSome =
            (trailing.run? trailing.start (v ++ ['x'])).isSome → u = v := by decide
    exact hshow u hu v hv (by simpa using (hsame []).2) (hsame ['x']).1
  have hreversal : trailing.doubleReversal.size = 1 := by decide
  rw [hreversal] at hle
  exact absurd (hge.trans hle) (by decide)

end RegularLanguages.Automaton
