import RegularLanguages.Proofs.Automaton.Equivalence
import RegularLanguages.Proofs.Automaton.Lockstep
import RegularLanguages.Proofs.Minimization.DoubleReversal

/-!
# Double reversal is canonical

The first rounds of two automata for the same language may have nothing in common but this
language. The second rounds proceed in lockstep all the same: the sets that a word leads to are
paired, and each set has one partner, since what a word has in common with another is its future.

* `lockstep_backwardSets` -- the second rounds pair their sets one to one;
* `doubleReversal_eq_of_sameLanguage` -- so they build the same automaton, names included;
* `doubleReversal_canonical` -- **automata over one alphabet have the same language iff they have
  the same minimization**, in the same order or up to order.
-/

namespace RegularLanguages.Automaton

variable {a b : Automaton} {s t : StateSet}

/-- Two sets are paired if some word leads to both of them. -/
def BackwardPair (a b : Automaton) (s t : StateSet) : Prop :=
  ∃ w, s = a.backwardSet w ∧ t = b.backwardSet w

section SameLanguage

variable (ha : a.WellFormed) (hb : b.WellFormed) (h : a.SameLanguage b)

include ha hb h

theorem backwardSet_eq_iff_of_sameLanguage {u v : Word} :
    a.reverseDeterminized.backwardSet u = a.reverseDeterminized.backwardSet v ↔
      b.reverseDeterminized.backwardSet u = b.reverseDeterminized.backwardSet v := by
  rw [backwardSet_eq_iff ha, backwardSet_eq_iff hb, h.sameFuture_iff]

/-- No set has two partners. -/
theorem biUnique_backwardPair :
    Relator.BiUnique (BackwardPair a.reverseDeterminized b.reverseDeterminized) := by
  constructor
  · intro s s' t hs hs'
    obtain ⟨u, rfl, hu⟩ := hs
    obtain ⟨v, rfl, hv⟩ := hs'
    exact (backwardSet_eq_iff_of_sameLanguage ha hb h).2 (hu.symm.trans hv)
  · intro s t t' ht ht'
    obtain ⟨u, hu, rfl⟩ := ht
    obtain ⟨v, hv, rfl⟩ := ht'
    exact (backwardSet_eq_iff_of_sameLanguage ha hb h).1 (hu.symm.trans hv)

/-- **The second rounds proceed in lockstep.** -/
theorem lockstep_backwardSets (halphabet : a.alphabet = b.alphabet) :
    Lockstep a.reverseDeterminized.reverse b.reverseDeterminized.reverse
      (BackwardPair a.reverseDeterminized b.reverseDeterminized) where
  alphabet := by
    rw [alphabet_reverse wellFormed_reverseDeterminized,
      alphabet_reverse wellFormed_reverseDeterminized, alphabet_reverseDeterminized ha,
      alphabet_reverseDeterminized hb, halphabet]
  unique := biUnique_backwardPair ha hb h
  next := by
    intro s t c hst
    obtain ⟨w, rfl, rfl⟩ := hst
    exact ⟨w ++ [c], after_concat.symm, after_concat.symm⟩
  isEmpty := by
    intro s t hst
    obtain ⟨w, rfl, rfl⟩ := hst
    rw [Bool.eq_iff_iff, ← not_iff_not, Bool.not_eq_true, Bool.not_eq_true,
      isEmpty_backwardSet_iff ha, isEmpty_backwardSet_iff hb]
    exact exists_congr fun x => h (w ++ x)
  anyAccepting := by
    intro s t hst
    obtain ⟨w, rfl, rfl⟩ := hst
    rw [Bool.eq_iff_iff, anyAccepting_backwardSet wellFormed_reverseDeterminized,
      anyAccepting_backwardSet wellFormed_reverseDeterminized,
      recognizes_reverseDeterminized_iff ha, recognizes_reverseDeterminized_iff hb]
    exact h _

/-- **They build the same automaton**, whatever the first rounds look like. -/
theorem doubleReversal_eq_of_sameLanguage (halphabet : a.alphabet = b.alphabet) :
    a.doubleReversal = b.doubleReversal := by
  have hentry : BackwardPair a.reverseDeterminized b.reverseDeterminized
      a.reverseDeterminized.reverse.entrySet b.reverseDeterminized.reverse.entrySet :=
    ⟨[], backwardSet_nil.symm, backwardSet_nil.symm⟩
  have hround : a.reverseDeterminized.reverse.determinizeFromEntry =
      b.reverseDeterminized.reverse.determinizeFromEntry :=
    subsetAutomaton_eq_of_lockstep (lockstep_backwardSets ha hb h halphabet) wellFormed_reverse
      wellFormed_reverse hentry fun n => "d" ++ toString n
  exact congrArg reachable hround

end SameLanguage

/-- **Double reversal is canonical**: over one alphabet, automata that recognize the same words
have the same minimization, and automata whose minimizations are equal, be it up to order, recognize
the same words. -/
theorem doubleReversal_canonical (ha : a.WellFormed) (hb : b.WellFormed)
    (halphabet : a.alphabet = b.alphabet) :
    (a.doubleReversal = b.doubleReversal ↔ a.SameLanguage b) ∧
      (a.doubleReversal ≈ b.doubleReversal ↔ a.SameLanguage b) := by
  have back : a.doubleReversal ≈ b.doubleReversal → a.SameLanguage b := fun h w =>
    (sameLanguage_doubleReversal ha w).symm.trans
      ((sameLanguage_of_equiv h w).trans (sameLanguage_doubleReversal hb w))
  have forth : a.SameLanguage b → a.doubleReversal = b.doubleReversal := fun h =>
    doubleReversal_eq_of_sameLanguage ha hb h halphabet
  refine ⟨⟨fun h => back ?_, forth⟩, ⟨back, fun h => ?_⟩⟩
  · rw [h]
    exact equiv_refl _
  · rw [forth h]
    exact equiv_refl _

theorem doubleReversal_canonical_stuttering : stuttering.WellFormed ∧
    stuttering.determinize.WellFormed ∧ stuttering.alphabet = stuttering.determinize.alphabet ∧
      stuttering.doubleReversal = stuttering.determinize.doubleReversal := by
  have ha : stuttering.WellFormed := wellFormed_ofRows
  have halphabet : stuttering.alphabet = stuttering.determinize.alphabet :=
    alphabet_subsetAutomaton.symm
  exact ⟨ha, wellFormed_determinize, halphabet,
    (doubleReversal_canonical ha wellFormed_determinize halphabet).1.2 fun _ =>
      (recognizes_determinize_iff ha).symm⟩

end RegularLanguages.Automaton
