import RegularLanguages.Proofs.Automaton.Subsets
import RegularLanguages.Proofs.Ordered.Correspondence

/-!
# Subset constructions in lockstep

Two automata over one alphabet whose sets correspond, symbol by symbol, get the same automaton from
the subset construction if names are made from numbers: the searches meet corresponding sets in the
same order, and nothing else enters the result.

* `Lockstep` -- a relation that pairs sets one to one and is kept by reading a symbol;
* `subsetAutomaton_eq_of_lockstep` -- **the two results are the same automaton**.
-/

namespace RegularLanguages.Automaton

variable {a b : Automaton} {r : StateSet → StateSet → Prop} {s t initial initial' : StateSet}
  {names names' : OrderedMap StateSet StateName}

/-- A pairing of the sets of two automata that reading a symbol keeps. -/
structure Lockstep (a b : Automaton) (r : StateSet → StateSet → Prop) : Prop where
  /-- The order of the symbols is the same. -/
  alphabet : a.alphabet = b.alphabet
  /-- No set is paired with two others. -/
  unique : Relator.BiUnique r
  /-- A symbol leads from paired sets to paired sets. -/
  next : ∀ s t c, r s t → r (a.next s c) (b.next t c)
  /-- Paired sets are empty together. -/
  isEmpty : ∀ s t, r s t → s.isEmpty = t.isEmpty
  /-- Paired sets accept together. -/
  anyAccepting : ∀ s t, r s t → a.anyAccepting s = b.anyAccepting t

theorem Lockstep.nextSets (h : Lockstep a b r) (hst : r s t) :
    List.Forall₂ r (a.nextSets s) (b.nextSets t) := by
  unfold Automaton.nextSets
  rw [h.alphabet]
  refine List.rel_filter (fun s t hst => ?_) ?_
  · show (!s.isEmpty) = true ↔ (!t.isEmpty) = true
    rw [h.isEmpty s t hst]
  · rw [List.forall₂_map_left_iff, List.forall₂_map_right_iff, List.forall₂_same]
    exact fun c _ => h.next s t c hst

/-- The searches meet paired sets in the same order. Their bounds differ, but neither matters. -/
theorem Lockstep.subsets (h : Lockstep a b r) (ha : a.WellFormed) (hb : b.WellFormed)
    (hi : r initial initial') : (a.subsets initial).Corresponds r (b.subsets initial') := by
  unfold Automaton.subsets
  rw [← explore_eq_of_bounds (boundsReach_nextSets ha) (Nat.le_max_left _ _),
    ← explore_eq_of_bounds (boundsReach_nextSets hb) (Nat.le_max_right _ _)]
  exact corresponds_explore h.unique (fun s t hst => h.nextSets hst) (.cons hi .nil)

/-- Names made from numbers are the same for paired sets. -/
theorem corresponds_nameSets (name : Nat → StateName) (hr : Relator.BiUnique r)
    {sets sets' : List StateSet} (h : List.Forall₂ r sets sets') :
    (nameSets (fun _ n => name n) sets).Corresponds r (nameSets (fun _ n => name n) sets') := by
  refine List.rel_foldl (P := OrderedMap.Corresponds r) (fun m n hmn s t hst => ?_)
    OrderedMap.corresponds_empty h
  rw [hmn.values_eq, hmn.size_eq]
  exact hmn.insert hr hst _

theorem Lockstep.setRow (h : Lockstep a b r) (hn : names.Corresponds r names') (hst : r s t)
    (n : StateName) : a.setRow names (s, n) = b.setRow names' (t, n) := by
  have hedges : ∀ c, (if (a.next s c).isEmpty then none
        else (names.get? (a.next s c)).map fun name => (Label.symbol c, name)) =
      if (b.next t c).isEmpty then none
        else (names'.get? (b.next t c)).map fun name => (Label.symbol c, name) := by
    intro c
    have hc := h.next s t c hst
    rw [h.isEmpty _ _ hc, hn.get?_eq h.unique hc]
  simp only [Automaton.setRow, h.anyAccepting s t hst, h.alphabet, hedges]

theorem Lockstep.rows (h : Lockstep a b r) (hn : names.Corresponds r names') :
    names.entries.map (a.setRow names) = names'.entries.map (b.setRow names') := by
  have hrows : List.Forall₂ (· = ·) (names.entries.map (a.setRow names))
      (names'.entries.map (b.setRow names')) := by
    rw [List.forall₂_map_left_iff, List.forall₂_map_right_iff]
    refine List.Forall₂.imp (fun d e hde => ?_) hn
    obtain ⟨s, n⟩ := d
    obtain ⟨t, n'⟩ := e
    obtain rfl : n = n' := hde.2
    exact h.setRow hn hde.1 n
  rwa [List.forall₂_eq_eq_eq] at hrows

/-- **Paired sets make the same automaton.** -/
theorem subsetAutomaton_eq_of_lockstep (h : Lockstep a b r) (ha : a.WellFormed) (hb : b.WellFormed)
    (hi : r initial initial') (name : Nat → StateName) :
    a.subsetAutomaton initial (fun _ n => name n) =
      b.subsetAutomaton initial' (fun _ n => name n) := by
  have hn := corresponds_nameSets name h.unique (h.subsets ha hb hi)
  simp only [subsetAutomaton, h.rows hn, hn.get?_eq h.unique hi, h.alphabet]

end RegularLanguages.Automaton
