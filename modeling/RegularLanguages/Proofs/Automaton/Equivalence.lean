import RegularLanguages.Automaton.Equivalence
import RegularLanguages.Proofs.Automaton.Path

/-!
# Automata that are equal up to order

The order in which states, symbols and moves were added cannot be seen in the views of an
automaton, so automata that are equal up to it recognize the same words.

* `mem_states_of_equiv`, `mem_successors_of_equiv`, `isAccepting_of_equiv` -- the views are the
  same;
* `sameLanguage_of_equiv` -- **the language is the same**;
* `equiv_of_views` -- well-formed automata with the same views are equal up to order.
-/

namespace RegularLanguages

theorem State.equiv_refl (s : State) : s ≈ s :=
  ⟨rfl, rfl, OrderedMap.equivBy_refl (fun _ => OrderedSet.equiv_iff.2 fun _ => Iff.rfl) _⟩

theorem State.equiv_trans (s t u : State) (h : s ≈ t) (h' : t ≈ u) : s ≈ u :=
  ⟨h.1.trans h'.1, h.2.1.trans h'.2.1, h.2.2.trans h'.2.2 fun _ _ _ => OrderedSet.equiv_trans⟩

theorem State.mem_targets_of_equiv {s t : State} {l : Label} {n : StateName} (h : s ≈ t) :
    n ∈ s.targets l ↔ n ∈ t.targets l := by
  rw [State.mem_targets_iff, State.mem_targets_iff]
  rcases OrderedMap.rel_cases (OrderedMap.equivBy_iff.1 h.2.2 l) with
    ⟨hs, ht⟩ | ⟨us, vs, hs, ht, huv⟩
  · rw [hs, ht]
  · simp [hs, ht, OrderedSet.equiv_iff.1 huv]

/-- A label is stored if there is a target on it. -/
theorem State.Sound.isSome_get?_iff {s : State} {n : StateName} (hs : s.Sound n) {l : Label} :
    (s.transitions.get? l).isSome = true ↔ ∃ u, u ∈ s.targets l := by
  rw [Option.isSome_iff_exists]
  constructor
  · rintro ⟨ts, hts⟩
    have hne := hs.targets_ne_nil (l, ts) (OrderedMap.mem_entries_iff.2 hts)
    obtain ⟨u, hu⟩ := List.exists_mem_of_ne_nil ts.toList hne
    exact ⟨u, State.mem_targets_iff.2 ⟨ts, hts, hu⟩⟩
  · rintro ⟨u, hu⟩
    obtain ⟨ts, hts, _⟩ := State.mem_targets_iff.1 hu
    exact ⟨ts, hts⟩

/-- Sound states with the same mark and the same moves are equivalent. -/
theorem State.equiv_of_targets {s t : State} {n : StateName} (hs : s.Sound n) (ht : t.Sound n)
    (haccepting : s.accepting = t.accepting)
    (htargets : ∀ l u, u ∈ s.targets l ↔ u ∈ t.targets l) : s ≈ t := by
  refine ⟨hs.name_eq.trans ht.name_eq.symm, haccepting, OrderedMap.equivBy_iff.2 fun l => ?_⟩
  refine OrderedMap.rel_of_isSome_eq ?_ fun us vs hus hvs => OrderedSet.equiv_iff.2 fun u => ?_
  · rw [Bool.eq_iff_iff, hs.isSome_get?_iff, ht.isSome_get?_iff]
    exact exists_congr fun u => htargets l u
  · have h := htargets l u
    rw [State.mem_targets_iff, State.mem_targets_iff] at h
    simpa [hus, hvs] using h

namespace Automaton

variable {a b c : Automaton} {n p q : StateName} {l : Label} {w : Word}

theorem equiv_refl (a : Automaton) : a ≈ a :=
  ⟨rfl, OrderedSet.equiv_iff.2 fun _ => Iff.rfl, OrderedSet.equiv_iff.2 fun _ => Iff.rfl,
    OrderedMap.equivBy_refl State.equiv_refl _⟩

theorem equiv_trans (h : a ≈ b) (h' : b ≈ c) : a ≈ c :=
  ⟨h.1.trans h'.1, OrderedSet.equiv_trans h.2.1 h'.2.1, OrderedSet.equiv_trans h.2.2.1 h'.2.2.1,
    h.2.2.2.trans h'.2.2.2 State.equiv_trans⟩

/-- Under each name there are equivalent states, or none. -/
theorem state?_of_equiv (h : a ≈ b) (n : StateName) : (a.state? n = none ∧ b.state? n = none) ∨
    ∃ s t, a.state? n = some s ∧ b.state? n = some t ∧ s ≈ t :=
  OrderedMap.rel_cases (OrderedMap.equivBy_iff.1 h.2.2.2 n)

theorem mem_states_of_equiv (h : a ≈ b) : n ∈ a.states ↔ n ∈ b.states := by
  rw [OrderedMap.mem_iff_exists_get?, OrderedMap.mem_iff_exists_get?]
  rcases state?_of_equiv h n with ⟨ha, hb⟩ | ⟨s, t, ha, hb, -⟩
  · rw [state?] at ha hb
    rw [ha, hb]
  · exact ⟨fun _ => ⟨t, hb⟩, fun _ => ⟨s, ha⟩⟩

theorem mem_successors_of_equiv (h : a ≈ b) : q ∈ a.successors p l ↔ q ∈ b.successors p l := by
  rcases state?_of_equiv h p with ⟨ha, hb⟩ | ⟨s, t, ha, hb, hst⟩
  · rw [successors_of_state?_eq_none ha, successors_of_state?_eq_none hb]
  · rw [successors_of_state? ha, successors_of_state? hb, State.mem_targets_of_equiv hst]

theorem isAccepting_of_equiv (h : a ≈ b) : a.isAccepting p = b.isAccepting p := by
  rcases state?_of_equiv h p with ⟨ha, hb⟩ | ⟨s, t, ha, hb, hst⟩
  · rw [isAccepting, isAccepting, ha, hb]
  · rw [isAccepting_of_state? ha, isAccepting_of_state? hb, hst.2.1]

theorem path_of_equiv (h : a ≈ b) : a.Path p w q ↔ b.Path p w q :=
  ⟨Path.mono fun _ _ _ hs => (mem_successors_of_equiv h).1 hs,
    Path.mono fun _ _ _ hs => (mem_successors_of_equiv h).2 hs⟩

/-- **Order does not matter to the language.** -/
theorem sameLanguage_of_equiv (h : a ≈ b) : a.SameLanguage b := by
  intro w
  have hstart : a.start = b.start := h.1
  simp only [Recognizes, RecognizesFrom, path_of_equiv h, isAccepting_of_equiv h, hstart]

theorem deterministic_of_equiv (h : a ≈ b) (hb : b.Deterministic) : a.Deterministic where
  epsilonFree p := List.eq_nil_iff_forall_not_mem.2 fun q hq => by
    have hmoves := (mem_successors_of_equiv h).1 hq
    rw [hb.epsilonFree] at hmoves
    exact List.not_mem_nil hmoves
  unique hq hr := hb.unique ((mem_successors_of_equiv h).1 hq) ((mem_successors_of_equiv h).1 hr)

/-- **Well-formed automata with the same views are equal up to order.** -/
theorem equiv_of_views (ha : a.WellFormed) (hb : b.WellFormed) (hstart : a.start = b.start)
    (halphabet : ∀ c, c ∈ a.alphabet ↔ c ∈ b.alphabet)
    (hstates : ∀ n, n ∈ a.states ↔ n ∈ b.states)
    (haccepting : ∀ n, a.isAccepting n = b.isAccepting n)
    (hmoves : ∀ n l t, t ∈ a.successors n l ↔ t ∈ b.successors n l) : a ≈ b := by
  refine ⟨hstart, OrderedSet.equiv_iff.2 fun n => ?_, OrderedSet.equiv_iff.2 halphabet,
    OrderedMap.equivBy_iff.2 fun n => OrderedMap.rel_of_isSome_eq ?_ fun s t hs ht => ?_⟩
  · rw [ha.mem_accepting_iff, hb.mem_accepting_iff, haccepting]
  · rw [Bool.eq_iff_iff, OrderedMap.isSome_get?_iff, OrderedMap.isSome_get?_iff]
    exact hstates n
  · have hmark := haccepting n
    rw [isAccepting_of_state? hs, isAccepting_of_state? ht] at hmark
    refine State.equiv_of_targets (ha.sound hs) (hb.sound ht) hmark fun l u => ?_
    rw [← successors_of_state? hs, ← successors_of_state? ht]
    exact hmoves n l u

/-- It is enough to compare the marks and moves of the states. -/
theorem equiv_of_views_of_mem (ha : a.WellFormed) (hb : b.WellFormed) (hstart : a.start = b.start)
    (halphabet : ∀ c, c ∈ a.alphabet ↔ c ∈ b.alphabet)
    (hstates : ∀ n, n ∈ a.states ↔ n ∈ b.states)
    (haccepting : ∀ n ∈ a.states, a.isAccepting n = b.isAccepting n)
    (hmoves : ∀ n ∈ a.states, ∀ l t, t ∈ a.successors n l ↔ t ∈ b.successors n l) : a ≈ b := by
  refine equiv_of_views ha hb hstart halphabet hstates (fun n => ?_) fun n l t => ?_
  all_goals by_cases hn : n ∈ a.states
  · exact haccepting n hn
  · rw [isAccepting_of_not_mem hn, isAccepting_of_not_mem (mt (hstates n).2 hn)]
  · exact hmoves n hn l t
  · rw [successors_of_not_mem hn, successors_of_not_mem (mt (hstates n).2 hn)]

end Automaton

end RegularLanguages
