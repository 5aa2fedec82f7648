import RegularLanguages.Automaton.Determinization
import RegularLanguages.Proofs.Automaton.Subsets
import RegularLanguages.Proofs.Ordered.Worklist

/-!
# Determinization yields the powerset automaton

Sets of states are told apart by their members, the states of the result by their names. Whatever
the names of the members are, the names of the sets keep the sets apart.

* `worklist_exhausted` -- the search for sets ends, with the sets that the result is made from;
* `met_iff_mem_subsets` -- these are the sets that are met;
* `met_iff_path` -- a set is met iff it holds the ends of all paths that spell some word, and there
  are any;
* `determinize_yields_powerset` -- **determinization yields the powerset automaton**.
-/

namespace RegularLanguages.Automaton

variable {a : Automaton} {s : StateSet}

/-- **The search for sets ends**: with a queue of sets it cannot go on for ever, and within the bound
of the construction the queue gets empty. What is found then are the sets that get a name. -/
theorem worklist_exhausted (ha : a.WellFormed) (initial : StateSet) :
    Acc (fun r' r => Worklist.step a.nextSets r = some r') (.ofList [initial]) ∧
      (Worklist.after a.nextSets (1 + Nat.pow 2 a.transitionCount) (.ofList [initial])).pending =
        [] ∧
      (Worklist.after a.nextSets (1 + Nat.pow 2 a.transitionCount) (.ofList [initial])).found =
        a.subsets initial := by
  have hbound : BoundsReach a.nextSets [initial] (1 + Nat.pow 2 a.transitionCount) :=
    boundsReach_nextSets ha
  have hend := Worklist.pending_after hbound
  exact ⟨Worklist.acc_of_pending_after hend, hend, Worklist.found_after_ofList _⟩

/-- The search finds the sets that are met. -/
theorem met_iff_mem_subsets (ha : a.WellFormed) : a.Met s ↔ s ∈ a.subsets a.initialSet := by
  refine ⟨fun h => ?_, fun h => ?_⟩
  · induction h with
    | initial => exact initial_mem_subsets ha
    | next _ _ hne ih => exact next_mem_subsets ha ih hne
  · rw [subsets, mem_explore_iff (boundsReach_nextSets ha)] at h
    induction h with
    | init h =>
      obtain rfl := List.mem_singleton.1 h
      exact .initial
    | step _ hb ih =>
      obtain ⟨hne, c, rfl⟩ := (mem_nextSets_iff ha).1 hb
      exact ih.next c hne

/-- **A set is met iff it holds the ends of all paths that spell some word**, and there are any.
-/
theorem met_iff_path (ha : a.WellFormed) :
    a.Met s ↔ (∃ q, q ∈ s) ∧ ∃ w, ∀ q, q ∈ s ↔ a.Path a.start w q := by
  rw [met_iff_mem_subsets ha, mem_subsets_iff ha]
  refine ⟨fun h => ?_, fun h => ?_⟩
  · obtain ⟨w, rfl, hw⟩ := h
    refine ⟨?_, w, fun _ => mem_after_initialSet_iff⟩
    rcases hw with rfl | hne
    · exact ⟨a.start, mem_initialSet_iff.2 (.here _)⟩
    · exact StateSet.isEmpty_eq_false_iff.1 hne
  · obtain ⟨hne, w, hw⟩ := h
    refine ⟨w, StateSet.ext fun q => (hw q).trans mem_after_initialSet_iff.symm, Or.inr ?_⟩
    exact StateSet.isEmpty_eq_false_iff.2 hne

theorem isPowerset_determinize (ha : a.WellFormed) :
    IsPowerset a a.determinize (a.setName a.initialSet fun s _ => s.joined) where
  mem_states_iff n := by
    simp only [met_iff_mem_subsets ha]
    exact mem_states_subsetAutomaton ha
  injective s t hs ht :=
    setName_injective ((met_iff_mem_subsets ha).1 hs) ((met_iff_mem_subsets ha).1 ht)
  start := start_subsetAutomaton
  accepting s hs := by
    rw [determinize, isAccepting_setName ((met_iff_mem_subsets ha).1 hs), anyAccepting_iff]
  moves s hs l n := mem_successors_setName ha ((met_iff_mem_subsets ha).1 hs)

/-- **Determinization yields the powerset automaton**, whatever the states are called. It comes to an
end: the search for sets does not go on for ever, its queue is empty within the bound of the
construction, with all sets found that the result is made from, and the search for a name that is
not taken stops at the first one. The result is deterministic, and its states stand one to one for
the non-empty sets that are met, which hold the ends of all paths that spell some word. So it accepts
what the automaton recognizes. -/
theorem determinize_yields_powerset (ha : a.WellFormed) :
    (Acc (fun r' r => Worklist.step a.nextSets r = some r') (.ofList [a.initialSet]) ∧
      (Worklist.after a.nextSets (1 + Nat.pow 2 a.transitionCount)
        (.ofList [a.initialSet])).pending = [] ∧
      (Worklist.after a.nextSets (1 + Nat.pow 2 a.transitionCount)
        (.ofList [a.initialSet])).found = a.subsets a.initialSet) ∧
      (∀ taken proposal, ∃ i ≤ taken.length, distinctName taken proposal = variant proposal i ∧
        variant proposal i ∉ taken ∧ ∀ j < i, variant proposal j ∈ taken) ∧
      a.determinize.isDeterministic = true ∧ (∃ name, IsPowerset a a.determinize name) ∧
      (∀ s, a.Met s ↔ (∃ q, q ∈ s) ∧ ∃ w, ∀ q, q ∈ s ↔ a.Path a.start w q) ∧
      ∀ w, a.determinize.accepts w = true ↔ a.Recognizes w :=
  ⟨worklist_exhausted ha a.initialSet, exists_distinctName,
    (isDeterministic_iff wellFormed_determinize).2 (deterministic_determinize ha),
    ⟨_, isPowerset_determinize ha⟩, fun _ => met_iff_path ha, fun _ => accepts_determinize_iff ha⟩

/-- An automaton in which two sets that are met have the same joined names. -/
def clashing : Automaton :=
  ofRows "p" ['x', 'y'] [⟨"p", false, [(.symbol 'x', "a"), (.symbol 'x', "b"),
    (.symbol 'y', "a,b")]⟩, ⟨"a", false, []⟩, ⟨"b", false, [(.epsilon, "a"), (.epsilon, "b")]⟩,
    ⟨"a,b", true, []⟩]

example : clashing.determinize.stateNames = ["p", "a,b", "a,b.1"] := by decide

theorem determinize_yields_powerset_clashing : clashing.WellFormed ∧
    (Worklist.after clashing.nextSets (1 + Nat.pow 2 clashing.transitionCount)
      (.ofList [clashing.initialSet])).pending = [] ∧
      clashing.determinize.isDeterministic = true ∧
      (∃ name, IsPowerset clashing clashing.determinize name ∧
        name (.ofList ["a", "b"]) ≠ name (.ofList ["a,b"])) ∧
      clashing.determinize.accepts ['y'] = true := by
  have ha : clashing.WellFormed := wellFormed_ofRows
  obtain ⟨⟨_, hend, _⟩, _, hd, ⟨name, hname⟩, _, haccepts⟩ := determinize_yields_powerset ha
  have hx : clashing.Met (.ofList ["a", "b"]) := Met.initial.next 'x' (by decide)
  have hy : clashing.Met (.ofList ["a,b"]) := Met.initial.next 'y' (by decide)
  have hword : clashing.Recognizes ['y'] := ⟨"a,b", .single (by decide), by decide⟩
  refine ⟨ha, hend, hd, ⟨name, hname, fun e => ?_⟩, (haccepts ['y']).2 hword⟩
  exact absurd (hname.injective _ _ hx hy e) (by decide)

end RegularLanguages.Automaton
