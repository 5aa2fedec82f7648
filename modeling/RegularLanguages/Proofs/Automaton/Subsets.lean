import Mathlib.Data.List.Sublists
import RegularLanguages.Proofs.Automaton.Naming
import RegularLanguages.Proofs.Automaton.StateSet
import RegularLanguages.Proofs.Automaton.Table

/-!
# The subset construction

The automaton of the sets that words lead to from an initial set. All its properties are stated
through the name `setName` that a set gets; how names are chosen plays no part.

* `mem_subsets_iff` -- the search finds exactly the sets that words lead to;
* `mem_successors_setName`, `isAccepting_setName`, `mem_states_subsetAutomaton` -- the views of the
  automaton: it is the accessible part of the powerset automaton;
* `perm_stateNames_subsetAutomaton`, `size_subsetAutomaton` -- it has one state for each set;
* `deterministic_subsetAutomaton`, `run?_setName_iff` -- it is deterministic, and its runs go
  through the sets that words lead to;
* `accepts_subsetAutomaton` -- **it accepts the words whose set holds an accepting state**.
-/

namespace RegularLanguages.Automaton

variable {a : Automaton} {s t initial : StateSet} {c : Symbol} {w : Word}

/-! ## 1. The sets that are met -/

theorem mem_nextSets_iff (ha : a.WellFormed) :
    t ∈ a.nextSets s ↔ t.isEmpty = false ∧ ∃ c, t = a.next s c := by
  rw [nextSets, List.mem_filter, List.mem_map, Bool.not_eq_true']
  refine ⟨fun h => ?_, fun h => ?_⟩
  · obtain ⟨⟨c, _, rfl⟩, h⟩ := h
    exact ⟨h, c, rfl⟩
  · obtain ⟨h, c, rfl⟩ := h
    refine ⟨⟨c, ?_, rfl⟩, h⟩
    refine Decidable.byContradiction fun hc => ?_
    rw [isEmpty_next_of_not_mem ha hc] at h
    cases h

/-- All members of a set behind a symbol are targets of moves. -/
theorem mem_moveTargets_of_mem_next {n : StateName} (h : n ∈ a.next s c) : n ∈ a.moveTargets := by
  obtain ⟨r, hr, hpath⟩ := mem_closure_iff.1 h
  obtain ⟨p, _, hr⟩ := mem_move_iff.1 hr
  have h' : n ∈ a.moveTargets ∧ a.Path r [] n :=
    hpath.confined (· ∈ a.moveTargets) (fun _ _ _ _ hs => ⟨mem_moveTargets hs, hs⟩)
      (mem_moveTargets hr)
  exact h'.1

/-- A set of names from a list is the set of one of its sublists. -/
theorem mem_map_ofList_sublists {l : List StateName} (h : ∀ n ∈ s, n ∈ l) :
    s ∈ l.sublists.map StateSet.ofList := by
  refine List.mem_map.2 ⟨l.filter (· ∈ s), List.mem_sublists.2 List.filter_sublist, ?_⟩
  refine StateSet.ext fun n => ?_
  rw [StateSet.mem_ofList, List.mem_filter, decide_eq_true_eq]
  exact ⟨And.right, fun hn => ⟨h n hn, hn⟩⟩

/-- Apart from the initial one, the sets that are met consist of targets of moves. -/
theorem boundsReach_nextSets (ha : a.WellFormed) :
    BoundsReach a.nextSets [initial] (1 + Nat.pow 2 a.transitionCount) := by
  have h : ∀ s, Reaches a.nextSets [initial] s →
      s ∈ initial :: a.moveTargets.sublists.map StateSet.ofList := by
    intro s hs
    cases hs with
    | init h => exact List.mem_cons.2 (Or.inl (List.mem_singleton.1 h))
    | step _ hb =>
      obtain ⟨_, c, rfl⟩ := (mem_nextSets_iff ha).1 hb
      exact List.mem_cons_of_mem _
        (mem_map_ofList_sublists fun n hn => mem_moveTargets_of_mem_next hn)
  have hb := boundsReach_of_subset h
  rwa [List.length_cons, List.length_map, List.length_sublists, length_moveTargets,
    Nat.add_comm] at hb

/-- **The search meets exactly the sets that words lead to**, an empty one only at its start. -/
theorem mem_subsets_iff (ha : a.WellFormed) : s ∈ a.subsets initial ↔
    ∃ w, s = a.after initial w ∧ (w = [] ∨ s.isEmpty = false) := by
  rw [subsets, mem_explore_iff (boundsReach_nextSets ha)]
  refine ⟨fun h => ?_, fun h => ?_⟩
  · induction h with
    | init h => exact ⟨[], List.mem_singleton.1 h, Or.inl rfl⟩
    | step _ hb ih =>
      obtain ⟨w, rfl, _⟩ := ih
      obtain ⟨hne, c, rfl⟩ := (mem_nextSets_iff ha).1 hb
      exact ⟨w ++ [c], after_concat.symm, Or.inr hne⟩
  · obtain ⟨w, rfl, h⟩ := h
    induction w using List.reverseRecOn with
    | nil => exact .init List.mem_cons_self
    | append_singleton w c ih =>
      rw [after_concat] at h ⊢
      have hne : (a.next (a.after initial w) c).isEmpty = false := by simpa using h
      have hw : (a.after initial w).isEmpty = false := by
        refine Bool.eq_false_iff.2 fun he => ?_
        rw [isEmpty_next he] at hne
        cases hne
      exact .step (ih (Or.inr hw)) ((mem_nextSets_iff ha).2 ⟨hne, c, rfl⟩)

theorem initial_mem_subsets (ha : a.WellFormed) : initial ∈ a.subsets initial :=
  (mem_subsets_iff ha).2 ⟨[], rfl, Or.inl rfl⟩

theorem next_mem_subsets (ha : a.WellFormed) (hs : s ∈ a.subsets initial)
    (hne : (a.next s c).isEmpty = false) : a.next s c ∈ a.subsets initial := by
  obtain ⟨w, rfl, _⟩ := (mem_subsets_iff ha).1 hs
  exact (mem_subsets_iff ha).2 ⟨w ++ [c], after_concat.symm, Or.inr hne⟩

/-! ## 2. Their names -/

variable {proposal : StateSet → Nat → StateName}

/-- The name of a set in the automaton of the sets met from an initial one. -/
def setName (a : Automaton) (initial : StateSet) (proposal : StateSet → Nat → StateName)
    (s : StateSet) : StateName :=
  ((nameSets proposal (a.subsets initial).toList).get? s).getD (proposal initial 0)

theorem get?_nameSets_iff {n : StateName} :
    (nameSets proposal (a.subsets initial).toList).get? s = some n ↔
      s ∈ a.subsets initial ∧ n = a.setName initial proposal s := by
  have hmem := @mem_nameSets_iff proposal _ s (a.subsets initial).nodup
  unfold setName
  refine ⟨fun h => ?_, fun h => ?_⟩
  · refine ⟨hmem.1 (OrderedMap.mem_iff_exists_get?.2 ⟨n, h⟩), ?_⟩
    rw [h, Option.getD_some]
  · obtain ⟨hs, rfl⟩ := h
    obtain ⟨n, hn⟩ := OrderedMap.mem_iff_exists_get?.1 (hmem.2 hs)
    rw [hn, Option.getD_some]

theorem setName_injective (hs : s ∈ a.subsets initial) (ht : t ∈ a.subsets initial)
    (h : a.setName initial proposal s = a.setName initial proposal t) : s = t :=
  OrderedMap.get?_injective (nodup_values_nameSets (a.subsets initial).nodup)
    (get?_nameSets_iff.2 ⟨hs, rfl⟩) (get?_nameSets_iff.2 ⟨ht, h⟩)

/-- Where different sets that are met are proposed different names, each has the one proposed. -/
theorem setName_of_injOn {f : StateSet → StateName}
    (hf : ∀ s ∈ a.subsets initial, ∀ t ∈ a.subsets initial, f s = f t → s = t)
    (hs : s ∈ a.subsets initial) : a.setName initial (fun s _ => f s) s = f s := by
  have hentry : (s, f s) ∈ (nameSets (fun s _ => f s) (a.subsets initial).toList).entries := by
    rw [entries_nameSets_of_injOn (a.subsets initial).nodup hf]
    exact List.mem_map_of_mem hs
  exact (get?_nameSets_iff.1 (OrderedMap.mem_entries_iff.1 hentry)).2.symm

/-! ## 3. The automaton -/

theorem mem_rows_iff {r : Row} :
    r ∈ (nameSets proposal (a.subsets initial).toList).entries.map
        (a.setRow (nameSets proposal (a.subsets initial).toList)) ↔
      ∃ s, s ∈ a.subsets initial ∧ r = a.setRow (nameSets proposal (a.subsets initial).toList)
        (s, a.setName initial proposal s) := by
  rw [List.mem_map]
  refine ⟨fun h => ?_, fun h => ?_⟩
  · obtain ⟨⟨s, n⟩, he, rfl⟩ := h
    obtain ⟨hs, rfl⟩ := get?_nameSets_iff.1 (OrderedMap.mem_entries_iff.1 he)
    exact ⟨s, hs, rfl⟩
  · obtain ⟨s, hs, rfl⟩ := h
    exact ⟨_, OrderedMap.mem_entries_iff.2 (get?_nameSets_iff.2 ⟨hs, rfl⟩), rfl⟩

theorem mem_edges_setRow_iff {names : OrderedMap StateSet StateName} {e : StateSet × StateName}
    {l : Label} {n : StateName} : (l, n) ∈ (a.setRow names e).edges ↔
      ∃ c ∈ a.alphabet, l = .symbol c ∧ (a.next e.1 c).isEmpty = false ∧
        names.get? (a.next e.1 c) = some n := by
  rw [setRow, List.mem_filterMap]
  refine ⟨fun h => ?_, fun h => ?_⟩
  · obtain ⟨c, hc, h⟩ := h
    by_cases he : (a.next e.1 c).isEmpty = true
    · rw [if_pos he] at h
      cases h
    · rw [if_neg he] at h
      obtain ⟨m, hm, e⟩ := Option.map_eq_some_iff.1 h
      cases e
      exact ⟨c, hc, rfl, Bool.eq_false_iff.2 he, hm⟩
  · obtain ⟨c, hc, rfl, he, hn⟩ := h
    refine ⟨c, hc, ?_⟩
    rw [if_neg (Bool.eq_false_iff.1 he), hn]
    rfl

theorem wellFormed_subsetAutomaton : (a.subsetAutomaton initial proposal).WellFormed :=
  wellFormed_ofRows

@[simp] theorem alphabet_subsetAutomaton :
    (a.subsetAutomaton initial proposal).alphabet = a.alphabet := by
  refine alphabet_ofRows fun r hr c n h => ?_
  obtain ⟨s, _, rfl⟩ := mem_rows_iff.1 hr
  obtain ⟨c', hc, e, _⟩ := mem_edges_setRow_iff.1 h
  cases e
  exact hc

theorem start_subsetAutomaton :
    (a.subsetAutomaton initial proposal).start = a.setName initial proposal initial :=
  start_ofRows

theorem mem_successors_setName (ha : a.WellFormed) (hs : s ∈ a.subsets initial) {l : Label}
    {n : StateName} :
    n ∈ (a.subsetAutomaton initial proposal).successors (a.setName initial proposal s) l ↔
      ∃ c, l = .symbol c ∧ (a.next s c).isEmpty = false ∧
        n = a.setName initial proposal (a.next s c) := by
  rw [subsetAutomaton, mem_successors_ofRows]
  refine ⟨fun h => ?_, fun h => ?_⟩
  · obtain ⟨r, hr, hname, he⟩ := h
    obtain ⟨t, ht, rfl⟩ := mem_rows_iff.1 hr
    obtain rfl := setName_injective ht hs hname
    obtain ⟨c, _, rfl, hne, hn⟩ := mem_edges_setRow_iff.1 he
    exact ⟨c, rfl, hne, (get?_nameSets_iff.1 hn).2⟩
  · obtain ⟨c, rfl, hne, rfl⟩ := h
    refine ⟨_, mem_rows_iff.2 ⟨s, hs, rfl⟩, rfl, mem_edges_setRow_iff.2 ⟨c, ?_, rfl, hne, ?_⟩⟩
    · refine Decidable.byContradiction fun hc => ?_
      rw [isEmpty_next_of_not_mem ha hc] at hne
      cases hne
    · exact get?_nameSets_iff.2 ⟨next_mem_subsets ha hs hne, rfl⟩

theorem isAccepting_setName (hs : s ∈ a.subsets initial) :
    (a.subsetAutomaton initial proposal).isAccepting (a.setName initial proposal s) =
      a.anyAccepting s := by
  rw [Bool.eq_iff_iff, subsetAutomaton, isAccepting_ofRows]
  constructor
  · intro h
    obtain ⟨r, hr, hname, hacc⟩ := h
    obtain ⟨t, ht, rfl⟩ := mem_rows_iff.1 hr
    obtain rfl := setName_injective ht hs hname
    exact hacc
  · exact fun h => ⟨_, mem_rows_iff.2 ⟨s, hs, rfl⟩, rfl, h⟩

/-- The states stand for the sets that are met. -/
theorem mem_states_subsetAutomaton (ha : a.WellFormed) {n : StateName} :
    n ∈ (a.subsetAutomaton initial proposal).states ↔
      ∃ s ∈ a.subsets initial, n = a.setName initial proposal s := by
  rw [subsetAutomaton, mem_states_ofRows]
  refine ⟨fun h => ?_, fun h => ?_⟩
  · rcases h with rfl | ⟨r, hr, h⟩
    · exact ⟨initial, initial_mem_subsets ha, rfl⟩
    · obtain ⟨s, hs, rfl⟩ := mem_rows_iff.1 hr
      rcases h with rfl | ⟨⟨l, m⟩, he, rfl⟩
      · exact ⟨s, hs, rfl⟩
      · obtain ⟨c, _, _, _, hm⟩ := mem_edges_setRow_iff.1 he
        exact ⟨a.next s c, get?_nameSets_iff.1 hm⟩
  · obtain ⟨s, hs, rfl⟩ := h
    exact Or.inr ⟨_, mem_rows_iff.2 ⟨s, hs, rfl⟩, Or.inl rfl⟩

/-- There is one state for each set. -/
theorem perm_stateNames_subsetAutomaton (ha : a.WellFormed) :
    (a.subsetAutomaton initial proposal).stateNames.Perm
      (nameSets proposal (a.subsets initial).toList).values := by
  refine (List.perm_ext_iff_of_nodup (a.subsetAutomaton initial proposal).states.nodup
    (nodup_values_nameSets (a.subsets initial).nodup)).2 fun n => ?_
  rw [OrderedMap.mem_values_iff]
  simp only [get?_nameSets_iff]
  exact mem_states_subsetAutomaton ha

theorem size_subsetAutomaton (ha : a.WellFormed) :
    (a.subsetAutomaton initial proposal).size = (a.subsets initial).size := by
  rw [← length_stateNames, (perm_stateNames_subsetAutomaton ha).length_eq, OrderedMap.values,
    List.length_map]
  exact size_nameSets (a.subsets initial).nodup

theorem deterministic_subsetAutomaton (ha : a.WellFormed) :
    (a.subsetAutomaton initial proposal).Deterministic := by
  have hset : ∀ {p q l}, q ∈ (a.subsetAutomaton initial proposal).successors p l →
      ∃ s ∈ a.subsets initial, p = a.setName initial proposal s := fun h =>
    (mem_states_subsetAutomaton ha).1 (mem_states_of_mem_successors h)
  refine ⟨fun p => List.eq_nil_iff_forall_not_mem.2 fun q hq => ?_, fun {p c q r} hq hr => ?_⟩
  · obtain ⟨s, hs, rfl⟩ := hset hq
    obtain ⟨c, e, _⟩ := (mem_successors_setName ha hs).1 hq
    cases e
  · obtain ⟨s, hs, rfl⟩ := hset hq
    obtain ⟨c₁, e₁, _, rfl⟩ := (mem_successors_setName ha hs).1 hq
    obtain ⟨c₂, e₂, _, rfl⟩ := (mem_successors_setName ha hs).1 hr
    cases e₁
    cases e₂
    rfl

theorem step?_setName_iff (ha : a.WellFormed) (hs : s ∈ a.subsets initial) {n : StateName} :
    (a.subsetAutomaton initial proposal).step? (a.setName initial proposal s) c = some n ↔
      (a.next s c).isEmpty = false ∧ n = a.setName initial proposal (a.next s c) := by
  rw [step?_eq_some_iff (deterministic_subsetAutomaton ha), mem_successors_setName ha hs]
  constructor
  · intro h
    obtain ⟨c', e, h⟩ := h
    cases e
    exact h
  · exact fun h => ⟨c, rfl, h⟩

/-- A run goes through the sets that its word leads to, and ends before an empty one. -/
theorem run?_setName_iff (ha : a.WellFormed) (hs : s ∈ a.subsets initial) {n : StateName} :
    (a.subsetAutomaton initial proposal).run? (a.setName initial proposal s) w = some n ↔
      (w = [] ∨ (a.after s w).isEmpty = false) ∧ n = a.setName initial proposal (a.after s w) := by
  induction w generalizing s with
  | nil =>
    exact ⟨fun h => ⟨Or.inl rfl, (Option.some.inj h).symm⟩, fun h => congrArg some h.2.symm⟩
  | cons c w ih =>
    rw [run?_cons, Option.bind_eq_some_iff, after_cons]
    refine ⟨fun h => ?_, fun h => ?_⟩
    · obtain ⟨m, hm, hw⟩ := h
      obtain ⟨hne, rfl⟩ := (step?_setName_iff ha hs).1 hm
      obtain ⟨h, rfl⟩ := (ih (next_mem_subsets ha hs hne)).1 hw
      refine ⟨Or.inr ?_, rfl⟩
      rcases h with rfl | h
      · exact hne
      · exact h
    · obtain ⟨h, rfl⟩ := h
      have hafter : (a.after (a.next s c) w).isEmpty = false := by simpa using h
      have hne : (a.next s c).isEmpty = false := by
        refine Bool.eq_false_iff.2 fun he => ?_
        rw [isEmpty_after he] at hafter
        cases hafter
      exact ⟨_, (step?_setName_iff ha hs).2 ⟨hne, rfl⟩,
        (ih (next_mem_subsets ha hs hne)).2 ⟨Or.inr hafter, rfl⟩⟩

/-- **A word is accepted iff the set that it leads to holds an accepting state.** -/
theorem accepts_subsetAutomaton (ha : a.WellFormed) :
    (a.subsetAutomaton initial proposal).accepts w = true ↔
      a.anyAccepting (a.after initial w) = true := by
  have hi : initial ∈ a.subsets initial := initial_mem_subsets ha
  rw [accepts_iff_run?, start_subsetAutomaton]
  simp only [run?_setName_iff ha hi]
  refine ⟨fun h => ?_, fun hacc => ?_⟩
  · obtain ⟨n, ⟨h, rfl⟩, hacc⟩ := h
    have hmem : a.after initial w ∈ a.subsets initial := (mem_subsets_iff ha).2 ⟨w, rfl, h⟩
    rwa [isAccepting_setName hmem] at hacc
  · obtain ⟨q, hq, _⟩ := anyAccepting_iff.1 hacc
    have hne : (a.after initial w).isEmpty = false := StateSet.isEmpty_eq_false_iff.2 ⟨q, hq⟩
    have hmem : a.after initial w ∈ a.subsets initial :=
      (mem_subsets_iff ha).2 ⟨w, rfl, Or.inr hne⟩
    exact ⟨_, ⟨Or.inr hne, rfl⟩, (isAccepting_setName hmem).trans hacc⟩

/-! ## 4. The construction from the start -/

theorem wellFormed_determinize : a.determinize.WellFormed := wellFormed_subsetAutomaton

theorem deterministic_determinize (ha : a.WellFormed) : a.determinize.Deterministic :=
  deterministic_subsetAutomaton ha

/-- **Determinization keeps the language.** -/
theorem accepts_determinize_iff (ha : a.WellFormed) :
    a.determinize.accepts w = true ↔ a.Recognizes w := by
  rw [determinize, accepts_subsetAutomaton ha, anyAccepting_after_initialSet_iff]

theorem recognizes_determinize_iff (ha : a.WellFormed) :
    a.determinize.Recognizes w ↔ a.Recognizes w :=
  (accepts_iff_recognizes (deterministic_determinize ha)).symm.trans (accepts_determinize_iff ha)

end RegularLanguages.Automaton
