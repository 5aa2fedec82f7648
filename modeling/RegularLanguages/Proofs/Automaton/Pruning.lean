import RegularLanguages.Automaton.Construction
import RegularLanguages.Proofs.Automaton.Path
import RegularLanguages.Proofs.Automaton.Table

/-!
# The reachable part of an automaton

* `selection` -- an automaton made of the rows of some states, with the targets of their moves
  renamed, and its views;
* `Accessible` -- some path from the start leads to the state, and `mem_reachableStates_iff`: the
  search finds exactly these states;
* `mem_successors_reachable`, `isAccepting_reachable`, `mem_states_reachable` -- the views of the
  reachable part: what is left is as it was;
* `recognizes_reachable`, `Deterministic.reachable` -- **pruning keeps the language and
  determinism**.
-/

namespace RegularLanguages

theorem State.mem_edges_row_iff {s : State} {rename : StateName → StateName} {l : Label}
    {t : StateName} : (l, t) ∈ (s.row rename).edges ↔ ∃ u ∈ s.targets l, t = rename u := by
  rw [State.row, List.mem_map]
  refine ⟨fun h => ?_, fun h => ?_⟩
  · obtain ⟨⟨m, u⟩, he, e⟩ := h
    cases e
    exact ⟨u, State.mem_edges_iff.1 he, rfl⟩
  · obtain ⟨u, hu, rfl⟩ := h
    exact ⟨(l, u), State.mem_edges_iff.2 hu, rfl⟩

namespace Automaton

variable {a : Automaton} {p q t : StateName} {l : Label} {w : Word} {c : Symbol}

/-! ## 1. Selected rows -/

section Selection

variable {keep : StateName → Prop} [DecidablePred keep] {rename : StateName → StateName}

/-- The automaton of the rows of those states that are kept, with all targets renamed. -/
def selection (a : Automaton) (keep : StateName → Prop) [DecidablePred keep]
    (rename : StateName → StateName) : Automaton :=
  ofRows a.start a.alphabet.toList
    ((a.states.values.filter fun s => keep s.name).map fun s => s.row rename)

theorem mem_selected_rows_iff (ha : a.WellFormed) {r : Row} :
    r ∈ (a.states.values.filter fun s => keep s.name).map (fun s => s.row rename) ↔
      ∃ s, a.state? s.name = some s ∧ keep s.name ∧ r = s.row rename := by
  simp only [List.mem_map, List.mem_filter, decide_eq_true_eq, ha.mem_values_iff, and_assoc,
    eq_comm (b := r)]

theorem wellFormed_selection : (a.selection keep rename).WellFormed := wellFormed_ofRows

theorem start_selection : (a.selection keep rename).start = a.start := start_ofRows

/-- **Kept states have their own moves, to renamed targets.** -/
theorem mem_successors_selection (ha : a.WellFormed) :
    t ∈ (a.selection keep rename).successors p l ↔
      keep p ∧ ∃ u ∈ a.successors p l, t = rename u := by
  rw [selection, mem_successors_ofRows]
  refine ⟨fun h => ?_, fun h => ?_⟩
  · obtain ⟨r, hr, rfl, he⟩ := h
    obtain ⟨s, hs, hkeep, rfl⟩ := (mem_selected_rows_iff ha).1 hr
    rw [State.mem_edges_row_iff, ← successors_of_state? hs] at he
    exact ⟨hkeep, he⟩
  · obtain ⟨hkeep, u, hu, rfl⟩ := h
    obtain ⟨s, hs, rfl⟩ := ha.exists_state (mem_states_of_mem_successors hu)
    rw [successors_of_state? hs] at hu
    exact ⟨_, (mem_selected_rows_iff ha).2 ⟨s, hs, hkeep, rfl⟩, rfl,
      State.mem_edges_row_iff.2 ⟨u, hu, rfl⟩⟩

theorem isAccepting_selection (ha : a.WellFormed) :
    (a.selection keep rename).isAccepting p = true ↔ keep p ∧ a.isAccepting p = true := by
  rw [selection, isAccepting_ofRows]
  refine ⟨fun h => ?_, fun h => ?_⟩
  · obtain ⟨r, hr, rfl, hacc⟩ := h
    obtain ⟨s, hs, hkeep, rfl⟩ := (mem_selected_rows_iff ha).1 hr
    exact ⟨hkeep, (isAccepting_of_state? hs).trans hacc⟩
  · obtain ⟨hkeep, hacc⟩ := h
    obtain ⟨s, hs, rfl⟩ := ha.exists_state (mem_states_of_isAccepting hacc)
    exact ⟨_, (mem_selected_rows_iff ha).2 ⟨s, hs, hkeep, rfl⟩, rfl,
      (isAccepting_of_state? hs).symm.trans hacc⟩

/-- The states are the start, the kept states, and what the targets of their moves are renamed to.
-/
theorem mem_states_selection (ha : a.WellFormed) : p ∈ (a.selection keep rename).states ↔
    p = a.start ∨ (p ∈ a.states ∧ keep p) ∨
      ∃ q l, keep q ∧ ∃ u ∈ a.successors q l, p = rename u := by
  rw [selection, mem_states_ofRows]
  refine or_congr Iff.rfl ⟨fun h => ?_, fun h => ?_⟩
  · obtain ⟨r, hr, h⟩ := h
    obtain ⟨s, hs, hkeep, rfl⟩ := (mem_selected_rows_iff ha).1 hr
    rcases h with rfl | ⟨⟨l, u⟩, he, rfl⟩
    · exact Or.inl ⟨OrderedMap.mem_iff_exists_get?.2 ⟨s, hs⟩, hkeep⟩
    · rw [State.mem_edges_row_iff, ← successors_of_state? hs] at he
      exact Or.inr ⟨s.name, l, hkeep, he⟩
  · rcases h with ⟨hp, hkeep⟩ | ⟨q, l, hkeep, u, hu, rfl⟩
    · obtain ⟨s, hs, rfl⟩ := ha.exists_state hp
      exact ⟨_, (mem_selected_rows_iff ha).2 ⟨s, hs, hkeep, rfl⟩, Or.inl rfl⟩
    · obtain ⟨s, hs, rfl⟩ := ha.exists_state (mem_states_of_mem_successors hu)
      rw [successors_of_state? hs] at hu
      exact ⟨_, (mem_selected_rows_iff ha).2 ⟨s, hs, hkeep, rfl⟩, Or.inr
        ⟨(l, rename u), State.mem_edges_row_iff.2 ⟨u, hu, rfl⟩, rfl⟩⟩

theorem alphabet_selection (ha : a.WellFormed) :
    (a.selection keep rename).alphabet = a.alphabet := by
  refine alphabet_ofRows fun r hr c q hq => ?_
  obtain ⟨s, hs, _, rfl⟩ := (mem_selected_rows_iff ha).1 hr
  rw [State.mem_edges_row_iff, ← successors_of_state? hs] at hq
  obtain ⟨u, hu, _⟩ := hq
  exact ha.mem_alphabet hu

theorem Deterministic.selection (hd : a.Deterministic) (ha : a.WellFormed) :
    (a.selection keep rename).Deterministic where
  epsilonFree p := List.eq_nil_iff_forall_not_mem.2 fun q hq => by
    obtain ⟨_, u, hu, _⟩ := (mem_successors_selection ha).1 hq
    rw [hd.epsilonFree] at hu
    exact List.not_mem_nil hu
  unique hq hr := by
    obtain ⟨_, u, hu, rfl⟩ := (mem_successors_selection ha).1 hq
    obtain ⟨_, v, hv, rfl⟩ := (mem_successors_selection ha).1 hr
    rw [hd.unique hu hv]

end Selection

/-! ## 2. What the search finds -/

/-- A state that some path from the start leads to. -/
def Accessible (a : Automaton) (p : StateName) : Prop := ∃ w, a.Path a.start w p

theorem accessible_start : a.Accessible a.start := ⟨[], .here _⟩

theorem Accessible.step (hp : a.Accessible p) (hq : q ∈ a.successors p l) : a.Accessible q := by
  obtain ⟨w, h⟩ := hp
  cases l with
  | epsilon => exact ⟨_, h.append (.singleEpsilon hq)⟩
  | symbol c => exact ⟨_, h.append (.single hq)⟩

theorem Accessible.path (hp : a.Accessible p) (h : a.Path p w q) : a.Accessible q := by
  obtain ⟨u, hu⟩ := hp
  exact ⟨u ++ w, hu.append h⟩

theorem Accessible.mem_states (ha : a.WellFormed) (hp : a.Accessible p) : p ∈ a.states := by
  obtain ⟨w, h⟩ := hp
  exact h.mem_states ha ha.start_mem

/-- The targets of the moves of a state, whatever their labels. -/
theorem mem_targets_iff : q ∈ (a.edgesOf p).map Prod.snd ↔ ∃ l, q ∈ a.successors p l := by
  rw [List.mem_map]
  refine ⟨fun h => ?_, fun h => ?_⟩
  · obtain ⟨⟨l, q⟩, h, rfl⟩ := h
    exact ⟨l, mem_edgesOf_iff.1 h⟩
  · obtain ⟨l, h⟩ := h
    exact ⟨(l, q), mem_edgesOf_iff.2 h, rfl⟩

theorem reaches_edges_iff :
    Reaches (fun n => (a.edgesOf n).map Prod.snd) [a.start] p ↔ a.Accessible p := by
  refine ⟨fun h => ?_, fun h => ?_⟩
  · induction h with
    | init h => exact List.mem_singleton.1 h ▸ accessible_start
    | step _ hb ih =>
      obtain ⟨l, hl⟩ := mem_targets_iff.1 hb
      exact ih.step hl
  · obtain ⟨w, h⟩ := h
    have hstart : Reaches (fun n => (a.edgesOf n).map Prod.snd) [a.start] a.start :=
      .init List.mem_cons_self
    refine (h.confined (b := a) (Reaches (fun n => (a.edgesOf n).map Prod.snd) [a.start])
      (fun _ l _ hn hs => ⟨.step hn (mem_targets_iff.2 ⟨l, hs⟩), hs⟩) hstart).1

theorem boundsReach_edges :
    BoundsReach (fun n => (a.edgesOf n).map Prod.snd) [a.start] (1 + a.transitionCount) := by
  have h : ∀ q, Reaches (fun n => (a.edgesOf n).map Prod.snd) [a.start] q →
      q ∈ a.start :: a.moveTargets := by
    intro q hq
    cases hq with
    | init h => exact List.mem_cons.2 (Or.inl (List.mem_singleton.1 h))
    | step _ hb =>
      obtain ⟨l, hl⟩ := mem_targets_iff.1 hb
      exact List.mem_cons_of_mem _ (mem_moveTargets hl)
  have hb := boundsReach_of_subset h
  rwa [List.length_cons, length_moveTargets, Nat.add_comm] at hb

/-- **The search finds the states that paths from the start lead to.** -/
theorem mem_reachableStates_iff : p ∈ a.reachableStates ↔ a.Accessible p := by
  rw [reachableStates, mem_explore_iff boundsReach_edges, reaches_edges_iff]

/-! ## 3. What is left -/

theorem reachable_eq (a : Automaton) :
    a.reachable = a.selection (· ∈ a.reachableStates) id := rfl

theorem wellFormed_reachable : a.reachable.WellFormed := wellFormed_selection

@[simp] theorem start_reachable : a.reachable.start = a.start := start_selection

theorem alphabet_reachable (ha : a.WellFormed) : a.reachable.alphabet = a.alphabet :=
  alphabet_selection ha

theorem mem_successors_reachable (ha : a.WellFormed) :
    q ∈ a.reachable.successors p l ↔ a.Accessible p ∧ q ∈ a.successors p l := by
  simp only [reachable_eq, mem_successors_selection ha, mem_reachableStates_iff, id,
    exists_eq_right']

theorem isAccepting_reachable (ha : a.WellFormed) :
    a.reachable.isAccepting p = true ↔ a.Accessible p ∧ a.isAccepting p = true := by
  rw [reachable_eq, isAccepting_selection ha, mem_reachableStates_iff]

theorem mem_states_reachable (ha : a.WellFormed) : p ∈ a.reachable.states ↔ a.Accessible p := by
  rw [reachable_eq, mem_states_selection ha]
  simp only [mem_reachableStates_iff]
  constructor
  · intro h
    rcases h with rfl | ⟨_, h⟩ | ⟨q, l, hq, u, hu, rfl⟩
    · exact accessible_start
    · exact h
    · exact hq.step hu
  · exact fun h => Or.inr (Or.inl ⟨h.mem_states ha, h⟩)

/-! ## 4. Language and determinism -/

theorem path_reachable_iff (ha : a.WellFormed) (hp : a.Accessible p) :
    a.reachable.Path p w q ↔ a.Path p w q := by
  constructor
  · exact Path.mono fun _ _ _ h => ((mem_successors_reachable ha).1 h).2
  · intro h
    exact (h.confined a.Accessible
      (fun _ _ _ hn hs => ⟨hn.step hs, (mem_successors_reachable ha).2 ⟨hn, hs⟩⟩) hp).2

theorem recognizesFrom_reachable (ha : a.WellFormed) (hp : a.Accessible p) :
    a.reachable.RecognizesFrom p w ↔ a.RecognizesFrom p w := by
  simp only [RecognizesFrom, path_reachable_iff ha hp, isAccepting_reachable ha]
  refine ⟨fun h => ?_, fun h => ?_⟩
  · obtain ⟨q, h, _, hacc⟩ := h
    exact ⟨q, h, hacc⟩
  · obtain ⟨q, h, hacc⟩ := h
    exact ⟨q, h, hp.path h, hacc⟩

/-- **Pruning keeps the language.** -/
theorem recognizes_reachable (ha : a.WellFormed) : a.reachable.Recognizes w ↔ a.Recognizes w := by
  rw [Recognizes, start_reachable]
  exact recognizesFrom_reachable ha accessible_start

/-- **Pruning keeps determinism.** -/
theorem Deterministic.reachable (hd : a.Deterministic) (ha : a.WellFormed) :
    a.reachable.Deterministic := hd.selection ha

/-- Words are read as before. -/
theorem run?_reachable (ha : a.WellFormed) (hd : a.Deterministic) (hp : a.Accessible p) :
    a.reachable.run? p w = a.run? p w := by
  refine Option.ext fun q => ?_
  rw [← path_iff_run? (hd.reachable ha), ← path_iff_run? hd, path_reachable_iff ha hp]

/-- Nothing is left that paths from the start do not lead to. -/
theorem accessible_reachable (ha : a.WellFormed) (hp : p ∈ a.reachable.states) :
    a.reachable.Accessible p := by
  obtain ⟨w, h⟩ := (mem_states_reachable ha).1 hp
  exact ⟨w, by rwa [start_reachable, path_reachable_iff ha accessible_start]⟩

end Automaton

end RegularLanguages
