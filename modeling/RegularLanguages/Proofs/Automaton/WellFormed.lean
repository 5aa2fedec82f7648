import RegularLanguages.Automaton.Basic
import RegularLanguages.Proofs.Automaton.Building

/-!
# Building keeps automata well-formed

Every operation that builds an automaton keeps its parts fitting together.

* `State.Sound` -- what well-formedness asks of a single state and its name;
* `WellFormed.of_views` -- well-formedness in terms of states, marks and moves by label;
* `WellFormed.connect`, `WellFormed.mark`, `WellFormed.adjoin`, … -- one lemma for each operation.
-/

namespace RegularLanguages

/-! ## 1. Single states -/

/-- A state carries the name under which it is stored and has no label without a target. -/
structure State.Sound (s : State) (n : StateName) : Prop where
  /-- The name is the key. -/
  name_eq : s.name = n
  /-- No label is stored without a target. -/
  targets_ne_nil : ∀ e ∈ s.transitions.entries, e.2.toList ≠ []

theorem State.sound_ofName (n : StateName) : (State.ofName n).Sound n where
  name_eq := rfl
  targets_ne_nil _ h := absurd h List.not_mem_nil

theorem State.Sound.addEdge {s : State} {n : StateName} (h : s.Sound n) (l : Label)
    (t : StateName) : (s.addEdge l t).Sound n where
  name_eq := h.name_eq
  targets_ne_nil := by
    intro h' he
    obtain ⟨m, ts⟩ := h'
    rw [OrderedMap.mem_entries_iff, State.addEdge, OrderedMap.get?_insert] at he
    split at he
    · cases he
      intro hnil
      have ht : t ∈ ((s.transitions.get? l).getD ∅).insert t :=
        OrderedSet.mem_insert.2 (Or.inr rfl)
      rw [OrderedSet.mem_def, hnil] at ht
      exact List.not_mem_nil ht
    · exact h.targets_ne_nil _ (OrderedMap.mem_entries_iff.2 he)

theorem State.Sound.withAccepting {s : State} {n : StateName} (h : s.Sound n) (flag : Bool) :
    { s with accepting := flag : State }.Sound n where
  name_eq := h.name_eq
  targets_ne_nil := h.targets_ne_nil

namespace Automaton

variable {a b : Automaton} {n p q t : StateName} {l : Label} {c : Symbol}

/-! ## 2. Well-formedness and the views -/

theorem WellFormed.of_views (hstart : a.start ∈ a.states)
    (hsound : ∀ n s, a.state? n = some s → s.Sound n)
    (haccepting : ∀ n, n ∈ a.accepting ↔ a.isAccepting n = true)
    (htarget : ∀ n l t, t ∈ a.successors n l → t ∈ a.states)
    (hsymbol : ∀ n c t, t ∈ a.successors n (.symbol c) → c ∈ a.alphabet) : a.WellFormed where
  start_mem := hstart
  name_eq n s h := (hsound n s h).name_eq
  mem_accepting_iff := haccepting
  target_mem n e h := htarget n e.1 e.2 (mem_edgesOf_iff.1 h)
  symbol_mem n c t h := hsymbol n c t (mem_edgesOf_iff.1 h)
  targets_ne_nil n s h := (hsound n s h).targets_ne_nil

theorem WellFormed.sound (h : a.WellFormed) {s : State} (hs : a.state? n = some s) : s.Sound n :=
  ⟨h.name_eq n s hs, h.targets_ne_nil n s hs⟩

theorem WellFormed.mem_of_mem_successors (h : a.WellFormed) (ht : t ∈ a.successors n l) :
    t ∈ a.states := h.target_mem n (l, t) (mem_edgesOf_iff.2 ht)

theorem WellFormed.mem_alphabet (h : a.WellFormed) (ht : t ∈ a.successors n (.symbol c)) :
    c ∈ a.alphabet := h.symbol_mem n c t (mem_edgesOf_iff.2 ht)

theorem WellFormed.successors_eq_nil (h : a.WellFormed) (hc : c ∉ a.alphabet) :
    a.successors n (.symbol c) = [] :=
  List.eq_nil_iff_forall_not_mem.2 fun _ ht => hc (h.mem_alphabet ht)

/-- A name of a state is the name that the state carries. -/
theorem WellFormed.exists_state (h : a.WellFormed) (hn : n ∈ a.states) :
    ∃ s, a.state? s.name = some s ∧ s.name = n := by
  obtain ⟨s, hs⟩ := OrderedMap.mem_iff_exists_get?.1 hn
  have e := h.name_eq n s hs
  exact ⟨s, e.symm ▸ hs, e⟩

/-- The states of a well-formed automaton carry exactly its names. -/
theorem WellFormed.mem_values_iff (h : a.WellFormed) {s : State} :
    s ∈ a.states.values ↔ a.state? s.name = some s := by
  rw [OrderedMap.mem_values_iff]
  refine ⟨?_, fun hs => ⟨s.name, hs⟩⟩
  intro h'
  obtain ⟨n, hs⟩ := h'
  have e := h.name_eq n s hs
  exact e ▸ hs

/-! ## 3. The operations -/

theorem wellFormed_ofStart : (ofStart p).WellFormed := by
  refine .of_views (by simp) (fun n s h => ?_) (fun n => by simp) (fun n l t h => ?_)
    (fun n c t h => ?_)
  · rw [state?_ofStart] at h
    split at h
    · rename_i e
      cases h
      exact e ▸ State.sound_ofName n
    · cases h
  · simp at h
  · simp at h

theorem sound_addState (h : a.WellFormed) {s : State} (hs : (a.addState p).state? n = some s) :
    s.Sound n := by
  rw [state?_addState] at hs
  split at hs
  · rename_i e
    cases hs
    exact e.1 ▸ State.sound_ofName n
  · exact h.sound hs

theorem WellFormed.addState (h : a.WellFormed) : (a.addState p).WellFormed := by
  refine .of_views ?_ (fun n s hs => sound_addState h hs) (fun n => ?_) (fun n l t ht => ?_)
    (fun n c t ht => ?_)
  · exact mem_states_addState.2 (Or.inl h.start_mem)
  · rw [accepting_addState, isAccepting_addState]
    exact h.mem_accepting_iff n
  · rw [successors_addState] at ht
    exact mem_states_addState.2 (Or.inl (h.mem_of_mem_successors ht))
  · rw [successors_addState] at ht
    exact h.mem_alphabet ht

theorem WellFormed.addSymbols (h : a.WellFormed) {cs : List Symbol} :
    (a.addSymbols cs).WellFormed :=
  .of_views h.start_mem (fun _ _ hs => h.sound hs) h.mem_accepting_iff
    (fun _ _ _ ht => h.mem_of_mem_successors ht)
    (fun _ _ _ ht => mem_alphabet_addSymbols.2 (Or.inl (h.mem_alphabet ht)))

theorem WellFormed.connect (h : a.WellFormed) : (a.connect p q l).WellFormed := by
  have hb : ((a.addState p).addState q).WellFormed := h.addState.addState
  refine .of_views ?_ (fun n s hs => ?_) (fun n => ?_) (fun n m t ht => ?_) (fun n c t ht => ?_)
  · rw [start_connect, mem_states_connect]
    exact Or.inl h.start_mem
  · rw [state?_connect] at hs
    split at hs
    · rename_i e
      obtain ⟨s', hs', rfl⟩ := Option.map_eq_some_iff.1 hs
      exact e ▸ (hb.sound hs').addEdge l q
    · exact hb.sound hs
  · rw [accepting_connect, isAccepting_connect]
    exact h.mem_accepting_iff n
  · rw [mem_states_connect]
    rcases mem_successors_connect.1 ht with ht | ⟨_, e, _⟩
    · exact Or.inl (h.mem_of_mem_successors ht)
    · exact Or.inr (Or.inr e)
  · rw [mem_alphabet_connect]
    rcases mem_successors_connect.1 ht with ht | ⟨_, _, e⟩
    · exact Or.inl (h.mem_alphabet ht)
    · exact Or.inr e.symm

theorem WellFormed.mark (h : a.WellFormed) {flag : Bool} : (a.mark p flag).WellFormed := by
  refine .of_views ?_ (fun n s hs => ?_) (fun n => ?_) (fun n l t ht => ?_) (fun n c t ht => ?_)
  · exact mem_states_mark.2 (Or.inl h.start_mem)
  · rw [state?_mark] at hs
    split at hs
    · rename_i e
      obtain ⟨s', hs', rfl⟩ := Option.map_eq_some_iff.1 hs
      exact e ▸ (sound_addState h hs').withAccepting flag
    · exact sound_addState h hs
  · rw [mem_accepting_mark, isAccepting_mark]
    split
    · exact Iff.rfl
    · exact h.mem_accepting_iff n
  · rw [successors_mark] at ht
    exact mem_states_mark.2 (Or.inl (h.mem_of_mem_successors ht))
  · rw [successors_mark] at ht
    exact h.mem_alphabet ht

theorem WellFormed.startAt (h : a.WellFormed) : (a.startAt p).WellFormed :=
  .of_views (mem_states_startAt.2 (Or.inr rfl)) (fun _ _ hs => sound_addState h hs)
    h.addState.mem_accepting_iff (fun _ _ _ ht => h.addState.mem_of_mem_successors ht)
    (fun _ _ _ ht => h.addState.mem_alphabet ht)

theorem WellFormed.withStart (h : a.WellFormed) (hp : p ∈ a.states) :
    { a with start := p : Automaton }.WellFormed :=
  .of_views hp (fun _ _ hs => h.sound hs) h.mem_accepting_iff
    (fun _ _ _ ht => h.mem_of_mem_successors ht) (fun _ _ _ ht => h.mem_alphabet ht)

theorem WellFormed.adjoin (h : a.WellFormed) (hb : b.WellFormed)
    (hd : ∀ n ∈ a.states, n ∉ b.states) : (a.adjoin b).WellFormed := by
  refine .of_views ?_ (fun n s hs => ?_) (fun n => ?_) (fun n l t ht => ?_) (fun n c t ht => ?_)
  · exact mem_states_adjoin.2 (Or.inl h.start_mem)
  · rw [state?_adjoin] at hs
    rcases Option.or_eq_some_iff.1 hs with hs | ⟨_, hs⟩
    · obtain ⟨s', hs', rfl⟩ := Option.map_eq_some_iff.1 hs
      exact (hb.sound hs').withAccepting false
    · exact h.sound hs
  · rw [accepting_adjoin, isAccepting_adjoin hd]
    exact h.mem_accepting_iff n
  · rw [mem_states_adjoin]
    exact ((mem_successors_adjoin hd).1 ht).imp h.mem_of_mem_successors hb.mem_of_mem_successors
  · rw [mem_alphabet_adjoin]
    exact ((mem_successors_adjoin hd).1 ht).imp h.mem_alphabet hb.mem_alphabet

end Automaton

end RegularLanguages
