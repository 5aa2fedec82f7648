import Mathlib.Data.List.Nodup
import Mathlib.Tactic.Choose
import RegularLanguages.Automaton.Construction
import RegularLanguages.Proofs.Ordered.Map

/-!
# What building does to the graph

An automaton is looked at through three views: which states it has, which of them accept, and
where its moves lead (`successors`). Every operation that builds an automaton is described by what
it does to these views; nothing else about it is used later.

* `mem_edgesOf_iff` -- the list of moves of a state and the moves by label are the same moves;
* `size_le_of_relation` -- counting states by a relation that keeps them apart;
* `mem_successors_connect`, `isAccepting_mark`, `successors_adjoin`, … -- one equation for each
  operation and view.
-/

namespace RegularLanguages

/-! ## 1. The moves of a state -/

namespace State

theorem mem_targets_iff {s : State} {l : Label} {t : StateName} :
    t ∈ s.targets l ↔ ∃ ts, s.transitions.get? l = some ts ∧ t ∈ ts := by
  unfold targets
  cases h : s.transitions.get? l with
  | none => simp
  | some ts => exact ⟨fun ht => ⟨ts, rfl, ht⟩, fun ⟨us, e, ht⟩ => by cases e; exact ht⟩

theorem mem_edges_iff {s : State} {l : Label} {t : StateName} :
    (l, t) ∈ s.edges ↔ t ∈ s.targets l := by
  rw [mem_targets_iff, edges, List.mem_flatMap]
  refine ⟨fun h => ?_, fun h => ?_⟩
  · obtain ⟨⟨m, ts⟩, he, h⟩ := h
    obtain ⟨u, hu, e⟩ := List.mem_map.1 h
    cases e
    exact ⟨ts, OrderedMap.mem_entries_iff.1 he, hu⟩
  · obtain ⟨ts, he, ht⟩ := h
    exact ⟨(l, ts), OrderedMap.mem_entries_iff.2 he, List.mem_map_of_mem ht⟩

theorem mem_targets_addEdge {s : State} {l m : Label} {t u : StateName} :
    u ∈ (s.addEdge l t).targets m ↔ u ∈ s.targets m ∨ (m = l ∧ u = t) := by
  rw [mem_targets_iff, mem_targets_iff, addEdge, OrderedMap.get?_insert]
  by_cases h : m = l
  · subst h
    cases s.transitions.get? m <;> simp
  · simp [h]

@[simp] theorem targets_ofName (n : StateName) (l : Label) : (ofName n).targets l = [] := rfl

end State

namespace Automaton

variable {a b : Automaton} {n p q t : StateName} {l m : Label}

/-! ## 2. The views -/

theorem successors_of_state? {s : State} (h : a.state? n = some s) :
    a.successors n l = s.targets l := by
  rw [successors, targets?, h]
  rfl

theorem successors_of_state?_eq_none (h : a.state? n = none) : a.successors n l = [] := by
  rw [successors, targets?, h]
  rfl

theorem state?_eq_none_iff : a.state? n = none ↔ n ∉ a.states := OrderedMap.get?_eq_none_iff

theorem successors_of_not_mem (h : n ∉ a.states) : a.successors n l = [] :=
  successors_of_state?_eq_none (state?_eq_none_iff.2 h)

theorem mem_states_of_mem_successors (h : t ∈ a.successors n l) : n ∈ a.states := by
  refine Decidable.byContradiction fun hn => ?_
  rw [successors_of_not_mem hn] at h
  exact absurd h List.not_mem_nil

theorem isAccepting_of_state? {s : State} (h : a.state? n = some s) :
    a.isAccepting n = s.accepting := by
  rw [isAccepting, h]

theorem isAccepting_of_not_mem (h : n ∉ a.states) : a.isAccepting n = false := by
  rw [isAccepting, state?_eq_none_iff.2 h]

theorem mem_states_of_isAccepting (h : a.isAccepting n = true) : n ∈ a.states := by
  refine Decidable.byContradiction fun hn => ?_
  rw [isAccepting_of_not_mem hn] at h
  exact Bool.false_ne_true h

/-- The moves of a state, as a list and by label. -/
theorem mem_edgesOf_iff : (l, t) ∈ a.edgesOf n ↔ t ∈ a.successors n l := by
  unfold edgesOf
  cases h : a.state? n with
  | none => rw [successors_of_state?_eq_none h]; simp
  | some s => rw [successors_of_state? h, State.mem_edges_iff]

/-- The moves of all states in one list, by state. -/
theorem mem_values_edges_iff {e : Label × StateName} :
    e ∈ a.states.values.flatMap State.edges ↔ ∃ n, e.2 ∈ a.successors n e.1 := by
  rw [List.mem_flatMap]
  refine ⟨fun h => ?_, fun h => ?_⟩
  · obtain ⟨s, hs, he⟩ := h
    obtain ⟨n, hn⟩ := OrderedMap.mem_values_iff.1 hs
    exact ⟨n, by rw [successors_of_state? hn]; exact State.mem_edges_iff.1 he⟩
  · obtain ⟨n, hn⟩ := h
    obtain ⟨s, hs⟩ := OrderedMap.mem_iff_exists_get?.1 (mem_states_of_mem_successors hn)
    rw [successors_of_state? hs] at hn
    exact ⟨s, OrderedMap.mem_values_iff.2 ⟨n, hs⟩, State.mem_edges_iff.2 hn⟩

/-- The targets of all moves. -/
def moveTargets (a : Automaton) : List StateName :=
  (a.states.values.flatMap State.edges).map Prod.snd

theorem mem_moveTargets (h : t ∈ a.successors n l) : t ∈ a.moveTargets :=
  List.mem_map.2 ⟨(l, t), mem_values_edges_iff.2 ⟨n, h⟩, rfl⟩

@[simp] theorem length_moveTargets : a.moveTargets.length = a.transitionCount := List.length_map _

/-! ## 3. Counting states -/

theorem length_stateNames : a.stateNames.length = a.size := List.length_map _

/-- A list is at most as long as an automaton has states if each of its members is related to one
of the states, and no state to two members. -/
theorem length_le_of_relation {α : Type} {members : List α} (hn : members.Nodup)
    (r : α → StateName → Prop) (total : ∀ x ∈ members, ∃ q ∈ b.states, r x q)
    (injective : ∀ x ∈ members, ∀ y ∈ members, ∀ q, r x q → r y q → x = y) :
    members.length ≤ b.size := by
  choose! f hmem hr using total
  have hmap : (members.map f).Nodup := by
    refine List.Nodup.map_on (fun x hx y hy e => ?_) hn
    exact injective x hx y hy (f x) (hr x hx) (e ▸ hr y hy)
  have hsubset : members.map f ⊆ b.stateNames := by
    intro q hq
    obtain ⟨x, hx, rfl⟩ := List.mem_map.1 hq
    exact hmem x hx
  have hle := hmap.length_le_of_subset hsubset
  rwa [List.length_map, length_stateNames] at hle

/-- An automaton has at most as many states as another one if each of its states is related to one
of the other, and no state to two of its own. -/
theorem size_le_of_relation (r : StateName → StateName → Prop)
    (total : ∀ p ∈ a.states, ∃ q ∈ b.states, r p q)
    (injective : ∀ p p' q, r p q → r p' q → p = p') : a.size ≤ b.size := by
  rw [← length_stateNames]
  exact length_le_of_relation a.states.nodup r total fun p _ p' _ => injective p p'

/-! ## 4. The bare automaton and its states -/

@[simp] theorem start_ofStart : (ofStart p).start = p := rfl

@[simp] theorem alphabet_ofStart : (ofStart p).alphabet = ∅ := rfl

@[simp] theorem accepting_ofStart : (ofStart p).accepting = ∅ := rfl

theorem state?_ofStart : (ofStart p).state? n = if n = p then some (.ofName p) else none := by
  rw [state?, ofStart, OrderedMap.get?_insert, OrderedMap.get?_empty]

@[simp] theorem mem_states_ofStart : n ∈ (ofStart p).states ↔ n = p := by
  rw [← OrderedMap.isSome_get?_iff]
  have h := @state?_ofStart n p
  unfold state? at h
  rw [h]
  by_cases e : n = p <;> simp [e]

@[simp] theorem successors_ofStart : (ofStart p).successors n l = [] := by
  by_cases e : n = p
  · have h : (ofStart p).state? n = some (.ofName p) := by rw [state?_ofStart, if_pos e]
    rw [successors_of_state? h, State.targets_ofName]
  · exact successors_of_not_mem fun h => e (mem_states_ofStart.1 h)

@[simp] theorem isAccepting_ofStart : (ofStart p).isAccepting n = false := by
  rw [isAccepting, state?_ofStart]
  by_cases e : n = p <;> simp [e, State.ofName]

theorem state?_addState : (a.addState p).state? n =
    if n = p ∧ p ∉ a.states then some (.ofName p) else a.state? n :=
  OrderedMap.get?_insertIfNew a.states p (.ofName p) n

@[simp] theorem start_addState : (a.addState p).start = a.start := rfl

@[simp] theorem alphabet_addState : (a.addState p).alphabet = a.alphabet := rfl

@[simp] theorem accepting_addState : (a.addState p).accepting = a.accepting := rfl

@[simp] theorem mem_states_addState : n ∈ (a.addState p).states ↔ n ∈ a.states ∨ n = p :=
  OrderedMap.mem_insertIfNew

@[simp] theorem successors_addState : (a.addState p).successors n l = a.successors n l := by
  by_cases h : n = p ∧ p ∉ a.states
  · have hs : (a.addState p).state? n = some (.ofName p) := by rw [state?_addState, if_pos h]
    rw [successors_of_state? hs, State.targets_ofName, successors_of_not_mem (h.1 ▸ h.2)]
  · rw [successors, targets?, state?_addState, if_neg h]
    rfl

@[simp] theorem isAccepting_addState : (a.addState p).isAccepting n = a.isAccepting n := by
  by_cases h : n = p ∧ p ∉ a.states
  · have hs : (a.addState p).state? n = some (.ofName p) := by rw [state?_addState, if_pos h]
    rw [isAccepting_of_state? hs, isAccepting_of_not_mem (h.1 ▸ h.2)]
    rfl
  · rw [isAccepting, state?_addState, if_neg h]
    rfl

@[simp] theorem start_addSymbols {cs : List Symbol} : (a.addSymbols cs).start = a.start := rfl

@[simp] theorem states_addSymbols {cs : List Symbol} : (a.addSymbols cs).states = a.states := rfl

@[simp] theorem accepting_addSymbols {cs : List Symbol} :
    (a.addSymbols cs).accepting = a.accepting := rfl

@[simp] theorem successors_addSymbols {cs : List Symbol} :
    (a.addSymbols cs).successors n l = a.successors n l := rfl

@[simp] theorem isAccepting_addSymbols {cs : List Symbol} :
    (a.addSymbols cs).isAccepting n = a.isAccepting n := rfl

@[simp] theorem mem_alphabet_addSymbols {cs : List Symbol} {c : Symbol} :
    c ∈ (a.addSymbols cs).alphabet ↔ c ∈ a.alphabet ∨ c ∈ cs := OrderedSet.mem_append

/-! ## 5. Moves -/

/-- The moves and marks that `connect` leaves at each state. The alphabet aside, they do not depend
on the label being a symbol. -/
theorem state?_connect : (a.connect p q l).state? n =
    if n = p then (((a.addState p).addState q).state? p).map fun s => s.addEdge l q
    else ((a.addState p).addState q).state? n := by
  have h : (a.connect p q l).state? n = (((a.addState p).addState q).states.modify p
      fun s => s.addEdge l q).get? n := by
    cases l <;> rfl
  rw [h, OrderedMap.get?_modify]
  by_cases e : n = p <;> simp [e, state?]

@[simp] theorem start_connect : (a.connect p q l).start = a.start := by
  cases l <;> rfl

@[simp] theorem accepting_connect : (a.connect p q l).accepting = a.accepting := by
  cases l <;> rfl

@[simp] theorem mem_states_connect :
    n ∈ (a.connect p q l).states ↔ n ∈ a.states ∨ n = p ∨ n = q := by
  have h : n ∈ (a.connect p q l).states ↔ n ∈ ((a.addState p).addState q).states.modify p
      fun s => s.addEdge l q := by
    cases l <;> rfl
  rw [h, OrderedMap.mem_modify, mem_states_addState, mem_states_addState, or_assoc]

@[simp] theorem alphabet_connect_epsilon : (a.connect p q .epsilon).alphabet = a.alphabet := rfl

theorem mem_alphabet_connect {c : Symbol} :
    c ∈ (a.connect p q l).alphabet ↔ c ∈ a.alphabet ∨ l = .symbol c := by
  cases l with
  | epsilon => simp [connect]
  | symbol x => simp [connect, addSymbol, eq_comm]

@[simp] theorem mem_successors_connect :
    t ∈ (a.connect p q l).successors n m ↔ t ∈ a.successors n m ∨ (n = p ∧ t = q ∧ m = l) := by
  by_cases e : n = p
  · subst e
    obtain ⟨s, hs⟩ := OrderedMap.mem_iff_exists_get?.1
      (mem_states_addState.2 (Or.inl (mem_states_addState.2 (Or.inr rfl))) :
        n ∈ ((a.addState n).addState q).states)
    have hc : (a.connect n q l).state? n = some (s.addEdge l q) := by
      rw [state?_connect, if_pos rfl, state?, hs]
      rfl
    have ha : a.successors n m = s.targets m := by
      rw [← successors_of_state? hs, successors_addState, successors_addState]
    rw [successors_of_state? hc, ha, State.mem_targets_addEdge]
    exact ⟨Or.imp id fun h => ⟨rfl, h.2, h.1⟩, Or.imp id fun h => ⟨h.2.2, h.2.1⟩⟩
  · have hc : (a.connect p q l).successors n m = a.successors n m := by
      rw [successors, targets?, state?_connect, if_neg e]
      exact successors_addState.trans successors_addState
    rw [hc]
    exact ⟨Or.inl, fun h => h.resolve_right fun h => e h.1⟩

@[simp] theorem isAccepting_connect : (a.connect p q l).isAccepting n = a.isAccepting n := by
  have h : ((a.addState p).addState q).isAccepting n = a.isAccepting n := by simp
  rw [← h, isAccepting, isAccepting, state?_connect]
  by_cases e : n = p
  · subst e
    rw [if_pos rfl]
    cases ((a.addState n).addState q).state? n <;> rfl
  · rw [if_neg e]

/-! ## 6. Marks and the start -/

theorem state?_mark {flag : Bool} : (a.mark p flag).state? n =
    if n = p then ((a.addState p).state? p).map fun s => { s with accepting := flag }
    else (a.addState p).state? n := by
  have h : (a.mark p flag).state? n =
      ((a.addState p).states.modify p fun s => { s with accepting := flag }).get? n := rfl
  rw [h, OrderedMap.get?_modify]
  by_cases e : n = p <;> simp [e, state?]

@[simp] theorem start_mark {flag : Bool} : (a.mark p flag).start = a.start := rfl

@[simp] theorem alphabet_mark {flag : Bool} : (a.mark p flag).alphabet = a.alphabet := rfl

@[simp] theorem mem_states_mark {flag : Bool} :
    n ∈ (a.mark p flag).states ↔ n ∈ a.states ∨ n = p := by
  have h : n ∈ (a.mark p flag).states ↔
      n ∈ (a.addState p).states.modify p fun s => { s with accepting := flag } := Iff.rfl
  rw [h, OrderedMap.mem_modify, mem_states_addState]

theorem mem_accepting_mark {flag : Bool} : n ∈ (a.mark p flag).accepting ↔
    if n = p then flag = true else n ∈ a.accepting := by
  by_cases e : n = p <;> cases flag <;> simp [mark, e]

@[simp] theorem successors_mark {flag : Bool} :
    (a.mark p flag).successors n l = a.successors n l := by
  rw [← @successors_addState a n p l, successors, successors, targets?, targets?, state?_mark]
  by_cases e : n = p
  · subst e
    rw [if_pos rfl]
    cases (a.addState n).state? n <;> rfl
  · rw [if_neg e]

@[simp] theorem isAccepting_mark {flag : Bool} :
    (a.mark p flag).isAccepting n = if n = p then flag else a.isAccepting n := by
  rw [← @isAccepting_addState a n p, isAccepting, isAccepting, state?_mark]
  by_cases e : n = p
  · subst e
    obtain ⟨s, hs⟩ := OrderedMap.mem_iff_exists_get?.1
      (mem_states_addState.2 (Or.inr rfl) : n ∈ (a.addState n).states)
    rw [if_pos rfl, if_pos rfl, state?, hs]
    rfl
  · rw [if_neg e, if_neg e]

@[simp] theorem start_startAt : (a.startAt p).start = p := rfl

@[simp] theorem alphabet_startAt : (a.startAt p).alphabet = a.alphabet := rfl

@[simp] theorem accepting_startAt : (a.startAt p).accepting = a.accepting := rfl

@[simp] theorem mem_states_startAt : n ∈ (a.startAt p).states ↔ n ∈ a.states ∨ n = p :=
  mem_states_addState

@[simp] theorem successors_startAt : (a.startAt p).successors n l = a.successors n l :=
  successors_addState

@[simp] theorem isAccepting_startAt : (a.startAt p).isAccepting n = a.isAccepting n :=
  isAccepting_addState

/-! ## 7. Taking over another automaton -/

theorem state?_adjoin : (a.adjoin b).state? n =
    ((b.state? n).map fun s => { s with accepting := false }).or (a.state? n) :=
  OrderedMap.get?_foldl_insert (fun s : State => { s with accepting := false }) n b.states.nodup

@[simp] theorem start_adjoin : (a.adjoin b).start = a.start := rfl

@[simp] theorem accepting_adjoin : (a.adjoin b).accepting = a.accepting := rfl

theorem alphabet_adjoin : (a.adjoin b).alphabet = a.alphabet.append b.alphabet.toList := rfl

@[simp] theorem mem_alphabet_adjoin {c : Symbol} :
    c ∈ (a.adjoin b).alphabet ↔ c ∈ a.alphabet ∨ c ∈ b.alphabet := OrderedSet.mem_append

theorem state?_adjoin_of_mem {s : State} (h : b.state? n = some s) :
    (a.adjoin b).state? n = some { s with accepting := false } := by
  rw [state?_adjoin, h]
  rfl

theorem state?_adjoin_of_not_mem (h : n ∉ b.states) : (a.adjoin b).state? n = a.state? n := by
  rw [state?_adjoin, state?_eq_none_iff.2 h]
  rfl

@[simp] theorem mem_states_adjoin : n ∈ (a.adjoin b).states ↔ n ∈ a.states ∨ n ∈ b.states := by
  rw [← Decidable.not_iff_not, ← state?_eq_none_iff, state?_adjoin, not_or,
    ← state?_eq_none_iff, ← state?_eq_none_iff]
  cases b.state? n <;> simp

/-- Where the names differ, the moves of both automata lie side by side. -/
theorem mem_successors_adjoin (hd : ∀ n ∈ a.states, n ∉ b.states) :
    t ∈ (a.adjoin b).successors n l ↔ t ∈ a.successors n l ∨ t ∈ b.successors n l := by
  by_cases hb : n ∈ b.states
  · obtain ⟨s, hs⟩ := OrderedMap.mem_iff_exists_get?.1 hb
    have ha : a.successors n l = [] := successors_of_not_mem fun h => hd n h hb
    rw [ha, successors_of_state? (state?_adjoin_of_mem hs), successors_of_state? hs]
    exact ⟨Or.inr, fun h => h.resolve_left List.not_mem_nil⟩
  · have h : (a.adjoin b).successors n l = a.successors n l := by
      rw [successors, targets?, state?_adjoin_of_not_mem hb]
      rfl
    rw [h, successors_of_not_mem hb]
    exact ⟨Or.inl, fun h => h.resolve_right List.not_mem_nil⟩

theorem isAccepting_adjoin (hd : ∀ n ∈ a.states, n ∉ b.states) :
    (a.adjoin b).isAccepting n = a.isAccepting n := by
  by_cases hb : n ∈ b.states
  · obtain ⟨s, hs⟩ := OrderedMap.mem_iff_exists_get?.1 hb
    rw [isAccepting_of_state? (state?_adjoin_of_mem hs),
      isAccepting_of_not_mem fun h => hd n h hb]
  · rw [isAccepting, state?_adjoin_of_not_mem hb]
    rfl

end Automaton

end RegularLanguages
