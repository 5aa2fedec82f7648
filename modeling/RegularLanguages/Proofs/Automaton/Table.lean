import Mathlib.Data.List.Basic
import RegularLanguages.Proofs.Automaton.WellFormed
import RegularLanguages.Proofs.Ordered.Set

/-!
# Automata of tables

The automaton of a transition table has exactly the moves and marks of its rows. It is always
well-formed, whatever the rows hold, since what a row mentions is created with it.

* `mem_states_foldl_addState`, … -- many states at once;
* `connectAll` -- many moves at once, of which the moves of a row are a case;
* `wellFormed_ofRows`, `alphabet_ofRows` -- its parts fit together; rows over the alphabet keep it;
* `mem_successors_ofRows`, `isAccepting_ofRows`, `mem_states_ofRows` -- **its views are read off
  the rows**.
-/

namespace RegularLanguages.Automaton

variable {a : Automaton} {n p t : StateName} {l : Label}

/-! ## 1. Adding many states -/

section ManyStates

variable {names : List StateName}

theorem start_foldl_addState : (names.foldl addState a).start = a.start := by
  induction names generalizing a with
  | nil => rfl
  | cons m names ih => exact ih

theorem alphabet_foldl_addState : (names.foldl addState a).alphabet = a.alphabet := by
  induction names generalizing a with
  | nil => rfl
  | cons m names ih => exact ih

theorem WellFormed.foldl_addState (h : a.WellFormed) :
    (names.foldl Automaton.addState a).WellFormed := by
  induction names generalizing a with
  | nil => exact h
  | cons m names ih => exact ih h.addState

theorem successors_foldl_addState :
    (names.foldl addState a).successors n l = a.successors n l := by
  induction names generalizing a with
  | nil => rfl
  | cons m names ih => exact ih.trans successors_addState

theorem mem_states_foldl_addState :
    n ∈ (names.foldl addState a).states ↔ n ∈ a.states ∨ n ∈ names := by
  induction names generalizing a with
  | nil => simp
  | cons m names ih => rw [List.foldl_cons, ih, mem_states_addState, List.mem_cons, or_assoc]

theorem isAccepting_foldl_addState :
    (names.foldl addState a).isAccepting n = a.isAccepting n := by
  induction names generalizing a with
  | nil => rfl
  | cons m names ih => exact ih.trans isAccepting_addState

end ManyStates

/-! ## 2. Many moves -/

section Moves

variable {moves : List (StateName × StateName × Label)}

/-- Adds moves, each given by its ends and its label. -/
def connectAll (a : Automaton) (moves : List (StateName × StateName × Label)) : Automaton :=
  moves.foldl (fun b m => b.connect m.1 m.2.1 m.2.2) a

theorem connectAll_cons (m : StateName × StateName × Label) :
    a.connectAll (m :: moves) = (a.connect m.1 m.2.1 m.2.2).connectAll moves := rfl

theorem start_connectAll : (a.connectAll moves).start = a.start := by
  induction moves generalizing a with
  | nil => rfl
  | cons m moves ih => exact ih.trans start_connect

theorem WellFormed.connectAll (h : a.WellFormed) : (a.connectAll moves).WellFormed := by
  induction moves generalizing a with
  | nil => exact h
  | cons m moves ih => exact ih h.connect

theorem mem_successors_connectAll : t ∈ (a.connectAll moves).successors n l ↔
    t ∈ a.successors n l ∨ (n, t, l) ∈ moves := by
  induction moves generalizing a with
  | nil => simp [connectAll]
  | cons m moves ih =>
    rw [connectAll_cons, ih, mem_successors_connect, List.mem_cons, or_assoc, Prod.ext_iff,
      Prod.ext_iff]

theorem isAccepting_connectAll : (a.connectAll moves).isAccepting n = a.isAccepting n := by
  induction moves generalizing a with
  | nil => rfl
  | cons m moves ih => exact ih.trans isAccepting_connect

theorem mem_states_connectAll : n ∈ (a.connectAll moves).states ↔
    n ∈ a.states ∨ ∃ m ∈ moves, n = m.1 ∨ n = m.2.1 := by
  induction moves generalizing a with
  | nil => simp [connectAll]
  | cons m moves ih =>
    rw [connectAll_cons, ih, mem_states_connect, List.exists_mem_cons_iff, or_assoc]

/-- Moves over symbols of the alphabet leave the alphabet as it is. -/
theorem alphabet_connect_of_mem {q : StateName} (h : ∀ c, l = .symbol c → c ∈ a.alphabet) :
    (a.connect p q l).alphabet = a.alphabet := by
  cases l with
  | epsilon => rfl
  | symbol c => exact OrderedSet.insert_of_mem (h c rfl)

theorem alphabet_connectAll (h : ∀ p q c, (p, q, Label.symbol c) ∈ moves → c ∈ a.alphabet) :
    (a.connectAll moves).alphabet = a.alphabet := by
  induction moves generalizing a with
  | nil => rfl
  | cons m moves ih =>
    have hc : (a.connect m.1 m.2.1 m.2.2).alphabet = a.alphabet :=
      alphabet_connect_of_mem fun c hc => h m.1 m.2.1 c (hc ▸ List.mem_cons_self)
    refine (ih fun p q c hm => ?_).trans hc
    rw [hc]
    exact h p q c (List.mem_cons_of_mem m hm)

end Moves

section Edges

variable {es : List (Label × StateName)}

/-- The moves of one state are moves. -/
theorem addEdges_eq (a : Automaton) (p : StateName) (es : List (Label × StateName)) :
    a.addEdges p es = a.connectAll (es.map fun e => (p, e.2, e.1)) := by
  rw [addEdges, connectAll, List.foldl_map]

theorem mem_edgeMoves_iff :
    (n, t, l) ∈ es.map (fun e => (p, e.2, e.1)) ↔ n = p ∧ (l, t) ∈ es := by
  rw [List.mem_map]
  refine ⟨fun h => ?_, fun h => ?_⟩
  · obtain ⟨⟨m, u⟩, he, e⟩ := h
    cases e
    exact ⟨rfl, he⟩
  · obtain ⟨rfl, he⟩ := h
    exact ⟨(l, t), he, rfl⟩

@[simp] theorem start_addEdges : (a.addEdges p es).start = a.start := by
  rw [addEdges_eq, start_connectAll]

theorem WellFormed.addEdges (h : a.WellFormed) : (a.addEdges p es).WellFormed := by
  rw [addEdges_eq]
  exact h.connectAll

theorem mem_successors_addEdges :
    t ∈ (a.addEdges p es).successors n l ↔ t ∈ a.successors n l ∨ (n = p ∧ (l, t) ∈ es) := by
  rw [addEdges_eq, mem_successors_connectAll, mem_edgeMoves_iff]

@[simp] theorem isAccepting_addEdges : (a.addEdges p es).isAccepting n = a.isAccepting n := by
  rw [addEdges_eq, isAccepting_connectAll]

theorem mem_states_addEdges (hp : p ∈ a.states) :
    n ∈ (a.addEdges p es).states ↔ n ∈ a.states ∨ ∃ e ∈ es, n = e.2 := by
  rw [addEdges_eq, mem_states_connectAll]
  refine ⟨fun h => ?_, fun h => ?_⟩
  · rcases h with h | ⟨m, hm, hn⟩
    · exact Or.inl h
    · obtain ⟨e, he, rfl⟩ := List.mem_map.1 hm
      rcases hn with rfl | rfl
      · exact Or.inl hp
      · exact Or.inr ⟨e, he, rfl⟩
  · rcases h with h | ⟨e, he, hn⟩
    · exact Or.inl h
    · exact Or.inr ⟨(p, e.2, e.1), List.mem_map.2 ⟨e, he, rfl⟩, Or.inr hn⟩

theorem alphabet_addEdges (h : ∀ c t, (Label.symbol c, t) ∈ es → c ∈ a.alphabet) :
    (a.addEdges p es).alphabet = a.alphabet := by
  rw [addEdges_eq]
  exact alphabet_connectAll fun _ q c hm => h c q (mem_edgeMoves_iff.1 hm).2

end Edges

/-! ## 3. Adding one row -/

/-- The state of a row with its mark, before its moves are added. -/
def markRow (a : Automaton) (r : Row) : Automaton :=
  if r.accepting then (a.addState r.name).mark r.name true else a.addState r.name

theorem addRow_eq (a : Automaton) (r : Row) :
    a.addRow r = (a.markRow r).addEdges r.name r.edges := rfl

variable {r : Row}

@[simp] theorem start_markRow : (a.markRow r).start = a.start := by
  unfold markRow
  split <;> rfl

@[simp] theorem alphabet_markRow : (a.markRow r).alphabet = a.alphabet := by
  unfold markRow
  split <;> rfl

theorem WellFormed.markRow (h : a.WellFormed) : (a.markRow r).WellFormed := by
  unfold Automaton.markRow
  split
  · exact h.addState.mark
  · exact h.addState

@[simp] theorem successors_markRow : (a.markRow r).successors n l = a.successors n l := by
  unfold markRow
  split <;> simp

@[simp] theorem mem_states_markRow : n ∈ (a.markRow r).states ↔ n ∈ a.states ∨ n = r.name := by
  unfold markRow
  split
  · rw [mem_states_mark, mem_states_addState, or_assoc, or_self]
  · exact mem_states_addState

theorem isAccepting_markRow : (a.markRow r).isAccepting n = true ↔
    a.isAccepting n = true ∨ (r.name = n ∧ r.accepting = true) := by
  unfold markRow
  by_cases hr : r.accepting = true
  · rw [if_pos hr, isAccepting_mark, isAccepting_addState]
    by_cases e : n = r.name
    · simp [e, hr]
    · rw [if_neg e]
      exact ⟨Or.inl, fun h => h.resolve_right fun h => e h.1.symm⟩
  · rw [if_neg hr, isAccepting_addState]
    exact ⟨Or.inl, fun h => h.resolve_right fun h => hr h.2⟩

/-! ## 4. All rows -/

variable {rows : List Row}

theorem start_foldl_addRow : (rows.foldl addRow a).start = a.start := by
  induction rows generalizing a with
  | nil => rfl
  | cons r rows ih =>
    rw [List.foldl_cons, ih, addRow_eq, start_addEdges, start_markRow]

theorem WellFormed.foldl_addRow (h : a.WellFormed) : (rows.foldl addRow a).WellFormed := by
  induction rows generalizing a with
  | nil => exact h
  | cons r rows ih => exact ih h.markRow.addEdges

theorem mem_successors_foldl_addRow : t ∈ (rows.foldl addRow a).successors n l ↔
    t ∈ a.successors n l ∨ ∃ r ∈ rows, r.name = n ∧ (l, t) ∈ r.edges := by
  induction rows generalizing a with
  | nil => simp
  | cons r rows ih =>
    rw [List.foldl_cons, ih, addRow_eq, mem_successors_addEdges, successors_markRow,
      List.exists_mem_cons_iff, or_assoc, eq_comm (a := n)]

theorem isAccepting_foldl_addRow : (rows.foldl addRow a).isAccepting n = true ↔
    a.isAccepting n = true ∨ ∃ r ∈ rows, r.name = n ∧ r.accepting = true := by
  induction rows generalizing a with
  | nil => simp
  | cons r rows ih =>
    rw [List.foldl_cons, ih, addRow_eq, isAccepting_addEdges, isAccepting_markRow,
      List.exists_mem_cons_iff, or_assoc]

theorem mem_states_foldl_addRow : n ∈ (rows.foldl addRow a).states ↔
    n ∈ a.states ∨ ∃ r ∈ rows, n = r.name ∨ ∃ e ∈ r.edges, n = e.2 := by
  induction rows generalizing a with
  | nil => simp
  | cons r rows ih =>
    rw [List.foldl_cons, ih, addRow_eq, mem_states_addEdges (mem_states_markRow.2 (Or.inr rfl)),
      mem_states_markRow, List.exists_mem_cons_iff, or_assoc, or_assoc, or_assoc]

theorem alphabet_foldl_addRow
    (h : ∀ r ∈ rows, ∀ c t, (Label.symbol c, t) ∈ r.edges → c ∈ a.alphabet) :
    (rows.foldl addRow a).alphabet = a.alphabet := by
  induction rows generalizing a with
  | nil => rfl
  | cons r rows ih =>
    have hr : (a.addRow r).alphabet = a.alphabet := by
      rw [addRow_eq, alphabet_addEdges, alphabet_markRow]
      intro c t ht
      rw [alphabet_markRow]
      exact h r List.mem_cons_self c t ht
    rw [List.foldl_cons, ih, hr]
    intro s hs c t ht
    rw [hr]
    exact h s (List.mem_cons_of_mem r hs) c t ht

/-! ## 5. Tables -/

variable {start : StateName} {alphabet : List Symbol}

@[simp] theorem start_ofRows : (ofRows start alphabet rows).start = start :=
  start_foldl_addRow

/-- **The automaton of a table is well-formed.** -/
theorem wellFormed_ofRows : (ofRows start alphabet rows).WellFormed :=
  wellFormed_ofStart.addSymbols.foldl_addRow

theorem mem_successors_ofRows : t ∈ (ofRows start alphabet rows).successors n l ↔
    ∃ r ∈ rows, r.name = n ∧ (l, t) ∈ r.edges := by
  rw [ofRows, mem_successors_foldl_addRow, successors_addSymbols, successors_ofStart]
  exact ⟨fun h => h.resolve_left List.not_mem_nil, Or.inr⟩

theorem isAccepting_ofRows : (ofRows start alphabet rows).isAccepting n = true ↔
    ∃ r ∈ rows, r.name = n ∧ r.accepting = true := by
  rw [ofRows, isAccepting_foldl_addRow, isAccepting_addSymbols, isAccepting_ofStart]
  exact ⟨fun h => h.resolve_left Bool.false_ne_true, Or.inr⟩

theorem mem_states_ofRows : n ∈ (ofRows start alphabet rows).states ↔
    n = start ∨ ∃ r ∈ rows, n = r.name ∨ ∃ e ∈ r.edges, n = e.2 := by
  rw [ofRows, mem_states_foldl_addRow, states_addSymbols, mem_states_ofStart]

/-- Rows over the alphabet leave it as it is, its order included. -/
theorem alphabet_ofRows {symbols : OrderedSet Symbol}
    (h : ∀ r ∈ rows, ∀ c t, (Label.symbol c, t) ∈ r.edges → c ∈ symbols) :
    (ofRows start symbols.toList rows).alphabet = symbols := by
  have hs : ((ofStart start).addSymbols symbols.toList).alphabet = symbols :=
    OrderedSet.ofList_toList symbols
  rw [ofRows, alphabet_foldl_addRow, hs]
  rw [hs]
  exact h

end RegularLanguages.Automaton
