import RegularLanguages.Automaton.Construction
import RegularLanguages.Proofs.Automaton.Naming
import RegularLanguages.Proofs.Automaton.Path
import RegularLanguages.Proofs.Automaton.Table

/-!
# The reversed automaton

* `mem_states_reverse`, `mem_successors_reverse`, `isAccepting_reverse` -- the views of the
  reversal: one state more, all moves turned around, a new start in front of the accepting states;
* `path_reverse_iff` -- **its paths among the old states are the old paths, backwards**;
* `path_start_reverse_iff` -- from its start a word leads to an old state iff it is recognized from
  there backwards;
* `reverse_reads_backwards` -- **so it recognizes the old words, backwards**.
-/

namespace RegularLanguages.Automaton

variable {a : Automaton} {n p q t : StateName} {l : Label} {w : Word}

/-! ## 1. The views of the reversal -/

theorem mem_reversedMoves_iff (ha : a.WellFormed) :
    (p, q, l) ∈ a.reversedMoves ↔ p ∈ a.successors q l := by
  rw [reversedMoves, List.mem_flatMap]
  refine ⟨fun h => ?_, fun h => ?_⟩
  · obtain ⟨s, hs, h⟩ := h
    obtain ⟨⟨m, t⟩, he, e⟩ := List.mem_map.1 h
    cases e
    rw [successors_of_state? (ha.mem_values_iff.1 hs)]
    exact State.mem_edges_iff.1 he
  · obtain ⟨s, hs, rfl⟩ := ha.exists_state (mem_states_of_mem_successors h)
    rw [successors_of_state? hs] at h
    exact ⟨s, ha.mem_values_iff.2 hs, List.mem_map.2 ⟨(l, p), State.mem_edges_iff.2 h, rfl⟩⟩

/-- The reversal before its start is connected. -/
def turnedMoves (a : Automaton) : Automaton :=
  ((a.stateNames.foldl addState
    ((ofStart (a.freshName "start")).addSymbols a.alphabet.toList)).mark a.start true).connectAll
      a.reversedMoves

theorem reverse_eq (a : Automaton) : a.reverse =
    a.turnedMoves.addEdges (a.freshName "start")
      (a.accepting.toList.map fun name => (.epsilon, name)) := rfl

theorem start_turnedMoves : a.turnedMoves.start = a.freshName "start" := by
  rw [turnedMoves, start_connectAll, start_mark, start_foldl_addState, start_addSymbols,
    start_ofStart]

theorem start_reverse : a.reverse.start = a.freshName "start" := by
  rw [reverse_eq, start_addEdges, start_turnedMoves]

/-- The start of the reversal is no state of the automaton. -/
theorem start_reverse_not_mem : a.reverse.start ∉ a.states := by
  rw [start_reverse]
  exact freshName_not_mem a "start"

theorem wellFormed_reverse : a.reverse.WellFormed :=
  wellFormed_ofStart.addSymbols.foldl_addState.mark.connectAll.addEdges

theorem mem_states_turnedMoves (ha : a.WellFormed) :
    n ∈ a.turnedMoves.states ↔ n = a.reverse.start ∨ n ∈ a.states := by
  have hmoves : ∀ m ∈ a.reversedMoves, m.1 ∈ a.states ∧ m.2.1 ∈ a.states := fun m hm => by
    have hmove : m.1 ∈ a.successors m.2.1 m.2.2 := (mem_reversedMoves_iff ha).1 hm
    exact ⟨ha.mem_of_mem_successors hmove, mem_states_of_mem_successors hmove⟩
  have hbare : n ∈ ((ofStart (a.freshName "start")).addSymbols a.alphabet.toList).states ↔
      n = a.reverse.start := by
    rw [start_reverse]
    exact mem_states_ofStart
  have hnames : n ∈ a.stateNames ↔ n ∈ a.states := Iff.rfl
  rw [turnedMoves, mem_states_connectAll, mem_states_mark, mem_states_foldl_addState, hbare, hnames]
  constructor
  · rintro ((h | rfl) | ⟨m, hm, rfl | rfl⟩)
    · exact h
    · exact Or.inr ha.start_mem
    · exact Or.inr (hmoves m hm).1
    · exact Or.inr (hmoves m hm).2
  · exact fun h => Or.inl (Or.inl h)

/-- A reversal has one more state, its start. -/
theorem mem_states_reverse (ha : a.WellFormed) :
    n ∈ a.reverse.states ↔ n = a.reverse.start ∨ n ∈ a.states := by
  have hstart : a.freshName "start" ∈ a.turnedMoves.states :=
    (mem_states_turnedMoves ha).2 (Or.inl start_reverse.symm)
  rw [reverse_eq, mem_states_addEdges hstart, ← reverse_eq, mem_states_turnedMoves ha]
  refine or_iff_left_of_imp ?_
  rintro ⟨e, he, rfl⟩
  obtain ⟨name, hname, rfl⟩ := List.mem_map.1 he
  exact Or.inr (mem_states_of_isAccepting ((ha.mem_accepting_iff name).1 hname))

theorem alphabet_turnedMoves (ha : a.WellFormed) : a.turnedMoves.alphabet = a.alphabet := by
  have h : (((ofStart (a.freshName "start")).addSymbols a.alphabet.toList).alphabet) = a.alphabet :=
    OrderedSet.ofList_toList a.alphabet
  rw [turnedMoves, alphabet_connectAll, alphabet_mark, alphabet_foldl_addState, h]
  intro p q c hm
  rw [alphabet_mark, alphabet_foldl_addState, h]
  exact ha.mem_alphabet ((mem_reversedMoves_iff ha).1 hm)

theorem alphabet_reverse (ha : a.WellFormed) : a.reverse.alphabet = a.alphabet := by
  rw [reverse_eq, alphabet_addEdges, alphabet_turnedMoves ha]
  intro c t h
  obtain ⟨name, _, e⟩ := List.mem_map.1 h
  cases e

/-- **All moves are turned around**, and the start leads to the accepting states. -/
theorem mem_successors_reverse (ha : a.WellFormed) : q ∈ a.reverse.successors p l ↔
    p ∈ a.successors q l ∨ (p = a.reverse.start ∧ l = .epsilon ∧ a.isAccepting q = true) := by
  have hturned : q ∈ a.turnedMoves.successors p l ↔ p ∈ a.successors q l := by
    rw [turnedMoves, mem_successors_connectAll, successors_mark, successors_foldl_addState,
      successors_addSymbols, successors_ofStart, mem_reversedMoves_iff ha]
    exact ⟨fun h => h.resolve_left List.not_mem_nil, Or.inr⟩
  have hentry : (l, q) ∈ a.accepting.toList.map (fun name => (Label.epsilon, name)) ↔
      l = .epsilon ∧ a.isAccepting q = true := by
    rw [List.mem_map, ← ha.mem_accepting_iff]
    refine ⟨fun h => ?_, fun h => ?_⟩
    · obtain ⟨name, h, e⟩ := h
      cases e
      exact ⟨rfl, h⟩
    · obtain ⟨rfl, h⟩ := h
      exact ⟨q, h, rfl⟩
  rw [start_reverse, reverse_eq, mem_successors_addEdges, hturned, hentry]

/-- The old start is the only accepting state. -/
theorem isAccepting_reverse : a.reverse.isAccepting p = true ↔ p = a.start := by
  rw [reverse_eq, isAccepting_addEdges, turnedMoves, isAccepting_connectAll, isAccepting_mark,
    isAccepting_foldl_addState, isAccepting_addSymbols, isAccepting_ofStart]
  by_cases e : p = a.start <;> simp [e]

theorem start_ne_start_reverse (ha : a.WellFormed) : a.start ≠ a.reverse.start := fun e =>
  start_reverse_not_mem (e ▸ ha.start_mem)

/-- No move leads to the new start. -/
theorem ne_start_of_mem_successors_reverse (ha : a.WellFormed)
    (h : q ∈ a.reverse.successors p l) : q ≠ a.reverse.start := by
  rintro rfl
  rcases (mem_successors_reverse ha).1 h with h | ⟨_, _, h⟩
  · exact start_reverse_not_mem (mem_states_of_mem_successors h)
  · exact start_reverse_not_mem (mem_states_of_isAccepting h)

/-! ## 2. Paths backwards -/

/-- Between old states the moves are the old ones, turned around. -/
theorem mem_successors_reverse_of_ne (ha : a.WellFormed) (hp : p ≠ a.reverse.start) :
    q ∈ a.reverse.successors p l ↔ p ∈ a.successors q l :=
  (mem_successors_reverse ha).trans ⟨fun h => h.resolve_right fun h => hp h.1, Or.inl⟩

theorem Path.reversed (ha : a.WellFormed) (h : a.Path q w p) : a.reverse.Path p w.reverse q := by
  induction h with
  | here => exact .here _
  | epsilon hs _ ih =>
    have hturned := (mem_successors_reverse ha).2 (Or.inl hs)
    rw [← List.append_nil (List.reverse _)]
    exact ih.append (.singleEpsilon hturned)
  | symbol hs _ ih =>
    have hturned := (mem_successors_reverse ha).2 (Or.inl hs)
    rw [List.reverse_cons]
    exact ih.append (.single hturned)

/-- **Paths of the reversal among old states are old paths backwards.** -/
theorem path_reverse_iff (ha : a.WellFormed) (hp : p ≠ a.reverse.start) :
    a.reverse.Path p w q ↔ a.Path q w.reverse p := by
  refine ⟨fun h => ?_, fun h => ?_⟩
  · induction h with
    | here => exact .here _
    | epsilon hs _ ih =>
      have hold := (mem_successors_reverse_of_ne ha hp).1 hs
      rw [← List.append_nil (List.reverse _)]
      exact (ih (ne_start_of_mem_successors_reverse ha hs)).append (.singleEpsilon hold)
    | symbol hs _ ih =>
      have hold := (mem_successors_reverse_of_ne ha hp).1 hs
      rw [List.reverse_cons]
      exact (ih (ne_start_of_mem_successors_reverse ha hs)).append (.single hold)
  · have h' := h.reversed ha
    rwa [List.reverse_reverse] at h'

/-! ## 3. Words backwards -/

/-- All that leads on from the new start are the epsilon moves to the old accepting states. -/
theorem mem_successors_start_reverse (ha : a.WellFormed) :
    q ∈ a.reverse.successors a.reverse.start l ↔ l = .epsilon ∧ a.isAccepting q = true := by
  rw [mem_successors_reverse ha]
  constructor
  · intro h
    rcases h with h | ⟨_, h⟩
    · exact absurd (ha.mem_of_mem_successors h) start_reverse_not_mem
    · exact h
  · exact fun h => Or.inr ⟨rfl, h⟩

/-- **From the new start a word leads to an old state iff it is recognized from there backwards.**
-/
theorem path_start_reverse_iff (ha : a.WellFormed) (hq : q ≠ a.reverse.start) :
    a.reverse.Path a.reverse.start w q ↔ a.RecognizesFrom q w.reverse := by
  constructor
  · intro h
    cases h with
    | here => exact absurd rfl hq
    | @epsilon _ p _ _ hs h =>
      have hacc := ((mem_successors_start_reverse ha).1 hs).2
      have hp := ne_start_of_mem_successors_reverse ha hs
      exact ⟨p, (path_reverse_iff ha hp).1 h, hacc⟩
    | symbol hs _ => exact absurd ((mem_successors_start_reverse ha).1 hs).1 nofun
  · intro h
    obtain ⟨p, h, hacc⟩ := h
    have hs := (mem_successors_start_reverse ha).2 ⟨rfl, hacc⟩
    have hp := ne_start_of_mem_successors_reverse ha hs
    exact .epsilon hs ((path_reverse_iff ha hp).2 h)

/-- **Reversal reverses the language**: the reversal recognizes a word iff the automaton recognizes
the word backwards, whatever epsilon moves it has, whatever its states are called and however many
of them accept. -/
theorem reverse_reads_backwards (ha : a.WellFormed) (w : Word) :
    a.reverse.Recognizes w ↔ a.Recognizes w.reverse := by
  have hfinal : a.reverse.Recognizes w ↔ a.reverse.Path a.reverse.start w a.start := by
    simp only [Recognizes, RecognizesFrom, isAccepting_reverse, exists_eq_right]
  rw [hfinal]
  exact path_start_reverse_iff ha (start_ne_start_reverse ha)

/-- An automaton with an epsilon move back to its start, which accepts like another state, and in
which the first two names for the start of the reversal are taken. -/
def takenStarts : Automaton :=
  ofRows "start" ['x', 'y'] [⟨"start", true, [(.symbol 'x', "start'")]⟩,
    ⟨"start'", false, [(.epsilon, "start"), (.symbol 'y', "end")]⟩, ⟨"end", true, []⟩]

theorem reverse_reads_backwards_takenStarts : takenStarts.WellFormed ∧
    takenStarts.reverse.start = "start''" ∧ takenStarts.Recognizes ['x', 'x', 'y'] ∧
      takenStarts.reverse.Recognizes ['y', 'x', 'x'] := by
  have ha : takenStarts.WellFormed := wellFormed_ofRows
  have hword : takenStarts.Recognizes ['x', 'x', 'y'] :=
    ⟨"end", .symbol (by decide : "start'" ∈ takenStarts.successors "start" (.symbol 'x'))
      (.epsilon (by decide : "start" ∈ takenStarts.successors "start'" .epsilon)
        (.symbol (by decide : "start'" ∈ takenStarts.successors "start" (.symbol 'x'))
          (.single (by decide)))), by decide⟩
  exact ⟨ha, by decide +kernel, hword, (reverse_reads_backwards ha ['y', 'x', 'x']).2 hword⟩

end RegularLanguages.Automaton
