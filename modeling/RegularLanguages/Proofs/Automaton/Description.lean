import RegularLanguages.Automaton.Description
import RegularLanguages.Proofs.Automaton.Table

/-!
# What a description describes

* `Description.Valid` -- every part that a description mentions is declared;
* `Description.build` -- the automaton of a description, without any checks, and its views.
-/

namespace RegularLanguages

/-- The label that a symbol of a described transition stands for. -/
def Label.ofDescribed (c : Symbol) : Label := if c = epsilonSymbol then .epsilon else .symbol c

/-- The symbol that stands for a label in a description. -/
def Label.described : Label → Symbol
  | .epsilon => epsilonSymbol
  | .symbol c => c

theorem Label.ofDescribed_described {l : Label} (h : l ≠ .symbol epsilonSymbol) :
    ofDescribed l.described = l := by
  cases l with
  | epsilon => exact if_pos rfl
  | symbol c => exact if_neg fun e => h (congrArg Label.symbol e)

namespace Automaton

variable {d : Description} {a b : Automaton} {n p q t : StateName} {l : Label} {c : Symbol}

/-! ## 1. Checked steps -/

theorem setStart_eq_ok_iff :
    a.setStart n = .ok b ↔ n ∈ a.states ∧ b = { a with start := n } := by
  unfold setStart
  split <;> simp_all [eq_comm]

theorem setAccepting_eq_ok_iff {flag : Bool} :
    a.setAccepting n flag = .ok b ↔ n ∈ a.states ∧ b = a.mark n flag := by
  unfold setAccepting
  split <;> simp_all [eq_comm]

theorem addTransition_eq_ok_iff :
    a.addTransition p q l = .ok b ↔ (p ∈ a.states ∧ q ∈ a.states) ∧ b = a.connect p q l := by
  unfold addTransition
  split
  · simp_all
  · split <;> simp_all [eq_comm]

/-! ## 2. The automaton of a description -/

namespace Description

/-- Whether the ends of a single transition are declared, and the symbol unless it stands for
epsilon. -/
def Declares (d : Description) (t : StateName × Symbol × StateName) : Prop :=
  (t.2.1 = epsilonSymbol ∨ t.2.1 ∈ d.alphabet) ∧ t.1 ∈ d.states ∧ t.2.2 ∈ d.states

/-- Everything that a description mentions is declared in it. -/
structure Valid (d : Description) : Prop where
  /-- The start is a state. -/
  start_mem : d.start ∈ d.states
  /-- The stand-in of epsilon is no symbol. -/
  epsilon_not_mem : epsilonSymbol ∉ d.alphabet
  /-- The accepting states are states. -/
  accepting_mem : ∀ n ∈ d.accepting, n ∈ d.states
  /-- Transitions go from states to states, on symbols of the alphabet or on nothing. -/
  declares : ∀ t ∈ d.singleTransitions, d.Declares t

/-- The states and symbols of a description. -/
def bare (d : Description) : Automaton :=
  (d.states.foldl addState (ofStart d.start)).addSymbols d.alphabet

/-- The states and symbols of a description, with its marks. -/
def marked (d : Description) : Automaton := d.accepting.foldl (·.mark · true) d.bare

/-- The moves of a description. -/
def moves (d : Description) : List (StateName × StateName × Label) :=
  d.singleTransitions.map fun t => (t.1, t.2.2, .ofDescribed t.2.1)

/-- The automaton that a description stands for if it is valid. -/
def build (d : Description) : Automaton := d.marked.connectAll d.moves

end Description

theorem mem_states_bare (h : d.start ∈ d.states) : n ∈ d.bare.states ↔ n ∈ d.states := by
  rw [Description.bare, states_addSymbols, mem_states_foldl_addState, mem_states_ofStart]
  exact ⟨fun hn => hn.elim (fun e => e ▸ h) id, Or.inr⟩

section Marks

variable {names : List StateName}

theorem start_foldl_mark : (names.foldl (·.mark · true) a).start = a.start := by
  induction names generalizing a with
  | nil => rfl
  | cons m names ih => exact ih

theorem alphabet_foldl_mark : (names.foldl (·.mark · true) a).alphabet = a.alphabet := by
  induction names generalizing a with
  | nil => rfl
  | cons m names ih => exact ih

theorem WellFormed.foldl_mark (h : a.WellFormed) :
    (names.foldl (·.mark · true) a).WellFormed := by
  induction names generalizing a with
  | nil => exact h
  | cons m names ih => exact ih h.mark

theorem successors_foldl_mark :
    (names.foldl (·.mark · true) a).successors n l = a.successors n l := by
  induction names generalizing a with
  | nil => rfl
  | cons m names ih => exact ih.trans successors_mark

theorem mem_states_foldl_mark :
    n ∈ (names.foldl (·.mark · true) a).states ↔ n ∈ a.states ∨ n ∈ names := by
  induction names generalizing a with
  | nil => simp
  | cons m names ih => rw [List.foldl_cons, ih, mem_states_mark, List.mem_cons, or_assoc]

theorem isAccepting_foldl_mark : (names.foldl (·.mark · true) a).isAccepting n = true ↔
    a.isAccepting n = true ∨ n ∈ names := by
  induction names generalizing a with
  | nil => simp
  | cons m names ih =>
    rw [List.foldl_cons, ih, isAccepting_mark, List.mem_cons, ← or_assoc]
    by_cases e : n = m <;> simp [e]

end Marks

theorem mem_moves_iff : (p, q, l) ∈ d.moves ↔
    ∃ c, (p, c, q) ∈ d.singleTransitions ∧ l = .ofDescribed c := by
  rw [Description.moves, List.mem_map]
  constructor
  · rintro ⟨⟨p', c, q'⟩, ht, e⟩
    cases e
    exact ⟨c, ht, rfl⟩
  · rintro ⟨c, ht, rfl⟩
    exact ⟨(p, c, q), ht, rfl⟩

/-! ## 3. Its views -/

theorem start_build : d.build.start = d.start := by
  rw [Description.build, start_connectAll, Description.marked, start_foldl_mark, Description.bare,
    start_addSymbols, start_foldl_addState, start_ofStart]

theorem wellFormed_build : d.build.WellFormed :=
  wellFormed_ofStart.foldl_addState.addSymbols.foldl_mark.connectAll

theorem mem_states_marked (h : d.start ∈ d.states) (h' : ∀ n ∈ d.accepting, n ∈ d.states) :
    n ∈ d.marked.states ↔ n ∈ d.states := by
  rw [Description.marked, mem_states_foldl_mark, mem_states_bare h]
  exact ⟨fun hn => hn.elim id (h' n), Or.inl⟩

theorem mem_states_build (h : d.Valid) : n ∈ d.build.states ↔ n ∈ d.states := by
  rw [Description.build, mem_states_connectAll, mem_states_marked h.start_mem h.accepting_mem]
  refine ⟨fun hn => hn.elim id ?_, Or.inl⟩
  rintro ⟨⟨p, q, l⟩, hm, hn⟩
  obtain ⟨c, ht, _⟩ := mem_moves_iff.1 hm
  have hends := (h.declares _ ht).2
  rcases hn with rfl | rfl
  · exact hends.1
  · exact hends.2

theorem alphabet_marked : d.marked.alphabet = .ofList d.alphabet := by
  rw [Description.marked, alphabet_foldl_mark, Description.bare]
  have hbare : ((d.states.foldl addState (ofStart d.start)).addSymbols d.alphabet).alphabet =
      (d.states.foldl addState (ofStart d.start)).alphabet.append d.alphabet := rfl
  rw [hbare, alphabet_foldl_addState, alphabet_ofStart]
  rfl

/-- The alphabet is the declared one, in its order. -/
theorem alphabet_build (h : d.Valid) : d.build.alphabet = .ofList d.alphabet := by
  rw [Description.build, alphabet_connectAll, alphabet_marked]
  intro p q c hm
  obtain ⟨c', ht, e⟩ := mem_moves_iff.1 hm
  rw [alphabet_marked, OrderedSet.mem_ofList]
  unfold Label.ofDescribed at e
  split at e
  · cases e
  · rename_i hne
    cases e
    exact (h.declares _ ht).1.resolve_left hne

theorem isAccepting_build : d.build.isAccepting n = true ↔ n ∈ d.accepting := by
  rw [Description.build, isAccepting_connectAll, Description.marked, isAccepting_foldl_mark,
    Description.bare, isAccepting_addSymbols, isAccepting_foldl_addState, isAccepting_ofStart]
  simp

theorem mem_successors_build : t ∈ d.build.successors n l ↔
    ∃ c, (n, c, t) ∈ d.singleTransitions ∧ l = .ofDescribed c := by
  rw [Description.build, mem_successors_connectAll, mem_moves_iff, Description.marked,
    successors_foldl_mark, Description.bare, successors_addSymbols, successors_foldl_addState,
    successors_ofStart]
  exact ⟨fun h => h.resolve_left List.not_mem_nil, Or.inr⟩

end Automaton

end RegularLanguages
