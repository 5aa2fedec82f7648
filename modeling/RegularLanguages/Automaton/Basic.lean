import RegularLanguages.Ordered.Map
import RegularLanguages.Symbol
import RegularLanguages.Text.Quoted

/-!
# Automata

A finite automaton is a graph of named states whose edges carry a symbol or no symbol at all. One
type serves for automata with and without epsilon moves, deterministic or not; which of them a
value is, is a question that `isDeterministic` answers.

* `Label`, `State`, `Automaton` -- the graph;
* `targets`, `edges`, `knownTargets`, `successors` -- its moves;
* `isDeterministic` -- no epsilon move and no two targets on one symbol;
* `step?`, `run?`, `accepts` -- reading a word by following, symbol by symbol, the first target of
  each move. Epsilon moves are never taken, so a run describes the language of the automaton only
  if that is deterministic;
* `WellFormed` -- the parts of an automaton refer to each other and fit together.

A state is stored under its name and also carries it; the set of accepting states lists those
whose flag is set, in the order in which they were marked. `Automaton.Construction` holds the
operations, all of which keep the two in step.
-/

namespace RegularLanguages

/-! ## 1. The graph -/

/-- States are identified by their names. -/
abbrev StateName := String

/-- The label of a transition. -/
inductive Label where
  /-- The move reads nothing. -/
  | epsilon
  /-- The move reads one symbol. -/
  | symbol (c : Symbol)
  deriving DecidableEq

/-- The symbol that stands for epsilon in descriptions. -/
def epsilonSymbol : Symbol := '\x00'

/-- The spelling of a label, where epsilon is written as its stand-in. -/
def Label.spelling : Label → String
  | .epsilon => Symbol.spelling epsilonSymbol
  | .symbol c => Symbol.spelling c

/-- A state with its outgoing transitions. -/
structure State where
  /-- The name of the state. -/
  name : StateName
  /-- Whether a word may end here. -/
  accepting : Bool
  /-- The targets of the moves, by label. -/
  transitions : OrderedMap Label (OrderedSet StateName)
  deriving DecidableEq

/-- A finite automaton. -/
structure Automaton where
  /-- The state where every run starts. -/
  start : StateName
  /-- The accepting states. -/
  accepting : OrderedSet StateName
  /-- The symbols that moves may read. -/
  alphabet : OrderedSet Symbol
  /-- The states by name. -/
  states : OrderedMap StateName State
  deriving DecidableEq

/-! ## 2. States -/

namespace State

/-- A state that does not accept and has no moves. -/
def ofName (name : StateName) : State := ⟨name, false, ∅⟩

/-- The states that a move with this label leads to. -/
def targets (s : State) (l : Label) : List StateName :=
  match s.transitions.get? l with
  | some ts => ts.toList
  | none => []

/-- All moves as pairs of a label and a target, grouped by label. -/
def edges (s : State) : List (Label × StateName) :=
  s.transitions.entries.flatMap fun e => e.2.toList.map fun t => (e.1, t)

/-- The state with one more move; one that exists already changes nothing. -/
def addEdge (s : State) (l : Label) (target : StateName) : State :=
  let known := (s.transitions.get? l).getD ∅
  { s with transitions := s.transitions.insert l (known.insert target) }

end State

/-! ## 3. Queries -/

namespace Automaton

/-- What can be wrong with a reference to the parts of an automaton. -/
inductive Error where
  /-- There is no state of this name. -/
  | unknownState (name : StateName)
  /-- The symbol is not declared in the alphabet. -/
  | undeclaredSymbol (c : Symbol)
  deriving DecidableEq

/-- The wording of an error. -/
def Error.message : Error → String
  | .unknownState name => "unknown state `" ++ name ++ "`"
  | .undeclaredSymbol c => "symbol " ++ Text.quoteChar c ++ " is not declared in the alphabet"

/-- The state of a name. -/
def state? (a : Automaton) (name : StateName) : Option State := a.states.get? name

/-- The names of all states in order. -/
def stateNames (a : Automaton) : List StateName := a.states.keys

/-- Whether there is a state of this name. -/
def contains (a : Automaton) (name : StateName) : Bool := name ∈ a.states

/-- The number of states. -/
def size (a : Automaton) : Nat := a.states.size

/-- The position of a state among all states. -/
def position? (a : Automaton) (name : StateName) : Option Nat := a.states.indexOf? name

/-- The targets of a state on a label, if the state exists. -/
def targets? (a : Automaton) (name : StateName) (l : Label) : Option (List StateName) :=
  (a.state? name).map fun s => s.targets l

/-- The targets of a state on a label. An empty answer means that there is no move, an error that
there is no such state. -/
def knownTargets (a : Automaton) (name : StateName) (l : Label) : Except Error (List StateName) :=
  match a.targets? name l with
  | some ts => .ok ts
  | none => .error (.unknownState name)

/-- The targets of a state on a label, where an unknown state has none. -/
def successors (a : Automaton) (name : StateName) (l : Label) : List StateName :=
  (a.targets? name l).getD []

/-- All moves of a state, where an unknown state has none. -/
def edgesOf (a : Automaton) (name : StateName) : List (Label × StateName) :=
  match a.state? name with
  | some s => s.edges
  | none => []

/-- Whether the state exists and accepts. -/
def isAccepting (a : Automaton) (name : StateName) : Bool :=
  match a.state? name with
  | some s => s.accepting
  | none => false

/-- Whether no state has an epsilon move or two targets on one symbol. -/
def isDeterministic (a : Automaton) : Bool :=
  a.states.values.all fun s =>
    s.transitions.entries.all fun e => e.1 ≠ .epsilon && e.2.size ≤ 1

/-- The number of moves of all states. -/
def transitionCount (a : Automaton) : Nat :=
  (a.states.values.flatMap State.edges).length

/-! ## 4. Runs -/

/-- The state behind one symbol. -/
def step? (a : Automaton) (name : StateName) (c : Symbol) : Option StateName :=
  (a.successors name (.symbol c)).head?

/-- The state behind a word, if there is a move for each of its symbols. -/
def run? (a : Automaton) (name : StateName) : Word → Option StateName
  | [] => some name
  | c :: w =>
    match a.step? name c with
    | some next => a.run? next w
    | none => none

/-- Whether reading the word from the start ends in an accepting state. -/
def accepts (a : Automaton) (w : Word) : Bool :=
  match a.run? a.start w with
  | some name => a.isAccepting name
  | none => false

/-! ## 5. Well-formed automata -/

/-- The parts of an automaton fit together. -/
structure WellFormed (a : Automaton) : Prop where
  /-- The start is a state. -/
  start_mem : a.start ∈ a.states
  /-- Every state is stored under its own name. -/
  name_eq : ∀ name s, a.state? name = some s → s.name = name
  /-- The accepting states are those whose flag is set. -/
  mem_accepting_iff : ∀ name, name ∈ a.accepting ↔ a.isAccepting name = true
  /-- Every move leads to a state. -/
  target_mem : ∀ name, ∀ e ∈ a.edgesOf name, e.2 ∈ a.states
  /-- Every symbol that a move reads is in the alphabet. -/
  symbol_mem : ∀ name c t, (Label.symbol c, t) ∈ a.edgesOf name → c ∈ a.alphabet
  /-- No label is stored without a target. -/
  targets_ne_nil : ∀ name s, a.state? name = some s → ∀ e ∈ s.transitions.entries, e.2.toList ≠ []

end Automaton

end RegularLanguages
