import RegularLanguages.Automaton.Basic
import RegularLanguages.Ordered.Exploration

/-!
# Building automata

Operations that enlarge or change an automaton. There are two families:

* `addState`, `addSymbol`, `addTransition`, `setStart`, `setAccepting` check the states that they
  mention and answer an error where one is missing;
* `connect`, `mark`, `startAt` create what is missing, and `adjoin` takes over all states of
  another automaton. The constructions of this library use them.

`addEdges` and `ofRows` build an automaton from the rows of a transition table. The first
constructions that are made from these are here, too:

* `reachable` -- the automaton of the states that some path from the start leads to, whatever its
  labels;
* `reverse` -- the automaton that reads the words of another one backwards.
-/

namespace RegularLanguages

namespace Automaton

/-! ## 1. States, symbols and the start -/

/-- The automaton whose only state is the start; it accepts nothing. -/
def ofStart (start : StateName) : Automaton where
  start := start
  accepting := ∅
  alphabet := ∅
  states := (∅ : OrderedMap StateName State).insert start (.ofName start)

/-- Adds a state; one that exists already is left as it is. -/
def addState (a : Automaton) (name : StateName) : Automaton :=
  { a with states := a.states.insertIfNew name (.ofName name) }

/-- Adds a symbol to the alphabet. -/
def addSymbol (a : Automaton) (c : Symbol) : Automaton :=
  { a with alphabet := a.alphabet.insert c }

/-- Adds the symbols of a list in order. -/
def addSymbols (a : Automaton) (cs : List Symbol) : Automaton :=
  { a with alphabet := a.alphabet.append cs }

/-! ## 2. Operations that create missing states -/

/-- Adds the move `source --label--> target`, its ends and its symbol. -/
def connect (a : Automaton) (source target : StateName) (l : Label) : Automaton :=
  let b := (a.addState source).addState target
  let c := { b with states := b.states.modify source fun s => s.addEdge l target }
  match l with
  | .epsilon => c
  | .symbol x => c.addSymbol x

/-- Marks a state as accepting or not. -/
def mark (a : Automaton) (name : StateName) (flag : Bool) : Automaton :=
  let b := a.addState name
  { b with
    states := b.states.modify name fun s => { s with accepting := flag }
    accepting := if flag then b.accepting.insert name else b.accepting.erase name }

/-- Makes a state the start. -/
def startAt (a : Automaton) (name : StateName) : Automaton :=
  { a.addState name with start := name }

/-- Takes over all states, moves and symbols of an automaton whose state names are different. The
start and the accepting states stay as they were: what is taken over does not accept. -/
def adjoin (a b : Automaton) : Automaton :=
  { a with
    alphabet := a.alphabet.append b.alphabet.toList
    states := b.states.entries.foldl
      (fun m e => m.insert e.1 { e.2 with accepting := false }) a.states }

/-! ## 3. Operations that check their states -/

/-- Adds a move between two states of the automaton. The source is checked first. -/
def addTransition (a : Automaton) (source target : StateName) (l : Label) :
    Except Error Automaton :=
  if source ∉ a.states then .error (.unknownState source)
  else if target ∉ a.states then .error (.unknownState target)
  else .ok (a.connect source target l)

/-- Makes a state of the automaton its start. -/
def setStart (a : Automaton) (name : StateName) : Except Error Automaton :=
  if name ∉ a.states then .error (.unknownState name)
  else .ok { a with start := name }

/-- Marks a state of the automaton as accepting or not. -/
def setAccepting (a : Automaton) (name : StateName) (flag : Bool) : Except Error Automaton :=
  if name ∉ a.states then .error (.unknownState name)
  else .ok (a.mark name flag)

/-! ## 4. Tables -/

/-- One row of a transition table: a state, whether it accepts, and its moves. -/
structure Row where
  /-- The state of the row. -/
  name : StateName
  /-- Whether it accepts. -/
  accepting : Bool
  /-- Its moves. -/
  edges : List (Label × StateName)

/-- Adds the moves of one state in order. -/
def addEdges (a : Automaton) (source : StateName) (edges : List (Label × StateName)) : Automaton :=
  edges.foldl (fun b e => b.connect source e.2 e.1) a

/-- Adds one row of a table: the state, its mark, its moves and their targets. -/
def addRow (a : Automaton) (r : Row) : Automaton :=
  let b := a.addState r.name
  let c := if r.accepting then b.mark r.name true else b
  c.addEdges r.name r.edges

/-- The automaton of a transition table, over an alphabet and with a start. -/
def ofRows (start : StateName) (alphabet : List Symbol) (rows : List Row) : Automaton :=
  rows.foldl addRow ((ofStart start).addSymbols alphabet)

/-! ## 5. Fresh names -/

/-- The first of the names `candidate 0`, `candidate 1`, … that is not in the list. If the
candidates differ, one of the first `taken.length + 1` is free. -/
def firstFree (taken : List StateName) (candidate : Nat → StateName) : StateName :=
  candidate (((List.range taken.length).find? fun i => candidate i ∉ taken).getD taken.length)

/-- A name that no state of the automaton has: the given one, followed by as many primes as
needed. -/
def freshName (a : Automaton) (base : StateName) : StateName :=
  firstFree a.stateNames fun i => base ++ String.ofList (List.replicate i '\'')

end Automaton

/-! ## 6. Pruning -/

/-- The row of a state in a transition table, with its targets renamed. -/
def State.row (s : State) (rename : StateName → StateName) : Automaton.Row where
  name := s.name
  accepting := s.accepting
  edges := s.edges.map fun e => (e.1, rename e.2)

namespace Automaton

/-- The states that paths from the start lead to. Each but the start is the target of a move, so
there are at most as many as moves, and one. -/
def reachableStates (a : Automaton) : OrderedSet StateName :=
  explore (fun name => (a.edgesOf name).map Prod.snd) (1 + a.transitionCount) [a.start]

/-- The automaton without the states that no path from the start leads to. -/
def reachable (a : Automaton) : Automaton :=
  let reached := a.reachableStates
  ofRows a.start a.alphabet.toList
    ((a.states.values.filter fun s => s.name ∈ reached).map fun s => s.row id)

/-! ## 7. Reversal -/

/-- The reversed moves in order. -/
def reversedMoves (a : Automaton) : List (StateName × StateName × Label) :=
  a.states.values.flatMap fun s => s.edges.map fun e => (e.2, s.name, e.1)

/-- The automaton that reads the words of this one backwards. A fresh start leads by epsilon moves
to the accepting states, and the old start is the only accepting state. -/
def reverse (a : Automaton) : Automaton :=
  let start := a.freshName "start"
  let bare := a.stateNames.foldl addState ((ofStart start).addSymbols a.alphabet.toList)
  let marked := bare.mark a.start true
  let turned := a.reversedMoves.foldl (fun b m => b.connect m.1 m.2.1 m.2.2) marked
  turned.addEdges start (a.accepting.toList.map fun name => (.epsilon, name))

end Automaton

end RegularLanguages
