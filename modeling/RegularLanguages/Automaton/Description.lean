import RegularLanguages.Automaton.Construction
import RegularLanguages.Ordered.Grouping

/-!
# Descriptions of automata

A description lists the parts of an automaton by name, as a text or a program states them; nothing
in it is checked. The symbol U+0000 on a transition stands for epsilon.

* `Description` -- the five lists;
* `ofDescription` -- the automaton described, or the first thing that is wrong: the start is
  checked first, then the alphabet, then the accepting states in order, then the transitions
  symbol by symbol;
* `render` -- the text of an automaton, a description that can be read back: its kind, its states,
  start, accepting states, transitions and alphabet. The moves of a state are gathered by target, in
  the order in which the targets first occur, and epsilon is written as the spelling of U+0000.
-/

namespace RegularLanguages

namespace Automaton

/-! ## 1. What is described -/

/-- The parts of an automaton as they are written down, in order and with repetitions. -/
structure Description where
  /-- The names of the states. -/
  states : List StateName
  /-- The name of the start. -/
  start : StateName
  /-- The names of the accepting states. -/
  accepting : List StateName
  /-- Transitions: a source, the symbols read, a target. -/
  transitions : List (StateName × List Symbol × StateName)
  /-- The symbols of the alphabet. -/
  alphabet : List Symbol
  deriving DecidableEq, Inhabited

/-- The label that a symbol of a described transition stands for. -/
def Description.label? (d : Description) (c : Symbol) : Except Error Label :=
  if c = epsilonSymbol then .ok .epsilon
  else if c ∈ d.alphabet then .ok (.symbol c)
  else .error (.undeclaredSymbol c)

/-- The transitions of a description, one for each symbol. -/
def Description.singleTransitions (d : Description) : List (StateName × Symbol × StateName) :=
  d.transitions.flatMap fun t => t.2.1.map fun c => (t.1, c, t.2.2)

/-- Adds one described transition. An undeclared symbol counts before an unknown state. -/
def addDescribed (d : Description) (a : Automaton) (t : StateName × Symbol × StateName) :
    Except Error Automaton :=
  match d.label? t.2.1 with
  | .ok l => a.addTransition t.1 t.2.2 l
  | .error e => .error e

/-- The automaton that a description stands for. The start becomes the first state. -/
def ofDescription (d : Description) : Except Error Automaton :=
  if d.start ∉ d.states then .error (.unknownState d.start)
  else if epsilonSymbol ∈ d.alphabet then .error (.undeclaredSymbol epsilonSymbol)
  else do
    let bare := (d.states.foldl addState (ofStart d.start)).addSymbols d.alphabet
    let marked ← d.accepting.foldlM (fun a name => a.setAccepting name true) bare
    d.singleTransitions.foldlM (addDescribed d) marked

end Automaton

/-! ## 2. Printing -/

/-- The moves of a state gathered by target: each target with the labels that lead to it. -/
def State.labelsByTarget (s : State) : List (StateName × List Label) :=
  (groupBy Prod.snd s.edges).map fun g => (g.1, g.2.map Prod.fst)

namespace Automaton

/-- The words of a list with a space in front of each. -/
def spaced (words : List String) : String := String.join (words.map (" " ++ ·))

/-- The line of one transition. -/
def renderTransition (source target : StateName) (labels : List Label) : String :=
  "  " ++ source ++ spaced (labels.map Label.spelling) ++ " --> " ++ target ++ "\n"

/-- The lines of all transitions of a state. -/
def renderState (s : State) : String :=
  String.join (s.labelsByTarget.map fun e => renderTransition s.name e.1 e.2)

/-- The kind of an automaton, as its description names it. -/
def kind (a : Automaton) : String := if a.isDeterministic then "dfa" else "nfa"

/-- The description of an automaton. It has no line feed at its end. -/
def render (a : Automaton) : String :=
  a.kind ++ "\n" ++
  "states" ++ spaced a.stateNames ++ " end;\n" ++
  "initial " ++ a.start ++ "\n" ++
  "accept" ++ spaced a.accepting.toList ++ " end;\n" ++
  "transitions\n" ++
  String.join (a.states.values.map renderState) ++
  "end;\n" ++
  "alphabet" ++ spaced (a.alphabet.toList.map Symbol.spelling) ++ " end;"

end Automaton

end RegularLanguages
