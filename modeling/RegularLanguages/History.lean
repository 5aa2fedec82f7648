import RegularLanguages.Automaton.Description
import RegularLanguages.Automaton.Thompson
import RegularLanguages.Minimization.DoubleReversal
import RegularLanguages.Minimization.Refinement

/-!
# Histories

How automata come about: the operations of this library as values, and the automata that some
sequence of them leads to.

* `Edit` -- the operations by which a caller changes an automaton, with `Edit.apply` for what they
  make of it and `Edit.perform` for what they do to an automaton in place;
* `Transformation` -- the constructions that make an automaton from an automaton, and `derive` for
  several of them in a row;
* `Built` -- what starts from a state, a description or an expression and goes on with these, also
  after calls that were refused.
-/

namespace RegularLanguages.Automaton

/-- An operation by which a caller changes an automaton. -/
inductive Edit where
  | addState (name : StateName)
  | addSymbol (c : Symbol)
  | addTransition (source target : StateName) (l : Label)
  | setStart (name : StateName)
  | setAccepting (name : StateName) (flag : Bool)
  deriving DecidableEq

/-- What an operation makes of an automaton, or why it is refused. -/
def Edit.apply (a : Automaton) : Edit → Except Error Automaton
  | .addState name => .ok (a.addState name)
  | .addSymbol c => .ok (a.addSymbol c)
  | .addTransition source target l => a.addTransition source target l
  | .setStart name => a.setStart name
  | .setAccepting name flag => a.setAccepting name flag

/-- Refuses the name of a state that the automaton in place does not have. -/
def requireState (name : StateName) : EStateM Error Automaton Unit := do
  if name ∉ (← get).states then throw (.unknownState name)

/-- An operation as a sequence of steps on an automaton in place. A step that refuses does not take
back what the steps before it did. -/
def Edit.perform : Edit → EStateM Error Automaton Unit
  | .addState name => modify (·.addState name)
  | .addSymbol c => modify (·.addSymbol c)
  | .addTransition source target l => do
    [source, target].forM requireState
    modify (·.connect source target l)
  | .setStart name => do
    requireState name
    modify fun a => { a with start := name }
  | .setAccepting name flag => do
    requireState name
    modify (·.mark name flag)

/-- The states that an operation needs, in the order in which it looks them up. -/
def Edit.required : Edit → List StateName
  | .addState _ => []
  | .addSymbol _ => []
  | .addTransition source target _ => [source, target]
  | .setStart name => [name]
  | .setAccepting name _ => [name]

/-- A construction that makes an automaton from an automaton. -/
inductive Transformation where
  | determinize
  | reachable
  | reverse
  | determinizeFromEntry
  | partitionRefinement
  | doubleReversal
  deriving DecidableEq

/-- The automaton that a construction makes. -/
def Transformation.apply (a : Automaton) : Transformation → Automaton
  | .determinize => a.determinize
  | .reachable => a.reachable
  | .reverse => a.reverse
  | .determinizeFromEntry => a.determinizeFromEntry
  | .partitionRefinement => a.partitionRefinement
  | .doubleReversal => a.doubleReversal

/-- The automaton that some constructions make, one after the other. -/
def derive (a : Automaton) (ts : List Transformation) : Automaton :=
  ts.foldl (fun b t => t.apply b) a

/-- The automata that operations of this library lead to. -/
inductive Built : Automaton → Prop where
  | start (name : StateName) : Built (ofStart name)
  | description {d : Description} {a : Automaton} (h : ofDescription d = .ok a) : Built a
  | regex (e : Regex) (n : Nat) : Built (fromRegex e n).1
  | call {a b : Automaton} (e : Edit) (ha : Built a) (h : e.perform a = .ok () b) : Built b
  | refused {a b : Automaton} (e : Edit) {error : Error} (ha : Built a)
    (h : e.perform a = .error error b) : Built b
  | transform {a : Automaton} (t : Transformation) (ha : Built a) : Built (t.apply a)

end RegularLanguages.Automaton
