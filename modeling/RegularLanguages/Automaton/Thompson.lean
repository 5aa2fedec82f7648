import RegularLanguages.Automaton.Construction
import RegularLanguages.Regex.Basic

/-!
# Automata of expressions

Thompson's construction: the automaton of an expression is put together from those of its parts.
Each has one accepting state, no move into its start and none out of the accepting state, so two
of them can be joined by epsilon moves.

* `fromRegex` -- the automaton of an expression and the number of state names used up so far;
* `ofRegex`, `ofRegexes` -- for one expression, and for several whose automata share no name.
-/

namespace RegularLanguages.Automaton

/-! ## 1. The parts -/

/-- The names of the states, counted from one. -/
def numberedState (n : Nat) : StateName := "s" ++ toString n

/-- The first of two new names when `n` are used up. -/
def firstNew (n : Nat) : StateName := numberedState (n + 1)

/-- The second of two new names when `n` are used up. -/
def secondNew (n : Nat) : StateName := numberedState (n + 2)

/-- The accepting state of an automaton that has one. -/
def finalState (a : Automaton) : StateName := a.accepting.toList.headD a.start

/-- Two states, the second accepting, with a move between them if a label is given. -/
def segment (start final : StateName) (l : Option Label) : Automaton :=
  let a := ((ofStart start).addState final).mark final true
  match l with
  | some l => a.connect start final l
  | none => a

/-- The second automaton behind the first. -/
def inSequence (left right : Automaton) : Automaton :=
  (((left.adjoin right).connect left.finalState right.start .epsilon)
    |>.mark left.finalState false)
    |>.mark right.finalState true

/-- Both automata side by side, between a new start and a new accepting state. -/
def sideBySide (start final : StateName) (left right : Automaton) : Automaton :=
  let a := ((left.adjoin right).addState start).addState final
  let b := (a.connect start left.start .epsilon).connect start right.start .epsilon
  let c := (b.connect left.finalState final .epsilon).connect right.finalState final .epsilon
  ((c.mark left.finalState false).mark final true).startAt start

/-- The automaton between a new start and a new accepting state, with a way around it and one
back. -/
def looped (start final : StateName) (inner : Automaton) : Automaton :=
  let a := (inner.addState start).addState final
  let b := (a.connect start inner.start .epsilon).connect start final .epsilon
  let c := (b.connect inner.finalState final .epsilon).connect inner.finalState inner.start .epsilon
  ((c.mark inner.finalState false).mark final true).startAt start

/-! ## 2. The construction -/

/-- The automaton of an expression whose states have numbers above the given one, and the highest
of these numbers. -/
def fromRegex : Regex → Nat → Automaton × Nat
  | .symbol c, n => (segment (firstNew n) (secondNew n) (some (.symbol c)), n + 2)
  | .nil, n => (segment (firstNew n) (secondNew n) (some .epsilon), n + 2)
  | .empty, n => (segment (firstNew n) (secondNew n) none, n + 2)
  | .concat l r, n =>
    let left := fromRegex l n
    let right := fromRegex r left.2
    (inSequence left.1 right.1, right.2)
  | .alt l r, n =>
    let left := fromRegex l n
    let right := fromRegex r left.2
    (sideBySide (firstNew right.2) (secondNew right.2) left.1 right.1, right.2 + 2)
  | .star e, n =>
    let inner := fromRegex e n
    (looped (firstNew inner.2) (secondNew inner.2) inner.1, inner.2 + 2)

/-- The automaton of an expression. -/
def ofRegex (e : Regex) : Automaton := (fromRegex e 0).1

/-- The automata of several expressions, whose states are numbered on from one to the next. -/
def ofRegexes (n : Nat) : List Regex → List Automaton
  | [] => []
  | e :: es => (fromRegex e n).1 :: ofRegexes (fromRegex e n).2 es

end RegularLanguages.Automaton
