import RegularLanguages.Automaton.Determinization

/-!
# Minimization by double reversal

Reversing all moves, determinizing and pruning gives a deterministic automaton for the reversed
words; doing so twice gives the smallest one for the words themselves.

* `isPureEntry` -- a state that does nothing but fan out, so that no later set of states can
  contain it;
* `determinizeFromEntry` -- the subset construction without such a start, states named by number;
* `doubleReversal` -- reversal and determinization, twice.
-/

namespace RegularLanguages.Automaton

/-! ## 1. Determinization from an entry -/

/-- Whether a state does not accept, has epsilon moves only, and is the target of no move. -/
def isPureEntry (a : Automaton) (name : StateName) : Bool :=
  match a.state? name with
  | none => false
  | some entry =>
    !entry.accepting && entry.edges.all (fun e => e.1 = .epsilon) &&
      a.states.values.all fun s => s.edges.all fun e => e.2 ≠ name

/-- The set of states that a determinization starts from: the initial one, without the start if
that is only an entry. -/
def entrySet (a : Automaton) : StateSet :=
  if a.isPureEntry a.start then a.initialSet.erase a.start else a.initialSet

/-- The deterministic automaton of the sets met from the entry, named `d0`, `d1`, … as they are
met. -/
def determinizeFromEntry (a : Automaton) : Automaton :=
  a.subsetAutomaton a.entrySet fun _ n => "d" ++ toString n

/-! ## 2. Twice -/

/-- The deterministic automaton of the reversed words, pruned. -/
def reverseDeterminized (a : Automaton) : Automaton := a.reverse.determinizeFromEntry.reachable

/-- The smallest deterministic automaton of the words of this one. -/
def doubleReversal (a : Automaton) : Automaton := a.reverseDeterminized.reverseDeterminized

end RegularLanguages.Automaton
