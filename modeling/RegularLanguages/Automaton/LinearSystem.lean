import RegularLanguages.Automaton.Basic
import RegularLanguages.Regex.Simplification

/-!
# Expressions of automata

The words accepted from the states of an automaton without epsilon moves solve a system of linear
equations, one for each state: the words of a state are those of every state `q` behind the
symbols of the moves to `q`, and the empty word if the state accepts. The system is solved by
eliminating one unknown after the other; an unknown that occurs in its own equation is freed by
Arden's lemma, which solves `X = A X | B` by `X = A* B`.

* `Equation` -- the coefficients of the unknowns that are left, and the constant;
* `LinearSystem.solve` -- eliminates the first unknown until one is left;
* `Automaton.linearSystem` -- the equations of an automaton, the last state first and the start
  last;
* `Automaton.toRegexRaw`, `Automaton.toRegex` -- the expression of the start, as it comes and
  simplified.
-/

namespace RegularLanguages

/-! ## 1. Equations -/

/-- The equation of one unknown. -/
structure Equation where
  /-- The coefficients of the unknowns, in the order of the system. -/
  coefficients : List Regex
  /-- What does not depend on an unknown. -/
  constant : Regex
  deriving DecidableEq

/-- Equations for unknowns of the same number and order. -/
abbrev LinearSystem := List Equation

namespace Equation

/-- The equation of the first unknown solved for it: its own coefficient is repeated in front of
everything else. -/
def freed (e : Equation) : Equation :=
  match e.coefficients with
  | [] => e
  | own :: others =>
    if own = .empty then ⟨others, e.constant⟩
    else ⟨others.map (own.repetition.sequence ·), own.repetition.sequence e.constant⟩

/-- A coefficient with a way through the eliminated unknown added, if there is one. -/
def throughFirst (via direct onward : Regex) : Regex :=
  if onward = .empty then direct else direct.choice (via.sequence onward)

/-- An equation with the first unknown replaced by what it was solved to. -/
def substitute (first : Equation) (e : Equation) : Equation :=
  match e.coefficients with
  | [] => e
  | via :: direct =>
    if via = .empty then ⟨direct, e.constant⟩
    else ⟨direct.zipWith (throughFirst via) first.coefficients,
      e.constant.choice (via.sequence first.constant)⟩

end Equation

namespace LinearSystem

/-- The system without its first unknown. -/
def eliminate (first : Equation) (others : LinearSystem) : LinearSystem :=
  others.map (Equation.substitute first.freed)

/-- The solution for the last unknown. -/
def solve : LinearSystem → Regex
  | [] => .empty
  | [e] => e.freed.constant
  | e :: f :: others => solve (eliminate e (f :: others))
termination_by system => system.length
decreasing_by simp [eliminate]

end LinearSystem

/-! ## 2. The equations of an automaton -/

namespace Automaton

/-- The unknowns: all states, the start last and the others before it, the last one declared
first. -/
def unknowns (a : Automaton) : List StateName :=
  (a.stateNames.filter (· ≠ a.start)).reverse ++ [a.start]

/-- The alternative of the symbols on which a state moves to a target. -/
def symbolsTo (a : Automaton) (source target : StateName) : Regex :=
  (a.alphabet.toList.filter fun c => target ∈ a.successors source (.symbol c)).foldl
    (fun e c => e.choice (.symbol c)) .empty

/-- The equation of a state. -/
def equation (a : Automaton) (name : StateName) : Equation where
  coefficients := a.unknowns.map (a.symbolsTo name)
  constant := if a.isAccepting name then .nil else .empty

/-- The equations of all states. -/
def linearSystem (a : Automaton) : LinearSystem := a.unknowns.map a.equation

/-- The expression of an automaton as the elimination leaves it. -/
def toRegexRaw (a : Automaton) : Regex := a.linearSystem.solve

/-- The simplified expression of an automaton. -/
def toRegex (a : Automaton) : Regex := a.toRegexRaw.simplify

end Automaton

end RegularLanguages
