import RegularLanguages.Automaton.LinearSystem
import RegularLanguages.Automaton.Thompson
import RegularLanguages.Minimization.DoubleReversal
import RegularLanguages.Minimization.Refinement

/-!
# From expressions to automata and back

* `Strategy` -- the two minimizations. They differ in the names of the states, and in which states
  are kept from which nothing is accepted;
* `Options` -- what may be chosen on the way;
* `Regex.compile` -- the deterministic automaton of an expression, minimized unless that is
  switched off;
* `Automaton.decompile` -- the expression of an automaton, simplified unless that is switched off.
-/

namespace RegularLanguages

/-! ## 1. The choice of a minimization -/

/-- How an automaton is minimized. -/
inductive Strategy where
  /-- By refining a partition of its states. -/
  | partition
  /-- By reversing it twice. -/
  | reversal
  deriving DecidableEq, Inhabited

/-- The name of a strategy. -/
def Strategy.name : Strategy → String
  | .partition => "partition"
  | .reversal => "reversal"

/-- The strategy of a name. -/
def Strategy.ofName? : String → Option Strategy
  | "partition" => some .partition
  | "reversal" => some .reversal
  | _ => none

/-- **A name is that of the strategy that it stands for**, and no other name stands for one. -/
theorem Strategy.ofName?_eq_some_iff {name : String} {s : Strategy} :
    ofName? name = some s ↔ name = s.name := by
  constructor
  · intro h
    unfold ofName? at h
    split at h
    · cases h
      rfl
    · cases h
      rfl
    · cases h
  · intro h
    subst h
    cases s
    · rfl
    · rfl

/-- The automaton minimized by a strategy. -/
def Automaton.minimize (a : Automaton) : Strategy → Automaton
  | .partition => a.partitionRefinement
  | .reversal => a.doubleReversal

/-! ## 2. The ways -/

/-- What may be chosen when expressions and automata are turned into each other. -/
structure Options where
  /-- How automata are minimized. -/
  strategy : Strategy := .partition
  /-- Whether the automaton of an expression is minimized. -/
  minimize : Bool := true
  /-- Whether the expression of an automaton is simplified. -/
  simplify : Bool := true

/-- The deterministic automaton of an expression. -/
def Regex.compile (e : Regex) (options : Options) : Automaton :=
  let deterministic := (Automaton.ofRegex e).determinize
  if options.minimize then deterministic.minimize options.strategy else deterministic

/-- The expression of an automaton. -/
def Automaton.decompile (a : Automaton) (options : Options) : Regex :=
  if options.simplify then a.toRegex else a.toRegexRaw

end RegularLanguages
