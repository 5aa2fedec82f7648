import RegularLanguages.Automaton.LinearSystem

/-!
# Elimination in place

The equations of an automaton as a table of coefficients and a column of constants. Eliminating an
unknown works on the cells themselves: an expression is taken out of its cell, which is left empty,
and what is made of it is put into a cell again.

* `Tableau` -- the cells, with `takeCoefficient`, `putCoefficient`, … for access to one of them;
* `Tableau.free`, `Tableau.substitute` -- the two parts of eliminating an unknown;
* `Tableau.eliminateDown` -- one unknown after the other, the one with the highest number first;
* `Automaton.tableau` -- the cells of an automaton, in which the start has the number 0;
* `Automaton.eliminated` -- these cells when some of the unknowns are eliminated.
-/

namespace RegularLanguages

/-! ## 1. Cells -/

/-- The cells of a linear system whose unknowns are numbered. -/
structure Tableau where
  /-- The coefficient, in the equation of the first unknown, of the second one. -/
  coefficient : Nat → Nat → Regex
  /-- The constant in the equation of an unknown. -/
  constant : Nat → Regex

namespace Tableau

/-- The cells with one coefficient replaced. -/
def setCoefficient (t : Tableau) (i j : Nat) (e : Regex) : Tableau :=
  { t with coefficient := fun i' j' => if i' = i ∧ j' = j then e else t.coefficient i' j' }

/-- The cells with one constant replaced. -/
def setConstant (t : Tableau) (i : Nat) (e : Regex) : Tableau :=
  { t with constant := fun i' => if i' = i then e else t.constant i' }

/-- Takes a coefficient out of its cell and leaves `empty` there. -/
def takeCoefficient (i j : Nat) : StateM Tableau Regex :=
  modifyGet fun t => (t.coefficient i j, t.setCoefficient i j .empty)

/-- Takes a constant out of its cell and leaves `empty` there. -/
def takeConstant (i : Nat) : StateM Tableau Regex :=
  modifyGet fun t => (t.constant i, t.setConstant i .empty)

/-- Puts a coefficient into a cell. -/
def putCoefficient (i j : Nat) (e : Regex) : StateM Tableau Unit := modify (·.setCoefficient i j e)

/-- Puts a constant into a cell. -/
def putConstant (i : Nat) (e : Regex) : StateM Tableau Unit := modify (·.setConstant i e)

/-! ## 2. Elimination -/

/-- Solves the equation of an unknown for it: the repetition of its own coefficient comes in front
of the constant and of the coefficients of the unknowns before it. -/
def free (k : Nat) : StateM Tableau Unit := do
  let own ← takeCoefficient k k
  if own ≠ .empty then
    putConstant k (own.repetition.sequence (← takeConstant k))
    (List.range k).forM fun j => do
      putCoefficient k j (own.repetition.sequence (← takeCoefficient k j))

/-- Replaces an unknown, in the equation of another one, by what its own equation says. -/
def substitute (k i : Nat) : StateM Tableau Unit := do
  let via ← takeCoefficient i k
  if via ≠ .empty then
    let direct ← takeConstant i
    putConstant i (direct.choice (via.sequence ((← get).constant k)))
    (List.range k).forM fun j => do
      let onward := (← get).coefficient k j
      if onward ≠ .empty then
        putCoefficient i j ((← takeCoefficient i j).choice (via.sequence onward))

/-- Eliminates an unknown from the equations of all unknowns before it. -/
def eliminate (k : Nat) : StateM Tableau Unit := do
  free k
  (List.range k).forM (substitute k)

/-- Eliminates the unknowns from `n - 1` down to `m`. -/
def eliminateDown (n m : Nat) : StateM Tableau Unit :=
  (List.range' m (n - m)).reverse.forM eliminate

end Tableau

/-! ## 3. The cells of an automaton -/

namespace Automaton

/-- The unknowns by number: the start first and the other states in their order. -/
def numbering (a : Automaton) : List StateName :=
  a.start :: a.stateNames.filter (· ≠ a.start)

/-- The unknown of a number. -/
def unknownAt (a : Automaton) (i : Nat) : StateName := a.numbering.getD i a.start

/-- The cells of the equations. -/
def tableau (a : Automaton) : Tableau where
  coefficient i j :=
    if i < a.numbering.length ∧ j < a.numbering.length then
      a.symbolsTo (a.unknownAt i) (a.unknownAt j)
    else .empty
  constant i :=
    if i < a.numbering.length ∧ a.isAccepting (a.unknownAt i) = true then .nil else .empty

/-- The cells when all unknowns from the given one on are eliminated. -/
def eliminated (a : Automaton) (m : Nat) : Tableau :=
  ((Tableau.eliminateDown a.numbering.length m).run a.tableau).2

end Automaton

end RegularLanguages
