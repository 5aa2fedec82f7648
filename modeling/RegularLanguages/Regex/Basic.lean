import RegularLanguages.Ordered.Set
import RegularLanguages.Symbol

/-!
# Regular expressions

The expressions over symbols that all constructions of this library start from or end in.

* `Regex` -- the six forms;
* `Regex.word` -- the expression that matches one given word;
* `size`, `leaves`, `children` -- its measure, the symbols at its leaves and its direct
  subexpressions;
* `symbols` -- its symbols in order of first occurrence, found with a stack of expressions that are
  still to be looked at.
-/

namespace RegularLanguages

/-! ## 1. Expressions -/

/-- A regular expression. -/
inductive Regex where
  /-- Matches exactly the given symbol. -/
  | symbol (c : Symbol)
  /-- Matches a word of the left expression followed by one of the right expression. -/
  | concat (left right : Regex)
  /-- Matches what either side matches. -/
  | alt (left right : Regex)
  /-- Matches any number of words of the inner expression, one behind the other. -/
  | star (inner : Regex)
  /-- Matches only the empty word. -/
  | nil
  /-- Matches no word. -/
  | empty
  deriving DecidableEq, Inhabited

namespace Regex

/-- The expression that matches one word: its symbols, concatenated to the right. -/
def word : Word → Regex
  | [] => .nil
  | [c] => .symbol c
  | c :: w => .concat (.symbol c) (word w)

/-- The number of nodes of the syntax tree. -/
def size : Regex → Nat
  | .concat l r | .alt l r => 1 + l.size + r.size
  | .star e => 1 + e.size
  | .symbol _ | .nil | .empty => 1

/-- The symbols at the leaves, from left to right. -/
def leaves : Regex → List Symbol
  | .symbol c => [c]
  | .concat l r | .alt l r => l.leaves ++ r.leaves
  | .star e => e.leaves
  | .nil | .empty => []

/-- The direct subexpressions, from left to right. -/
def children : Regex → List Regex
  | .concat l r | .alt l r => [l, r]
  | .star e => [e]
  | .symbol _ | .nil | .empty => []

/-! ## 2. Collecting symbols -/

/-- The number of nodes of all expressions on a stack. -/
def stackSize : List Regex → Nat
  | [] => 0
  | e :: stack => e.size + stackSize stack

/-- The symbols of the expressions on a stack, behind those that have been found. The expression on
top is taken off; it is a symbol, or its direct subexpressions are put on the stack, the left one on
top. -/
def collect (stack : List Regex) (found : OrderedSet Symbol) : OrderedSet Symbol :=
  match stack with
  | [] => found
  | .symbol c :: rest => collect rest (found.insert c)
  | .concat l r :: rest | .alt l r :: rest => collect (l :: r :: rest) found
  | .star e :: rest => collect (e :: rest) found
  | .nil :: rest | .empty :: rest => collect rest found
termination_by stackSize stack
decreasing_by
  all_goals
    simp only [stackSize, size]
    omega

/-- The symbols of an expression in order of first occurrence. -/
def symbols (e : Regex) : OrderedSet Symbol := collect [e] ∅

end Regex

end RegularLanguages
