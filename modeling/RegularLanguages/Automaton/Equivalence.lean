import RegularLanguages.Automaton.Basic

/-!
# When automata agree

There are three senses in which two automata can be the same, each of them weaker than equality.

* `SameLanguage` -- they recognize the same words: those that some path from the start to an
  accepting state spells (`Path`, `Recognizes`);
* `a ≈ b` -- they are the same graph: they agree in everything but the order in which their states,
  symbols and moves were added. This is decidable, for states and for automata;
* `Isomorphic` -- deterministic automata that differ in the names of their states only.
-/

namespace RegularLanguages

/-! ## 1. The same language -/

namespace Automaton

/-- The paths of an automaton. Epsilon moves spell nothing. -/
inductive Path (a : Automaton) : StateName → Word → StateName → Prop where
  | here (p : StateName) : Path a p [] p
  | epsilon {p q r : StateName} {w : Word} (h : q ∈ a.successors p .epsilon) (rest : Path a q w r) :
    Path a p w r
  | symbol {p q r : StateName} {c : Symbol} {w : Word} (h : q ∈ a.successors p (.symbol c))
    (rest : Path a q w r) : Path a p (c :: w) r

/-- A word is recognized from a state if a path from there to an accepting state spells it. -/
def RecognizesFrom (a : Automaton) (p : StateName) (w : Word) : Prop :=
  ∃ q, a.Path p w q ∧ a.isAccepting q = true

/-- A word is recognized if it is recognized from the start. -/
def Recognizes (a : Automaton) (w : Word) : Prop := a.RecognizesFrom a.start w

/-- An automaton is free of epsilon moves if every move reads a symbol. -/
def EpsilonFree (a : Automaton) : Prop := ∀ p, a.successors p .epsilon = []

/-- Two automata recognize the same words. -/
def SameLanguage (a b : Automaton) : Prop := ∀ w, a.Recognizes w ↔ b.Recognizes w

end Automaton

/-! ## 2. The same graph -/

/-- Two states are equivalent if they have the same name, the same mark and the same moves. -/
protected def State.Equiv (s t : State) : Prop :=
  s.name = t.name ∧ s.accepting = t.accepting ∧ s.transitions.EquivBy (· ≈ ·) t.transitions

instance : HasEquiv State := ⟨State.Equiv⟩

instance (s t : State) : Decidable (s ≈ t) :=
  inferInstanceAs (Decidable
    (s.name = t.name ∧ s.accepting = t.accepting ∧ s.transitions.EquivBy (· ≈ ·) t.transitions))

/-- Two automata are equivalent if they have the same start and, in whatever order, the same
accepting states, symbols, states and moves. -/
protected def Automaton.Equiv (a b : Automaton) : Prop :=
  a.start = b.start ∧ a.accepting ≈ b.accepting ∧ a.alphabet ≈ b.alphabet ∧
    a.states.EquivBy (· ≈ ·) b.states

instance : HasEquiv Automaton := ⟨Automaton.Equiv⟩

instance (a b : Automaton) : Decidable (a ≈ b) :=
  inferInstanceAs (Decidable
    (a.start = b.start ∧ a.accepting ≈ b.accepting ∧ a.alphabet ≈ b.alphabet ∧
      a.states.EquivBy (· ≈ ·) b.states))

/-! ## 3. The same up to names -/

namespace Automaton

/-- A renaming that takes the states of one automaton one to one to those of another, the start to
the start, accepting states to accepting states, and moves to moves. -/
structure IsIsomorphism (a b : Automaton) (f : StateName → StateName) : Prop where
  /-- States become states. -/
  mem : ∀ p ∈ a.states, f p ∈ b.states
  /-- Different states become different states. -/
  injective : ∀ p ∈ a.states, ∀ q ∈ a.states, f p = f q → p = q
  /-- Every state comes from one. -/
  surjective : ∀ q ∈ b.states, ∃ p, p ∈ a.states ∧ f p = q
  /-- The start becomes the start. -/
  start : f a.start = b.start
  /-- Accepting states become accepting states, and others do not. -/
  accepting : ∀ p ∈ a.states, b.isAccepting (f p) = a.isAccepting p
  /-- Moves become moves, and missing moves stay missing. -/
  step : ∀ p ∈ a.states, ∀ c, b.step? (f p) c = (a.step? p c).map f

/-- Two automata are isomorphic if some renaming takes one to the other. -/
def Isomorphic (a b : Automaton) : Prop := ∃ f, IsIsomorphism a b f

end Automaton

end RegularLanguages
