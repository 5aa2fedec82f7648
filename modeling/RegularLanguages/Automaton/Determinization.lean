import RegularLanguages.Automaton.Construction
import RegularLanguages.Automaton.StateSet

/-!
# The subset construction

From any automaton a deterministic one for the same language. Its states stand for the non-empty
sets of states in which runs may be after the same word.

* `subsets` -- the sets that are met, in breadth-first order, symbols in the order of the
  alphabet;
* `variant`, `distinctName` -- a proposal that is taken gets the first free numeric suffix;
* `nameSets` -- a name for each of the sets;
* `subsetAutomaton` -- the automaton of these sets, `determinize` the one that starts from the
  closure of the start and joins the members of a set to its name;
* `Met`, `IsPowerset` -- what determinizing an automaton has to yield, without reference to how sets
  are searched or named: an automaton whose states are the names of the sets that are met, one name
  for each, and whose moves and marks are those of the sets.
-/

namespace RegularLanguages.Automaton

/-! ## 1. The construction -/

/-- The non-empty sets that one symbol leads to. -/
def nextSets (a : Automaton) (s : StateSet) : List StateSet :=
  (a.alphabet.toList.map (a.next s)).filter fun t => !t.isEmpty

/-- The sets that words lead to from an initial one. Apart from that one, they consist of targets
of moves, which bounds their number. -/
def subsets (a : Automaton) (initial : StateSet) : OrderedSet StateSet :=
  explore a.nextSets (1 + Nat.pow 2 a.transitionCount) [initial]

/-- What a proposed name may become, in the order in which it is tried: the name itself, and its
numbered variants. -/
def variant (proposal : StateName) (i : Nat) : StateName :=
  if i = 0 then proposal else proposal ++ "." ++ toString i

/-- A name like the proposed one that is not taken: the name itself, or the first of its numbered
variants. -/
def distinctName (taken : List StateName) (proposal : StateName) : StateName :=
  firstFree taken (variant proposal)

/-- Gives each set of a list a name of its own. A proposal is made from the set and from how many
are named before it. -/
def nameSets (proposal : StateSet → Nat → StateName) (sets : List StateSet) :
    OrderedMap StateSet StateName :=
  sets.foldl (fun names s => names.insert s (distinctName names.values (proposal s names.size))) ∅

/-- The row of a set: the moves to non-empty sets, by symbol. -/
def setRow (a : Automaton) (names : OrderedMap StateSet StateName)
    (e : StateSet × StateName) : Row where
  name := e.2
  accepting := a.anyAccepting e.1
  edges := a.alphabet.toList.filterMap fun c =>
    let target := a.next e.1 c
    if target.isEmpty then none else (names.get? target).map fun name => (.symbol c, name)

/-- The automaton of the sets that words lead to from an initial one, with names made from
proposals. -/
def subsetAutomaton (a : Automaton) (initial : StateSet)
    (proposal : StateSet → Nat → StateName) : Automaton :=
  let names := nameSets proposal (a.subsets initial).toList
  let start := (names.get? initial).getD (proposal initial 0)
  ofRows start a.alphabet.toList (names.entries.map (a.setRow names))

/-- The deterministic automaton whose states are named by their joined members. -/
def determinize (a : Automaton) : Automaton :=
  a.subsetAutomaton a.initialSet fun s _ => s.joined

/-! ## 2. The powerset automaton -/

/-- The sets that are met from the closure of the start, one symbol after the other. The empty set
is none of them. -/
inductive Met (a : Automaton) : StateSet → Prop where
  /-- Before anything is read, a run may be in the closure of the start. -/
  | initial : Met a (a.closure (.ofList [a.start]))
  /-- A symbol leads to the closure of what its moves lead to, unless that is empty. -/
  | next {s : StateSet} (h : Met a s) (c : Symbol)
    (hne : (a.closure (a.move s c)).isEmpty = false) : Met a (a.closure (a.move s c))

/-- An automaton is the powerset automaton of another one, under a naming of sets, if its states,
moves and marks are those of the sets that are met. -/
structure IsPowerset (a b : Automaton) (name : StateSet → StateName) : Prop where
  /-- The states are the names of the sets that are met. -/
  mem_states_iff : ∀ n, n ∈ b.states ↔ ∃ s, a.Met s ∧ n = name s
  /-- Different sets have different names. -/
  injective : ∀ s t, a.Met s → a.Met t → name s = name t → s = t
  /-- The start stands for the closure of the start. -/
  start : b.start = name (a.closure (.ofList [a.start]))
  /-- A state accepts if a member of its set does. -/
  accepting : ∀ s, a.Met s → (b.isAccepting (name s) = true ↔ ∃ q ∈ s, a.isAccepting q = true)
  /-- A symbol leads to the closure of what its moves lead to. There is no move to the empty set,
  and none that reads nothing. -/
  moves : ∀ s, a.Met s → ∀ l n, n ∈ b.successors (name s) l ↔ ∃ c, l = .symbol c ∧
    (a.closure (a.move s c)).isEmpty = false ∧ n = name (a.closure (a.move s c))

end RegularLanguages.Automaton
