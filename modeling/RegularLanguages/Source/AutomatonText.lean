import RegularLanguages.Automaton.Description
import RegularLanguages.Source.Tokenization

/-!
# Reading descriptions of automata

A description of an automaton reads

    dfa
    states s0 s1 end;
    initial s0
    accept s1 end;
    transitions
      s0 'a 'b --> s1
    end;
    alphabet 'a 'b end;

where `nfa` may stand for `dfa`, which makes no difference, and every semicolon may be left out.
The reader goes through the tokens once and always knows what may come next.

* `Place` -- the places of a description between two tokens, and what each expects;
* `Progress.next?` -- what one token adds;
* `Automaton.Description.parse` -- the description that a text states, or the first token that is
  out of place.
-/

namespace RegularLanguages.Source.AutomatonText

open Automaton (Description)

/-! ## 1. Places -/

/-- A place in a description. -/
inductive Place where
  | kind
  | statesKeyword
  | stateNames
  | initialKeyword
  | initialName
  | acceptKeyword
  | acceptNames
  | transitionsKeyword
  /-- Before a transition or the end of all. -/
  | transition
  /-- Behind the source of a transition. -/
  | firstSymbol (source : StateName)
  /-- Behind some symbols of a transition. -/
  | symbols (source : StateName) (symbols : List Symbol)
  /-- Behind the arrow of a transition. -/
  | target (source : StateName) (symbols : List Symbol)
  | alphabetKeyword
  | alphabetSymbols
  /-- Behind the whole description. -/
  | done
  deriving DecidableEq

/-- What has to come at a place. -/
def Place.expected : Place → Expected
  | .kind => .kind
  | .statesKeyword => .keyword "states"
  | .stateNames => .stateName
  | .initialKeyword => .keyword "initial"
  | .initialName => .initialState
  | .acceptKeyword => .keyword "accept"
  | .acceptNames => .stateName
  | .transitionsKeyword => .keyword "transitions"
  | .transition => .stateName
  | .firstSymbol _ => .symbol
  | .symbols _ _ => .arrow
  | .target _ _ => .stateName
  | .alphabetKeyword => .keyword "alphabet"
  | .alphabetSymbols => .symbol
  | .done => .endOfInput

/-! ## 2. Going on -/

/-- A place, whether a semicolon may still come there, and what has been described so far. -/
structure Progress where
  place : Place
  semicolon : Bool
  soFar : Description

/-- Before the first token. -/
def Progress.start : Progress := ⟨.kind, false, ⟨[], "", [], [], []⟩⟩

/-- The progress that a token other than the semicolon makes from a place. -/
def advance (place : Place) (d : Description) (t : Token) : Option Progress :=
  match place, t with
  | .kind, .word w => if w = "dfa" ∨ w = "nfa" then some ⟨.statesKeyword, false, d⟩ else none
  | .statesKeyword, .word w => if w = "states" then some ⟨.stateNames, false, d⟩ else none
  | .stateNames, .word w =>
    if w = "end" then some ⟨.initialKeyword, true, d⟩
    else some ⟨.stateNames, false, { d with states := d.states ++ [w] }⟩
  | .initialKeyword, .word w => if w = "initial" then some ⟨.initialName, false, d⟩ else none
  | .initialName, .word w => some ⟨.acceptKeyword, false, { d with start := w }⟩
  | .acceptKeyword, .word w => if w = "accept" then some ⟨.acceptNames, false, d⟩ else none
  | .acceptNames, .word w =>
    if w = "end" then some ⟨.transitionsKeyword, true, d⟩
    else some ⟨.acceptNames, false, { d with accepting := d.accepting ++ [w] }⟩
  | .transitionsKeyword, .word w => if w = "transitions" then some ⟨.transition, false, d⟩ else none
  | .transition, .word w =>
    if w = "end" then some ⟨.alphabetKeyword, true, d⟩ else some ⟨.firstSymbol w, false, d⟩
  | .firstSymbol source, .symbol c => some ⟨.symbols source [c], false, d⟩
  | .symbols source cs, .symbol c => some ⟨.symbols source (cs ++ [c]), false, d⟩
  | .symbols source cs, .arrow => some ⟨.target source cs, false, d⟩
  | .target source cs, .word w =>
    some ⟨.transition, false, { d with transitions := d.transitions ++ [(source, cs, w)] }⟩
  | .alphabetKeyword, .word w => if w = "alphabet" then some ⟨.alphabetSymbols, false, d⟩ else none
  | .alphabetSymbols, .symbol c =>
    some ⟨.alphabetSymbols, false, { d with alphabet := d.alphabet ++ [c] }⟩
  | .alphabetSymbols, .word w => if w = "end" then some ⟨.done, true, d⟩ else none
  | _, _ => none

/-- The progress that a token makes, if it may come. -/
def Progress.next? (p : Progress) (t : Token) : Option Progress :=
  if p.semicolon ∧ t = .semicolon then some { p with semicolon := false }
  else advance p.place p.soFar t

/-- The progress that a token makes, or the complaint about it. -/
def Progress.step (p : Progress) (t : Located) : Except Error Progress :=
  match p.next? t.token with
  | some q => .ok q
  | none => .error (t.unexpected p.place.expected)

/-- The description, if it is complete. -/
def Progress.finish (p : Progress) : Except Error Description :=
  if p.place = .done then .ok p.soFar else .error (.unexpectedEnd p.place.expected)

/-- The description that a list of tokens states. -/
def read (ts : List Located) : Except Error Description := do
  let p ← ts.foldlM Progress.step Progress.start
  p.finish

end AutomatonText

end RegularLanguages.Source

namespace RegularLanguages.Automaton

/-- The description that a text states. -/
def Description.parse (text : String) : Except Source.Error Description := do
  let tokens ← Source.tokenize text
  Source.AutomatonText.read tokens

end RegularLanguages.Automaton
