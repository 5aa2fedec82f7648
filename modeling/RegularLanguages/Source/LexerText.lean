import RegularLanguages.Lexer.Basic

/-!
# Reading descriptions of lexers

A description of a lexer reads

    language words
    alphabet 'a 'b ' end;
    class word is + 'a * 'b relevant end;
    class space is ' discard end;
    end;

where every semicolon may be left out. Behind `is` come the nodes of an expression; the first word
there that is no node has to be a relevance. Whether the nodes make an expression is not asked
here.

* `Place` -- the places of a description between two tokens, and what each expects;
* `Progress.step` -- what one token adds;
* `Lexer.Description.parse` -- the description that a text states, or the first token that is out
  of place.
-/

namespace RegularLanguages.Source.LexerText

open Lexer (Description)

/-! ## 1. Places -/

/-- A place in a description. -/
inductive Place where
  | languageKeyword
  | languageName
  | alphabetKeyword
  | alphabetSymbols
  /-- Before a class or the end of all. -/
  | classKeyword
  | className
  | isKeyword (name : String)
  /-- Behind some nodes of the expression of a class. -/
  | regex (name : String) (tokens : List Regex.Token)
  | classEnd
  /-- Behind the whole description. -/
  | done
  deriving DecidableEq

/-- What has to come at a place. -/
def Place.expected : Place → Expected
  | .languageKeyword => .keyword "language"
  | .languageName => .languageName
  | .alphabetKeyword => .keyword "alphabet"
  | .alphabetSymbols => .symbol
  | .classKeyword => .keyword "class"
  | .className => .className
  | .isKeyword _ => .keyword "is"
  | .regex _ _ => .regexOrRelevance
  | .classEnd => .keyword "end"
  | .done => .endOfInput

/-! ## 2. Going on -/

/-- A place, whether a semicolon may still come there, and what has been described so far. -/
structure Progress where
  place : Place
  semicolon : Bool
  soFar : Description

/-- Before the first token. -/
def Progress.start : Progress := ⟨.languageKeyword, false, ⟨"", [], []⟩⟩

/-- The progress that a token makes behind some nodes of an expression: it is a further node, or
the relevance of the class. -/
def advanceRegex (name : String) (nodes : List Regex.Token) (d : Description) (t : Token) :
    Option Progress :=
  match t.regexToken? with
  | some node => some ⟨.regex name (nodes ++ [node]), false, d⟩
  | none =>
    match t with
    | .word w => (Relevance.ofName? w).map fun r =>
      ⟨.classEnd, false, { d with classes := d.classes ++ [⟨name, nodes, r⟩] }⟩
    | _ => none

/-- The progress that a token other than the semicolon makes from a place. -/
def advance (place : Place) (d : Description) (t : Token) : Option Progress :=
  match place, t with
  | .languageKeyword, .word w => if w = "language" then some ⟨.languageName, false, d⟩ else none
  | .languageName, .word w => some ⟨.alphabetKeyword, false, { d with name := w }⟩
  | .alphabetKeyword, .word w => if w = "alphabet" then some ⟨.alphabetSymbols, false, d⟩ else none
  | .alphabetSymbols, .symbol c =>
    some ⟨.alphabetSymbols, false, { d with alphabet := d.alphabet ++ [c] }⟩
  | .alphabetSymbols, .word w => if w = "end" then some ⟨.classKeyword, true, d⟩ else none
  | .classKeyword, .word w =>
    if w = "end" then some ⟨.done, true, d⟩
    else if w = "class" then some ⟨.className, false, d⟩
    else none
  | .className, .word w => some ⟨.isKeyword w, false, d⟩
  | .isKeyword name, .word w => if w = "is" then some ⟨.regex name [], false, d⟩ else none
  | .regex name nodes, t => advanceRegex name nodes d t
  | .classEnd, .word w => if w = "end" then some ⟨.classKeyword, true, d⟩ else none
  | _, _ => none

/-- The progress that a token makes, if it may come. -/
def Progress.next? (p : Progress) (t : Token) : Option Progress :=
  if p.semicolon ∧ t = .semicolon then some { p with semicolon := false }
  else advance p.place p.soFar t

/-- The complaint about a token that may not come. A word behind the nodes of an expression was
meant as a relevance. -/
def Place.complaint (place : Place) (t : Located) : Error :=
  match place, t.token with
  | .regex _ _, .word w => .unknownRelevance w
  | _, _ => t.unexpected place.expected

/-- The progress that a token makes, or the complaint about it. -/
def Progress.step (p : Progress) (t : Located) : Except Error Progress :=
  match p.next? t.token with
  | some q => .ok q
  | none => .error (p.place.complaint t)

/-- The description, if it is complete. -/
def Progress.finish (p : Progress) : Except Error Description :=
  if p.place = .done then .ok p.soFar else .error (.unexpectedEnd p.place.expected)

/-- The description that a list of tokens states. -/
def read (ts : List Located) : Except Error Description := do
  let p ← ts.foldlM Progress.step Progress.start
  p.finish

end LexerText

end RegularLanguages.Source

namespace RegularLanguages.Lexer

/-- The description that a text states. -/
def Description.parse (text : String) : Except Source.Error Description := do
  let tokens ← Source.tokenize text
  Source.LexerText.read tokens

end RegularLanguages.Lexer
