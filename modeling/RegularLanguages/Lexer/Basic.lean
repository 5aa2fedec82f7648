import RegularLanguages.Regex.Consumption
import RegularLanguages.Source.Tokenization

/-!
# Lexers

A lexer cuts a text into pieces with an ordered list of classes, each with an expression.

* `Relevance`, `LexicalClass`, `Lexer` -- what a lexer consists of;
* `Lexer.ofClasses`, `Lexer.ofDescription` -- the alphabet is that of the classes, or a declared
  one that they must keep to;
* `Lexer.firstPiece?` -- the class that reads a piece from the front of a text, and the piece;
* `Lexer.Lexeme`, `Lexer.ScanError` -- what a scan consists of, or why it stops.

At every position the first class in order whose expression reads something wins, not the one that
reads most.
-/

namespace RegularLanguages

/-! ## 1. Classes -/

/-- How the pieces of a class are treated. -/
inductive Relevance where
  | relevant
  | irrelevant
  /-- The pieces are dropped. -/
  | discard
  deriving DecidableEq

/-- The word for a relevance. -/
def Relevance.name : Relevance → String
  | .relevant => "relevant"
  | .irrelevant => "irrelevant"
  | .discard => "discard"

/-- The relevance that a word names. -/
def Relevance.ofName? : String → Option Relevance
  | "relevant" => some .relevant
  | "irrelevant" => some .irrelevant
  | "discard" => some .discard
  | _ => none

/-- The relevance that a word names, or the complaint that it names none. -/
def Relevance.parse (word : String) : Except Source.Error Relevance :=
  match Relevance.ofName? word with
  | some r => .ok r
  | none => .error (.unknownRelevance word)

/-- A class of pieces of a text. -/
structure LexicalClass where
  /-- The name of the class. -/
  name : String
  /-- What reads the pieces of the class. -/
  regex : Regex
  /-- How the pieces are treated. -/
  relevance : Relevance
  deriving DecidableEq

/-- A lexer. -/
structure Lexer where
  /-- The name of the language. -/
  name : String
  /-- The symbols that the classes may use. -/
  alphabet : OrderedSet Symbol
  /-- The classes, those that win first. -/
  classes : List LexicalClass

namespace Lexer

/-- The lexer of some classes, over the symbols that they use. -/
def ofClasses (name : String) (classes : List LexicalClass) : Lexer where
  name := name
  alphabet := OrderedSet.ofList (classes.flatMap fun c => c.regex.symbols.toList)
  classes := classes

/-! ## 2. Descriptions -/

/-- A class as it is written down. -/
structure ClassDescription where
  /-- The name of the class. -/
  name : String
  /-- The nodes of its expression. -/
  tokens : List Regex.Token
  /-- How its pieces are treated. -/
  relevance : Relevance
  deriving DecidableEq

/-- The parts of a lexer as they are written down. -/
structure Description where
  /-- The name of the language. -/
  name : String
  /-- The declared symbols. -/
  alphabet : List Symbol
  /-- The classes in order. -/
  classes : List ClassDescription
  deriving DecidableEq

/-- The class of a description. Its nodes must make an expression, all of whose symbols are
declared. -/
def ClassDescription.build (alphabet : List Symbol) (d : ClassDescription) :
    Except Source.Error LexicalClass := do
  let regex ← Source.regexOfTokens d.tokens
  match regex.symbols.toList.find? fun c => c ∉ alphabet with
  | some c => .error (.automaton (.undeclaredSymbol c))
  | none => .ok ⟨d.name, regex, d.relevance⟩

/-- The lexer of a description, or what is wrong with its first faulty class. -/
def ofDescription (d : Description) : Except Source.Error Lexer := do
  let classes ← d.classes.mapM (ClassDescription.build d.alphabet)
  return ⟨d.name, OrderedSet.ofList d.alphabet, classes⟩

/-! ## 3. Scanning -/

/-- A piece of a text with the class that read it. -/
structure Lexeme where
  /-- The name of the class. -/
  className : String
  /-- The relevance of the class. -/
  relevance : Relevance
  /-- The piece. -/
  text : List Char
  deriving DecidableEq

/-- Where no class can go on. -/
structure ScanError where
  /-- The position, as the number of bytes of UTF-8 before it. -/
  offset : Nat
  /-- The rest of the text from there. -/
  remainder : List Char
  deriving DecidableEq

/-- The wording of the error. -/
def ScanError.message (e : ScanError) : String :=
  s!"no lexical class matches the input at offset {e.offset} (remaining: " ++
    Text.quote e.remainder ++ ")"

/-- The first class that reads something from the front of a text, with the piece and the rest. -/
def firstPiece? (classes : List LexicalClass) (w : List Char) :
    Option (LexicalClass × List Char × List Char) :=
  classes.findSome? fun c =>
    match c.regex.consume w with
    | ([], _) => none
    | (piece, rest) => some (c, piece, rest)

/-- The lexeme of a piece, unless its class is dropped. -/
def lexeme? (c : LexicalClass) (piece : List Char) : Option Lexeme :=
  if c.relevance = .discard then none else some ⟨c.name, c.relevance, piece⟩

end Lexer

end RegularLanguages
