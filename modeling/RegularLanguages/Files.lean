import RegularLanguages.Lexer.Scan
import RegularLanguages.Source.AutomatonText
import RegularLanguages.Source.LexerText

/-!
# Files

Automata and lexers are loaded from files that hold their descriptions. A file is its bytes, or
missing.

* `FileError`, `Failure` -- what can go wrong with a file, and with anything that is done with its
  content;
* `Automaton.load`, `Lexer.load`, `Lexer.scanFile` -- the automaton or lexer of a file, and a scan
  of another.
-/

namespace RegularLanguages

/-- The content of a file; a missing file has none. -/
abbrev FileContent := Option ByteArray

/-- Why a file cannot be read as a text. -/
inductive FileError where
  | notFound
  /-- The bytes are no UTF-8. -/
  | notText
  deriving DecidableEq

/-- The wording of the error. -/
def FileError.message : FileError → String
  | .notFound => "No such file or directory (os error 2)"
  | .notText => "stream did not contain valid UTF-8"

/-- Why a task failed. -/
inductive Failure where
  | file (error : FileError)
  | description (error : Source.Error)
  | automaton (error : Automaton.Error)
  | scan (error : Lexer.ScanError)
  deriving DecidableEq

/-- The wording of a failure. -/
def Failure.message : Failure → String
  | .file error => error.message
  | .description error => "failed to read description: " ++ error.message
  | .automaton error => "automaton error: " ++ error.message
  | .scan error => "lexical error: " ++ error.message

/-- The text in a file. -/
def readText : FileContent → Except Failure String
  | none => .error (.file .notFound)
  | some bytes =>
    match String.fromUTF8? bytes with
    | some text => .ok text
    | none => .error (.file .notText)

/-- The automaton that the description in a file stands for. -/
def Automaton.load (content : FileContent) : Except Failure Automaton := do
  let text ← readText content
  let d ← (Description.parse text).mapError .description
  (ofDescription d).mapError .automaton

/-- The lexer that the description in a file stands for. -/
def Lexer.load (content : FileContent) : Except Failure Lexer := do
  let text ← readText content
  let d ← (Description.parse text).mapError .description
  (ofDescription d).mapError .description

/-- The lexemes of the text in a file. -/
def Lexer.scanFile (l : Lexer) (content : FileContent) : Except Failure (List Lexeme) := do
  let text ← readText content
  (l.scan text.toList).mapError .scan

end RegularLanguages
