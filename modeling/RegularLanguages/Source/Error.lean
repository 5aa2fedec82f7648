import RegularLanguages.Automaton.Basic
import RegularLanguages.Source.Token

/-!
# What can be wrong with a description

Every reader of this library answers with the same causes. A cause says what was found, where, and
what would have been right; `Error.message` is its wording.
-/

namespace RegularLanguages.Source

/-- What a reader would have accepted. -/
inductive Expected where
  /-- One particular word. -/
  | keyword (word : String)
  /-- The kind of an automaton. -/
  | kind
  | stateName
  | initialState
  | symbol
  | arrow
  | languageName
  | className
  /-- A further node of an expression, or the relevance that ends it. -/
  | regexOrRelevance
  | regexToken
  | symbolAfterQuote
  | endOfInput
  deriving DecidableEq

/-- The wording of an expectation. -/
def Expected.text : Expected → String
  | .keyword word => "`" ++ word ++ "`"
  | .kind => "`dfa` or `nfa`"
  | .stateName => "a state name"
  | .initialState => "the initial state"
  | .symbol => "a symbol"
  | .arrow => "`-->`"
  | .languageName => "the language name"
  | .className => "a class name"
  | .regexOrRelevance => "a regex or a relevance"
  | .regexToken => "a regex token"
  | .symbolAfterQuote => "a symbol after `'`"
  | .endOfInput => "end of input"

/-- What a reader found instead. -/
inductive Found where
  /-- A token that does not belong there. -/
  | token (t : Token)
  /-- A quote without a symbol behind it. -/
  | loneQuote
  deriving DecidableEq

/-- How a message shows what was found. -/
def Found.text : Found → String
  | .token t => t.shown
  | .loneQuote => "'"

/-- Why a text is not a description, or not the text of an expression. -/
inductive Error where
  /-- The nodes of an expression do not combine to one. -/
  | malformedRegex (defect : Regex.Malformed)
  /-- Something is out of place on a line, counted from one. -/
  | unexpected (line : Nat) (found : Found) (expected : Expected)
  /-- The text is too short. -/
  | unexpectedEnd (expected : Expected)
  /-- The word is no relevance. -/
  | unknownRelevance (word : String)
  /-- The parts named do not fit together. -/
  | automaton (error : Automaton.Error)
  deriving DecidableEq

/-- The wording of an error. -/
def Error.message : Error → String
  | .malformedRegex defect => "malformed regex: " ++ defect.message
  | .unexpected line found expected =>
    s!"line {line}: expected " ++ expected.text ++ ", found `" ++ found.text ++ "`"
  | .unexpectedEnd expected => "unexpected end of input, expected " ++ expected.text
  | .unknownRelevance word =>
    "unknown relevance `" ++ word ++ "`, expected one of `relevant`, `irrelevant`, `discard`"
  | .automaton error => error.message

end RegularLanguages.Source
