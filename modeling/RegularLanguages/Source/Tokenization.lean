import RegularLanguages.Source.Error

/-!
# The tokens of a text

A text is read line by line; every token carries the number of its line, for messages. Between
tokens layout is free.

* `Text.lines` -- the lines of a text. A line ends at a line feed, and a carriage return directly
  before it belongs to the line's end; one anywhere else, also at the very end of the text, is an
  ordinary character of its line. A text that ends with a line feed has no empty line behind it;
* `tokenize` -- the tokens of a text, or the first line that ends in a quote without a symbol;
* `Filler`, `LaidOut` -- how tokens may be written down: one after the other, separated by blanks,
  line ends and comments;
* `Token.IsWritable` -- the tokens that can be written like this: all but those words that would
  be read as something else;
* `Regex.parse` -- the expression that a text stands for: its nodes in preorder.
-/

namespace RegularLanguages

/-! ## 1. Lines -/

/-- The lines of a text, without their ends. -/
def Text.lines : List Char → List (List Char)
  | [] => []
  | '\n' :: rest => [] :: Text.lines rest
  | '\r' :: '\n' :: rest => [] :: Text.lines rest
  | c :: rest =>
    match Text.lines rest with
    | [] => [[c]]
    | line :: others => (c :: line) :: others

namespace Source

/-! ## 2. Reading -/

/-- A token and the line it stands on, counted from one. -/
structure Located where
  token : Token
  line : Nat
  deriving DecidableEq

/-- The complaint that a token is out of place. -/
def Located.unexpected (t : Located) (expected : Expected) : Error :=
  .unexpected t.line (.token t.token) expected

/-- The tokens of the given lines, the first of which has the given number. -/
def tokenizeLines (line : Nat) : List (List Char) → Except Error (List Located)
  | [] => .ok []
  | l :: ls =>
    match Token.ofLine? l with
    | none => .error (.unexpected line .loneQuote .symbolAfterQuote)
    | some ts => (tokenizeLines (line + 1) ls).map (ts.map (⟨·, line⟩) ++ ·)

/-- The tokens of a text. A line that ends in a quote without a symbol counts before anything else
that may be wrong with the text. -/
def tokenize (text : String) : Except Error (List Located) :=
  tokenizeLines 1 (Text.lines text.toList)

/-! ## 3. Layout -/

/-- What may stand between two tokens behind the first space: spaces, line ends, and comments up
to the end of their line. -/
inductive Filler : List Char → Nat → Prop where
  | nil : Filler [] 0
  | space {s : List Char} {n : Nat} (h : Filler s n) : Filler (' ' :: s) n
  | lineEnd {s : List Char} {n : Nat} (h : Filler s n) : Filler ('\n' :: s) (n + 1)
  | comment {text s : List Char} {n : Nat} (ht : '\n' ∉ text) (h : Filler s n) :
    Filler ('#' :: text ++ '\n' :: s) (n + 1)

/-- The text of some tokens, the first of which stands on the given line. Behind every token comes
a space, except that the last one may end the text. -/
inductive LaidOut : Nat → List Located → List Char → Prop where
  | nil (line : Nat) : LaidOut line [] []
  | last (line : Nat) (t : Token) : LaidOut line [⟨t, line⟩] t.spelling.toList
  | cons {line n : Nat} {filler text : List Char} {ts : List Located} (t : Token)
    (hf : Filler filler n) (more : LaidOut (line + n) ts text) :
    LaidOut line (⟨t, line⟩ :: ts) (t.spelling.toList ++ ' ' :: filler ++ text)

/-- Whether the spelling of a token is read as that token alone. Of all tokens only words can fail
to be. -/
def Token.IsWritable : Token → Prop
  | .word w => Token.ofLine? w.toList = some [.word w]
  | _ => True

end Source

/-! ## 4. Expressions -/

/-- The nodes that a list of tokens stands for, or the first token that is no node. -/
def Source.regexTokens : List Source.Located → Except Source.Error (List Regex.Token)
  | [] => .ok []
  | t :: ts =>
    match t.token.regexToken? with
    | none => .error (t.unexpected .regexToken)
    | some r => (Source.regexTokens ts).map (r :: ·)

/-- The expression of a list of nodes, with the defects of such lists as errors of a description.
-/
def Source.regexOfTokens (ts : List Regex.Token) : Except Source.Error Regex :=
  (Regex.ofPreorder ts).mapError .malformedRegex

/-- The expression that a text stands for. -/
def Regex.parse (text : String) : Except Source.Error Regex := do
  let tokens ← Source.tokenize text
  let nodes ← Source.regexTokens tokens
  Source.regexOfTokens nodes

end RegularLanguages
