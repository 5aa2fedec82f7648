import RegularLanguages.Regex.Preorder
import RegularLanguages.Text.Classes
import RegularLanguages.Text.Quoted

/-!
# The tokens of descriptions

Descriptions of automata and lexers and the texts of expressions are made of the same tokens.

* `Token` -- quoted symbols, operators, the arrow, semicolons and words;
* `Token.spelling` is how a token is written, `Token.shown` how a message shows it;
* `Token.ofLine?` -- the tokens of one line, read character by character.

Between tokens blanks are skipped and `#` makes the rest of the line a comment. A quote takes the
next character as a symbol, whatever it is; a backslash there takes one more. A word goes on until
a blank, a semicolon or a quote, so operators and `#` inside it are letters.
-/

namespace RegularLanguages.Source

/-! ## 1. Tokens -/

/-- A token of a description. -/
inductive Token where
  /-- A quoted symbol. -/
  | symbol (c : Symbol)
  /-- One of the operators of expressions. -/
  | operator (o : Regex.Operator)
  /-- The arrow of a transition. -/
  | arrow
  /-- A semicolon. -/
  | semicolon
  /-- Any other run of characters. -/
  | word (w : String)
  deriving DecidableEq

/-- The token that a run of characters is. -/
def Token.ofLetters (w : List Char) : Token :=
  if w = ['-', '-', '>'] then .arrow else .word (String.ofList w)

/-- How a token is written. -/
def Token.spelling : Token → String
  | .symbol c => Symbol.spelling c
  | .operator o => String.singleton o.spelling
  | .arrow => "-->"
  | .semicolon => ";"
  | .word w => w

/-- How a message shows a token. Symbols are reduced to visible ASCII characters. -/
def Token.shown : Token → String
  | .symbol c => "'" ++ Text.escapeToAscii c
  | .operator o => String.singleton o.spelling
  | .arrow => "-->"
  | .semicolon => ";"
  | .word w => w

/-- The node of an expression that a token stands for. -/
def Token.regexToken? : Token → Option Regex.Token
  | .symbol c => some (.symbol c)
  | .operator o => some (.operator o)
  | .word w => if w = "nil" then some .nil else if w = "empty" then some .empty else none
  | .arrow => none
  | .semicolon => none

/-! ## 2. Reading a line -/

/-- What has been read of the token at hand. -/
inductive Reading where
  /-- No token has begun. -/
  | between
  /-- The rest of the line is a comment. -/
  | comment
  /-- A quote has been read. -/
  | quote
  /-- A quote and a backslash have been read. -/
  | escape
  /-- A word has begun; these are its letters, the last one first. -/
  | word (letters : List Char)

/-- Whether a character ends the word before it. -/
def endsWord (c : Char) : Bool := Text.isBlank c || c == ';' || c == '\''

/-- What a character does between two tokens: the tokens it completes and what is read then. -/
def Reading.begin (c : Char) : List Token × Reading :=
  if Text.isBlank c then ([], .between)
  else if c = '#' then ([], .comment)
  else if c = '\'' then ([], .quote)
  else if c = ';' then ([.semicolon], .between)
  else
    match Regex.Operator.ofChar? c with
    | some o => ([.operator o], .between)
    | none => ([], .word [c])

/-- What the next character does: the tokens it completes and what is read then. -/
def Reading.step : Reading → Char → List Token × Reading
  | .between, c => begin c
  | .comment, _ => ([], .comment)
  | .quote, c => if c = '\\' then ([], .escape) else ([.symbol c], .between)
  | .escape, c => ([.symbol (Symbol.ofEscape c)], .between)
  | .word letters, c =>
    if endsWord c then (.ofLetters letters.reverse :: (begin c).1, (begin c).2)
    else ([], .word (c :: letters))

/-- The tokens that the end of the line completes. A quote needs a symbol behind it; a backslash
stands for itself there. -/
def Reading.finish? : Reading → Option (List Token)
  | .between => some []
  | .comment => some []
  | .quote => none
  | .escape => some [.symbol '\\']
  | .word letters => some [.ofLetters letters.reverse]

/-- The tokens that the rest of a line completes. -/
def Reading.tokens? (r : Reading) : List Char → Option (List Token)
  | [] => r.finish?
  | c :: cs => ((r.step c).2.tokens? cs).map ((r.step c).1 ++ ·)

/-- The tokens of a line; there are none if the line ends in a quote without a symbol. -/
def Token.ofLine? (line : List Char) : Option (List Token) := Reading.between.tokens? line

end RegularLanguages.Source
