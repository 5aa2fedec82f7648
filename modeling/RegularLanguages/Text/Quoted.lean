import RegularLanguages.Text.Classes

/-!
# Quoted text

How messages and listings show characters that would be misread if they stood for themselves.

* `escape` -- one character inside a quotation: the usual backslash forms, code points for what is
  invisible or attaches to its neighbour, everything else as it is;
* `quoteChar`, `quote` -- a character in single and a text in double quotes;
* `escapeAll` -- a text without surrounding quotes, where only the first character can lack a
  neighbour to attach to;
* `escapeToAscii` -- a character spelled with visible ASCII characters only.
-/

namespace RegularLanguages.Text

/-! ## 1. One character -/

/-- A character as its code point: a backslash, `u` and the hexadecimal digits in braces. -/
def codePoint (c : Char) : String :=
  "\\u\x7b" ++ String.ofList (Nat.toDigits 16 c.toNat) ++ "\x7d"

/-- Which of the two quotes a quotation has to escape. -/
structure Quotes where
  /-- Whether a single quote is escaped. -/
  single : Bool
  /-- Whether a double quote is escaped. -/
  double : Bool

/-- A character inside a quotation. A character that attaches to its neighbour is spelled as a
code point if `alone` holds, and stands for itself otherwise. -/
def escape (quotes : Quotes) (alone : Bool) (c : Char) : String :=
  match c with
  | '\x00' => "\\0"
  | '\t' => "\\t"
  | '\r' => "\\r"
  | '\n' => "\\n"
  | '\\' => "\\\\"
  | '\'' => if quotes.single then "\\'" else "'"
  | '"' => if quotes.double then "\\\"" else "\""
  | c =>
    if (alone && isExtending c) || isInvisible c then codePoint c
    else String.singleton c

/-- A character spelled with visible ASCII characters only. -/
def escapeToAscii (c : Char) : String :=
  match c with
  | '\t' => "\\t"
  | '\r' => "\\r"
  | '\n' => "\\n"
  | '\\' => "\\\\"
  | '\'' => "\\'"
  | '"' => "\\\""
  | c => if ' ' ≤ c ∧ c ≤ '~' then String.singleton c else codePoint c

/-! ## 2. Whole texts -/

/-- A character in single quotes. -/
def quoteChar (c : Char) : String :=
  "'" ++ escape ⟨true, false⟩ true c ++ "'"

/-- A text in double quotes. -/
def quote (s : List Char) : String :=
  "\"" ++ String.join (s.map (escape ⟨false, true⟩ true)) ++ "\""

/-- A text with both quotes escaped and no quotes around it. -/
def escapeAll : List Char → String
  | [] => ""
  | c :: rest =>
    escape ⟨true, true⟩ true c ++ String.join (rest.map (escape ⟨true, true⟩ false))

end RegularLanguages.Text
