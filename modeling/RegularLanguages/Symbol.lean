/-!
# Symbols and words

A symbol is a Unicode scalar value and a word is a list of symbols.

* `Symbol.spelling` -- how a symbol is written in descriptions and in the text of an expression;
* `Symbol.ofEscape` -- what a letter behind a backslash stands for when such a text is read;
* `byteSize` -- the size of a word in UTF-8, in which texts are kept.
-/

namespace RegularLanguages

/-- A symbol of an alphabet. -/
abbrev Symbol := Char

/-- A word over some alphabet. -/
abbrev Word := List Symbol

/-- The spelling of a symbol: a quote and the symbol, where line feed, tab, U+0000, backslash and
quote themselves are written as backslash forms. -/
def Symbol.spelling (c : Symbol) : String :=
  match c with
  | '\n' => "'\\n"
  | '\t' => "'\\t"
  | '\x00' => "'\\0"
  | '\\' => "'\\\\"
  | '\'' => "'\\'"
  | c => "'" ++ String.singleton c

/-- The symbol that a character behind a backslash stands for. -/
def Symbol.ofEscape (c : Char) : Symbol :=
  match c with
  | 'n' => '\n'
  | 't' => '\t'
  | '0' => '\x00'
  | c => c

/-- The number of bytes of a word in UTF-8. -/
abbrev byteSize (w : Word) : Nat := (String.ofList w).utf8ByteSize

theorem byteSize_nil : byteSize [] = 0 := rfl

theorem byteSize_cons (c : Symbol) (w : Word) : byteSize (c :: w) = c.utf8Size + byteSize w := by
  rw [byteSize, String.ofList_cons, String.utf8ByteSize_append, String.utf8ByteSize_singleton]

theorem byteSize_append (u v : Word) : byteSize (u ++ v) = byteSize u + byteSize v := by
  rw [byteSize, String.ofList_append, String.utf8ByteSize_append]

/-- Every symbol takes at least one byte. -/
theorem byteSize_eq_zero_iff {w : Word} : byteSize w = 0 ↔ w = [] := by
  rw [byteSize, String.utf8ByteSize_eq_zero_iff, String.ofList_eq_empty_iff]

end RegularLanguages
