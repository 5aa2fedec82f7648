import RegularLanguages.Lexer.Basic

/-!
# Scanning

A text is cut into pieces from the front: at every position the first class that reads something
takes its piece. The scan ends at the end of the text or where no class reads anything.

* `firstPiece?_append` -- a piece and the rest behind it make up the text, and the piece is not
  empty, so the rest is shorter;
* `scanFrom`, `scan` -- the lexemes of the classes that are not dropped;
* `Takes`, `Cuts`, `keptLexemes` -- how a lexer cuts a text, as a relation: which class takes which
  piece, what is left, and which lexemes the pieces make.
-/

namespace RegularLanguages.Lexer

/-! ## 1. The scan -/

/-- The piece and the rest make up the text, and the piece is not empty. -/
theorem firstPiece?_append {classes : List LexicalClass} {w piece rest : List Char}
    {c : LexicalClass} (h : firstPiece? classes w = some (c, piece, rest)) :
    piece ≠ [] ∧ piece ++ rest = w := by
  obtain ⟨_, d, _, _, hd, _⟩ := List.findSome?_eq_some_iff.1 h
  have happ := d.regex.consume_append w
  split at hd
  · simp at hd
  · rename_i p r hne heq
    obtain ⟨rfl, rfl, rfl⟩ : d = c ∧ p = piece ∧ r = rest := by simpa using hd
    rw [heq] at happ
    exact ⟨hne, happ⟩

theorem length_firstPiece?_lt {classes : List LexicalClass} {w piece rest : List Char}
    {c : LexicalClass} (h : firstPiece? classes w = some (c, piece, rest)) :
    rest.length < w.length := by
  obtain ⟨hne, happ⟩ := firstPiece?_append h
  have hp := List.length_pos_iff.2 hne
  rw [← happ, List.length_append]
  omega

/-- The lexemes of a text that begins at the given offset. -/
def scanFrom (classes : List LexicalClass) (offset : Nat) (w : List Char) :
    Except ScanError (List Lexeme) :=
  if w.isEmpty then .ok []
  else
    match _h : firstPiece? classes w with
    | none => .error ⟨offset, w⟩
    | some (c, piece, rest) =>
      (scanFrom classes (offset + byteSize piece) rest).map ((lexeme? c piece).toList ++ ·)
termination_by w.length
decreasing_by exact length_firstPiece?_lt _h

/-- The lexemes of a text. -/
def scan (l : Lexer) (w : List Char) : Except ScanError (List Lexeme) := scanFrom l.classes 0 w

/-! ## 2. Pieces of a text -/

/-- A class takes a piece from the front of a text and leaves a rest: its expression consumes the
piece, which is not empty, and the expressions of all classes before it consume nothing. -/
def Takes (classes : List LexicalClass) (w : List Char) (c : LexicalClass)
    (piece rest : List Char) : Prop :=
  ∃ before after, classes = before ++ c :: after ∧
    (∀ d ∈ before, (d.regex.consume w).1 = []) ∧ c.regex.consume w = (piece, rest) ∧ piece ≠ []

/-- A text is cut into pieces, each with the class that takes it, and a rest. -/
inductive Cuts (classes : List LexicalClass) :
    List Char → List (LexicalClass × List Char) → List Char → Prop where
  | stop (w : List Char) : Cuts classes w [] w
  | piece {w piece rest last : List Char} {c : LexicalClass}
    {pieces : List (LexicalClass × List Char)} (h : Takes classes w c piece rest)
    (more : Cuts classes rest pieces last) :
    Cuts classes w ((c, piece) :: pieces) last

/-- The lexemes of the pieces whose classes are not dropped. -/
def keptLexemes (pieces : List (LexicalClass × List Char)) : List Lexeme :=
  pieces.filterMap fun p => lexeme? p.1 p.2

end RegularLanguages.Lexer
