import RegularLanguages.Regex.Basic

/-!
# Matching whole words

Which words an expression stands for is said by `Denotes`, without regard to how to find out; the
matcher, and the reader of `Regex.Consumption`, are measured by it. Whether a word is one of them is
decided by trying every way to cut it, the shortest first part first.

* `Denotes` -- the words of an expression, as a relation;
* `IsDenotation` -- what any such relation has to satisfy: the six forms are the operations on sets
  of words;
* `anyCut` -- whether a word can be cut in two so that both parts pass a test;
* `isIterated` -- whether a word is a sequence of non-empty pieces that all pass a test;
* `Regex.accepts` -- the matcher.
-/

namespace RegularLanguages

/-! ## 1. The words of an expression -/

namespace Regex

/-- The words of an expression. -/
inductive Denotes : Regex → Word → Prop where
  /-- A symbol stands for the word of that symbol alone. -/
  | symbol (c : Symbol) : Denotes (.symbol c) [c]
  /-- A concatenation stands for the words of its left side followed by those of its right side.
  -/
  | concat {l r : Regex} {u v : Word} (hu : Denotes l u) (hv : Denotes r v) :
    Denotes (.concat l r) (u ++ v)
  /-- An alternative stands for the words of its left side … -/
  | left {l r : Regex} {w : Word} (h : Denotes l w) : Denotes (.alt l r) w
  /-- … and for those of its right side. -/
  | right {l r : Regex} {w : Word} (h : Denotes r w) : Denotes (.alt l r) w
  /-- A repetition stands for the empty word … -/
  | stop {e : Regex} : Denotes (.star e) []
  /-- … and for a word of the inner expression followed by one of the repetition. -/
  | again {e : Regex} {u v : Word} (hu : Denotes e u) (hv : Denotes (.star e) v) :
    Denotes (.star e) (u ++ v)
  /-- The expression `nil` stands for the empty word; `empty` stands for none. -/
  | nil : Denotes .nil []

/-- A relation between expressions and words is a denotation if it reads the six forms as operations
on sets of words. -/
structure IsDenotation (L : Regex → Word → Prop) : Prop where
  /-- A symbol stands for itself as a word. -/
  symbol : ∀ c w, L (.symbol c) w ↔ w = [c]
  /-- A concatenation is the set of all products. -/
  concat : ∀ l r w, L (.concat l r) w ↔ ∃ u v, w = u ++ v ∧ L l u ∧ L r v
  /-- An alternative is the union. -/
  alt : ∀ l r w, L (.alt l r) w ↔ L l w ∨ L r w
  /-- A repetition is the set of all finite products, whose factors may be empty. -/
  star : ∀ e w, L (.star e) w ↔ ∃ pieces : List Word, w = pieces.flatten ∧ ∀ u ∈ pieces, L e u
  /-- The expression `nil` is the set of the empty word. -/
  nil : ∀ w, L .nil w ↔ w = []
  /-- The expression `empty` is the empty set. -/
  empty : ∀ w, ¬ L .empty w

end Regex

/-! ## 2. Cutting words -/

/-- Whether the second word can be cut so that the test holds of the first word with the part
before the cut, and of the part behind it. -/
def anyCutFrom (test : Word → Word → Bool) : Word → Word → Bool
  | front, [] => test front []
  | front, c :: w => test front (c :: w) || anyCutFrom test (front ++ [c]) w

/-- Whether a word can be cut in two parts of which the test holds. -/
def anyCut (test : Word → Word → Bool) (w : Word) : Bool := anyCutFrom test [] w

theorem anyCutFrom_iff {test : Word → Word → Bool} : ∀ {front w : Word},
    anyCutFrom test front w = true ↔ ∃ u v, u ++ v = w ∧ test (front ++ u) v = true
  | front, [] => by
    rw [anyCutFrom]
    constructor
    · intro h
      exact ⟨[], [], rfl, by simpa using h⟩
    · rintro ⟨u, v, e, h⟩
      obtain ⟨rfl, rfl⟩ := List.append_eq_nil_iff.1 e
      simpa using h
  | front, c :: w => by
    rw [anyCutFrom, Bool.or_eq_true, anyCutFrom_iff]
    constructor
    · rintro (h | ⟨u, v, rfl, h⟩)
      · exact ⟨[], c :: w, rfl, by simpa using h⟩
      · exact ⟨c :: u, v, rfl, by simpa using h⟩
    · rintro ⟨u, v, e, h⟩
      match u, e with
      | [], e => exact Or.inl (by simp at e; subst e; simpa using h)
      | d :: u, e =>
        obtain ⟨rfl, e'⟩ := List.cons.inj e
        exact Or.inr ⟨u, v, e', by simpa using h⟩

theorem anyCut_iff {test : Word → Word → Bool} {w : Word} :
    anyCut test w = true ↔ ∃ u v, u ++ v = w ∧ test u v = true := by
  simp [anyCut, anyCutFrom_iff]

/-- Whether `piece ++ w` can be cut into non-empty pieces that all pass the test, where `piece` is
the part of the first one that has been read. -/
def isIteratedFrom (test : Word → Bool) : Word → Word → Bool
  | piece, [] => piece.isEmpty
  | piece, c :: w =>
    (test (piece ++ [c]) && isIteratedFrom test [] w) || isIteratedFrom test (piece ++ [c]) w

/-- Whether a word can be cut into any number of non-empty pieces that all pass the test. -/
def isIterated (test : Word → Bool) (w : Word) : Bool := isIteratedFrom test [] w

/-! ## 3. The matcher -/

namespace Regex

/-- Whether the whole word is in the language of the expression. -/
def accepts : Regex → Word → Bool
  | .symbol c, w => w == [c]
  | .concat l r, w => anyCut (fun u v => l.accepts u && r.accepts v) w
  | .alt l r, w => l.accepts w || r.accepts w
  | .star e, w => isIterated e.accepts w
  | .nil, w => w.isEmpty
  | .empty, _ => false

end Regex

end RegularLanguages
