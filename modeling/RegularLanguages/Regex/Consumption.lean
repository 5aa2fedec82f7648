import RegularLanguages.Regex.Basic

/-!
# Greedy consumption

How an expression reads as much as it can from the front of a text. Consumption never takes back
what it has read: a concatenation goes on behind the longest piece of its left side, a repetition
reads pieces until one is empty or fails.

* `Regex.consumed?` -- the number of symbols read, or that the expression fails;
* `Regex.consume` -- the text cut behind what was read; a failure reads nothing;
* `Regex.consume_append` -- nothing of the text is lost.

A text is kept in UTF-8, where how far an expression reads is counted in bytes. There a text can be
cut at its end and where a symbol begins, and nowhere else, so every offset has to be one of these
before the text behind it can be looked at.

* `cutAt` -- the two parts of a text at an offset, or that the text cannot be cut there;
* `cutAt_eq_ok_iff` -- the parts are those of which the first takes that many bytes;
* `Regex.consumedBytes` -- the number of bytes read, or that the expression fails;
* `Regex.consumeBytes` -- the text cut behind what was read; a failure reads nothing.
-/

namespace RegularLanguages

/-! ## 1. Reading by symbols -/

/-- How far repeated reading gets in a text. The first argument counts the symbols of the current
piece that are still to be passed over. -/
def repeatedFrom (read : Word → Option Nat) : Nat → Word → Nat
  | _, [] => 0
  | left + 1, _ :: w => repeatedFrom read left w + 1
  | 0, c :: w =>
    match read (c :: w) with
    | some (left + 1) => repeatedFrom read left w + 1
    | _ => 0

/-- The longer of two readings; a failed one counts less than any other. -/
def longer? : Option Nat → Option Nat → Option Nat
  | some n, some m => some (if m > n then m else n)
  | some n, none => some n
  | none, m => m

namespace Regex

/-- The number of symbols that the expression reads from the front of a text, `none` if it fails
there. -/
def consumed? : Regex → Word → Option Nat
  | .symbol c, w => if w.head? = some c then some 1 else none
  | .concat l r, w =>
    match l.consumed? w with
    | none => none
    | some n => (r.consumed? (w.drop n)).map (n + ·)
  | .alt l r, w => longer? (l.consumed? w) (r.consumed? w)
  | .star e, w => some (repeatedFrom e.consumed? 0 w)
  | .nil, _ => some 0
  | .empty, _ => none

/-- The text cut behind what the expression reads from its front. -/
def consume (e : Regex) (w : Word) : Word × Word :=
  match e.consumed? w with
  | some n => (w.take n, w.drop n)
  | none => ([], w)

/-- Consumption cuts a text in two. -/
theorem consume_append (e : Regex) (w : Word) : (e.consume w).1 ++ (e.consume w).2 = w := by
  unfold consume
  split
  · exact List.take_append_drop _ w
  · rfl

end Regex

/-! ## 2. Cuts -/

/-- An offset at which a text cannot be cut: it lies inside a symbol or behind the end. -/
structure MisplacedCut where
  /-- The offset. -/
  offset : Nat
  deriving DecidableEq

/-- The two parts of a text at an offset, if it can be cut there. -/
def cutAt? : Nat → Word → Option (Word × Word)
  | 0, w => some ([], w)
  | _ + 1, [] => none
  | n + 1, c :: w =>
    if c.utf8Size ≤ n + 1 then
      (cutAt? (n + 1 - c.utf8Size) w).map fun parts => (c :: parts.1, parts.2)
    else none

/-- The two parts of a text at an offset, or that it cannot be cut there. -/
def cutAt (n : Nat) (w : Word) : Except MisplacedCut (Word × Word) :=
  match cutAt? n w with
  | some parts => .ok parts
  | none => .error ⟨n⟩

theorem cutAt?_eq_some_iff : ∀ {n : Nat} {w u v : Word},
    cutAt? n w = some (u, v) ↔ u ++ v = w ∧ byteSize u = n
  | 0, w, u, v => by
    rw [cutAt?, Option.some.injEq, Prod.mk.injEq, byteSize_eq_zero_iff]
    constructor
    · intro h
      obtain ⟨rfl, rfl⟩ := h
      exact ⟨rfl, rfl⟩
    · intro h
      obtain ⟨rfl, rfl⟩ := h
      exact ⟨rfl, rfl⟩
  | n + 1, [], u, v => by
    refine iff_of_false (by rw [cutAt?]; nofun) fun h => ?_
    have hsize := h.2
    rw [(List.append_eq_nil_iff.1 h.1).1, byteSize_nil] at hsize
    cases hsize
  | n + 1, c :: w, [], v => by
    refine iff_of_false ?_ (fun h => nomatch h.2)
    rw [cutAt?]
    split
    · simp only [Option.map_eq_some_iff, not_exists, not_and]
      exact fun parts _ h => nomatch h
    · nofun
  | n + 1, c :: w, d :: u, v => by
    have hpos := c.utf8Size_pos
    rw [cutAt?, byteSize_cons, List.cons_append, List.cons.injEq]
    split
    · rename_i hle
      rw [Option.map_eq_some_iff]
      constructor
      · intro h
        obtain ⟨parts, h, he⟩ := h
        cases he
        obtain ⟨happ, hsize⟩ := cutAt?_eq_some_iff.1 h
        exact ⟨⟨rfl, happ⟩, by omega⟩
      · intro h
        obtain ⟨⟨rfl, happ⟩, hsize⟩ := h
        exact ⟨(u, v), cutAt?_eq_some_iff.2 ⟨happ, by omega⟩, rfl⟩
    · -- the first symbol alone takes more bytes than there are before the offset
      refine iff_of_false (by nofun) fun h => ?_
      obtain ⟨⟨rfl, -⟩, hsize⟩ := h
      omega

/-- **The parts of a text at an offset are those of which the first takes that many bytes.** -/
theorem cutAt_eq_ok_iff {n : Nat} {w u v : Word} :
    cutAt n w = .ok (u, v) ↔ u ++ v = w ∧ byteSize u = n := by
  rw [← cutAt?_eq_some_iff, cutAt]
  cases cutAt? n w with
  | none => exact iff_of_false (by nofun) (by nofun)
  | some parts => rw [Except.ok.injEq, Option.some.injEq]

/-- No cut lies behind the end. -/
theorem le_byteSize_of_cutAt {n : Nat} {w : Word} {parts : Word × Word}
    (h : cutAt n w = .ok parts) : n ≤ byteSize w := by
  obtain ⟨happ, hsize⟩ := cutAt_eq_ok_iff.1 h
  rw [← happ, byteSize_append]
  omega

/-! ## 3. Reading by bytes -/

/-- How far repeated reading gets in a text, where the given number of bytes has been read. -/
def repeatedBytes (read : Word → Except MisplacedCut (Option Nat)) (w : Word) (total : Nat) :
    Except MisplacedCut Nat :=
  match _h : cutAt total w with
  | .error e => .error e
  | .ok (_, rest) =>
    match read rest with
    | .error e => .error e
    | .ok none => .ok total
    | .ok (some n) => if n = 0 then .ok total else repeatedBytes read w (total + n)
termination_by byteSize w + 1 - total
decreasing_by
  -- a round that goes on has read something, and its cut lies in the text
  have hle := le_byteSize_of_cutAt _h
  omega

namespace Regex

/-- The number of bytes that the expression reads from the front of a text, `none` if it fails
there. -/
def consumedBytes : Regex → Word → Except MisplacedCut (Option Nat)
  | .symbol c, w => .ok (if w.head? = some c then some c.utf8Size else none)
  | .concat l r, w => do
    match ← l.consumedBytes w with
    | none => return none
    | some n =>
      let parts ← cutAt n w
      return (← r.consumedBytes parts.2).map (n + ·)
  | .alt l r, w => return longer? (← l.consumedBytes w) (← r.consumedBytes w)
  | .star e, w => return some (← repeatedBytes e.consumedBytes w 0)
  | .nil, _ => .ok (some 0)
  | .empty, _ => .ok none

/-- The text cut behind what the expression reads from its front. -/
def consumeBytes (e : Regex) (w : Word) : Except MisplacedCut (Word × Word) := do
  match ← e.consumedBytes w with
  | some n => cutAt n w
  | none => return ([], w)

end Regex

end RegularLanguages
