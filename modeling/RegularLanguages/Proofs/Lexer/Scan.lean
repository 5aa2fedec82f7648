import RegularLanguages.Lexer.Scan
import RegularLanguages.Proofs.Regex.Consumption

/-!
# Scans and pieces

The scan is measured by the relation `Cuts`, which says how a text is cut without saying what is
made of the pieces.

* `firstPiece?_eq_some_iff` -- the first piece is what a class takes;
* `exists_cuts` -- every text can be cut until no class takes anything;
* `scanFrom_of_cuts` -- a scan goes through the pieces of a cut and on with the rest;
* `scan_partitions` -- **a scan yields the lexemes of such a cut**, or stops where it does;
* `scan_simplify` -- **simplified expressions make the same scan**.
-/

namespace RegularLanguages.Lexer

variable {classes : List LexicalClass} {w piece rest : List Char} {c : LexicalClass}
  {pieces : List (LexicalClass × List Char)}

/-! ## 1. One piece -/

/-- No class of a list takes anything from the front of a text. -/
def Stuck (classes : List LexicalClass) (w : List Char) : Prop :=
  ∀ c ∈ classes, (c.regex.consume w).1 = []

theorem firstPiece?_eq_none_iff : firstPiece? classes w = none ↔ Stuck classes w := by
  rw [firstPiece?, List.findSome?_eq_none_iff]
  refine forall₂_congr fun c _ => ?_
  split
  · rename_i h
    rw [h]
    exact iff_of_true rfl rfl
  · rename_i piece rest hne h
    rw [h]
    exact iff_of_false (Option.some_ne_none _) fun e => hne e

/-- **The first piece is what a class takes.** -/
theorem firstPiece?_eq_some_iff :
    firstPiece? classes w = some (c, piece, rest) ↔ Takes classes w c piece rest := by
  rw [firstPiece?, List.findSome?_eq_some_iff]
  constructor
  · intro h
    obtain ⟨before, d, after, rfl, hd, hbefore⟩ := h
    have hstuck : Stuck before w :=
      firstPiece?_eq_none_iff.1 (List.findSome?_eq_none_iff.2 hbefore)
    split at hd
    · cases hd
    · rename_i p r hne hp
      cases hd
      exact ⟨before, after, rfl, hstuck, hp, hne⟩
  · intro h
    obtain ⟨before, after, rfl, hbefore, hp, hne⟩ := h
    refine ⟨before, c, after, rfl, ?_, List.findSome?_eq_none_iff.1
      (firstPiece?_eq_none_iff.2 hbefore)⟩
    rw [hp]
    cases piece with
    | nil => exact absurd rfl hne
    | cons d piece => rfl

theorem Takes.append (h : Takes classes w c piece rest) : piece ≠ [] ∧ piece ++ rest = w :=
  firstPiece?_append (firstPiece?_eq_some_iff.2 h)

theorem Takes.mem (h : Takes classes w c piece rest) : c ∈ classes := by
  obtain ⟨before, after, rfl, _⟩ := h
  exact List.mem_append_right before List.mem_cons_self

/-- A piece is matched by the expression of the class that takes it. -/
theorem Takes.accepts (h : Takes classes w c piece rest) : c.regex.accepts piece = true := by
  obtain ⟨_, _, _, _, hp, hne⟩ := h
  have hfirst : (c.regex.consume w).1 = piece := by rw [hp]
  rw [← hfirst] at hne ⊢
  exact Regex.accepts_consume_of_ne_nil hne

/-! ## 2. All pieces -/

/-- The text of some pieces. -/
def piecesText (pieces : List (LexicalClass × List Char)) : List Char :=
  (pieces.map Prod.snd).flatten

theorem Cuts.append (h : Cuts classes w pieces rest) : piecesText pieces ++ rest = w := by
  induction h with
  | stop w => rfl
  | @piece w piece rest last c pieces htakes _ ih =>
    calc piecesText ((c, piece) :: pieces) ++ last
        = piece ++ (piecesText pieces ++ last) := List.append_assoc piece _ last
      _ = w := by rw [ih, htakes.append.2]

theorem Cuts.accepts (h : Cuts classes w pieces rest) :
    ∀ p ∈ pieces, p.1 ∈ classes ∧ p.2 ≠ [] ∧ p.1.regex.accepts p.2 = true := by
  induction h with
  | stop w => exact fun p hp => absurd hp List.not_mem_nil
  | piece htakes _ ih =>
    intro p hp
    rcases List.mem_cons.1 hp with rfl | hp
    · exact ⟨htakes.mem, htakes.append.1, htakes.accepts⟩
    · exact ih p hp

/-- **Every text can be cut until no class takes anything.** -/
theorem exists_cuts (classes : List LexicalClass) (w : List Char) :
    ∃ pieces rest, Cuts classes w pieces rest ∧ Stuck classes rest := by
  match h : firstPiece? classes w with
  | none => exact ⟨[], w, .stop w, firstPiece?_eq_none_iff.1 h⟩
  | some (c, piece, rest) =>
    have hlt := length_firstPiece?_lt h
    obtain ⟨pieces, last, hcuts, hstuck⟩ := exists_cuts classes rest
    exact ⟨(c, piece) :: pieces, last, .piece (firstPiece?_eq_some_iff.1 h) hcuts, hstuck⟩
termination_by w.length

/-! ## 3. The scan -/

@[simp] theorem scanFrom_nil (k : Nat) : scanFrom classes k [] = .ok [] := by
  rw [scanFrom]
  rfl

theorem scanFrom_of_stuck (h : Stuck classes w) (hne : w ≠ []) (k : Nat) :
    scanFrom classes k w = .error ⟨k, w⟩ := by
  rw [scanFrom, if_neg (by simpa using hne)]
  split
  · rfl
  · rename_i hsome
    rw [firstPiece?_eq_none_iff.2 h] at hsome
    cases hsome

theorem scanFrom_of_takes (h : Takes classes w c piece rest) (k : Nat) :
    scanFrom classes k w =
      (scanFrom classes (k + byteSize piece) rest).map ((lexeme? c piece).toList ++ ·) := by
  have hne : w ≠ [] := by
    obtain ⟨hpiece, rfl⟩ := h.append
    exact List.append_ne_nil_of_left_ne_nil hpiece rest
  rw [scanFrom, if_neg (by simpa using hne)]
  split
  · rename_i hnone
    rw [firstPiece?_eq_some_iff.2 h] at hnone
    cases hnone
  · rename_i hsome
    rw [firstPiece?_eq_some_iff.2 h] at hsome
    cases hsome
    rfl

/-- **A scan goes through the pieces of a cut and on with the rest.** -/
theorem scanFrom_of_cuts (h : Cuts classes w pieces rest) (k : Nat) :
    scanFrom classes k w = (scanFrom classes (k + byteSize (piecesText pieces)) rest).map
      (keptLexemes pieces ++ ·) := by
  induction h generalizing k with
  | stop w =>
    rw [piecesText, List.map_nil, List.flatten_nil, byteSize_nil, Nat.add_zero]
    cases scanFrom classes k w <;> rfl
  | @piece w piece rest last c pieces htakes _ ih =>
    have hkept : keptLexemes ((c, piece) :: pieces) =
        (lexeme? c piece).toList ++ keptLexemes pieces := by
      rw [keptLexemes, List.filterMap_cons]
      cases lexeme? c piece <;> rfl
    have hlength : byteSize (piecesText ((c, piece) :: pieces)) =
        byteSize piece + byteSize (piecesText pieces) := byteSize_append piece _
    rw [scanFrom_of_takes htakes, ih, hkept, hlength, ← Nat.add_assoc]
    cases scanFrom classes (k + byteSize piece + byteSize (piecesText pieces)) last with
    | error e => rfl
    | ok lexemes => exact congrArg Except.ok (List.append_assoc _ _ _).symm

/-- The lexer with the expression of every class replaced. -/
def mapRegexes (f : Regex → Regex) (l : Lexer) : Lexer :=
  { l with classes := l.classes.map fun c => { c with regex := f c.regex } }

theorem firstPiece?_map {f : Regex → Regex} (hf : ∀ e w, (f e).consume w = e.consume w) :
    firstPiece? (classes.map fun c => { c with regex := f c.regex }) w =
      (firstPiece? classes w).map fun p => ({ p.1 with regex := f p.1.regex }, p.2) := by
  induction classes with
  | nil => rfl
  | cons c classes ih =>
    simp only [firstPiece?, List.map_cons, List.findSome?_cons, hf] at ih ⊢
    rcases c.regex.consume w with ⟨_ | ⟨d, piece⟩, rest⟩
    · exact ih
    · rfl

theorem scanFrom_map {f : Regex → Regex} (hf : ∀ e w, (f e).consume w = e.consume w) (k : Nat)
    (w : List Char) : scanFrom (classes.map fun c => { c with regex := f c.regex }) k w =
      scanFrom classes k w := by
  fun_induction scanFrom classes k w with
  | case1 k w h =>
    rw [List.isEmpty_iff.1 h, scanFrom_nil]
  | case2 k w h hnone =>
    refine scanFrom_of_stuck (firstPiece?_eq_none_iff.1 ?_) (by simpa using h) k
    rw [firstPiece?_map hf, hnone]
    rfl
  | case3 k w h c piece rest hsome ih =>
    have htakes : Takes (classes.map fun c => { c with regex := f c.regex }) w
        { c with regex := f c.regex } piece rest := by
      rw [← firstPiece?_eq_some_iff, firstPiece?_map hf, hsome]
      rfl
    rw [scanFrom_of_takes htakes, ih]
    rfl

/-- **Expressions that consume the same make the same scan**, errors included. -/
theorem scan_mapRegexes {f : Regex → Regex} (hf : ∀ e w, (f e).consume w = e.consume w)
    (l : Lexer) (w : List Char) : (l.mapRegexes f).scan w = l.scan w := scanFrom_map hf 0 w

/-- **Simplification cannot be seen by a reader**: a simplified expression reads exactly as far as
the expression and fails exactly where it fails, and a lexer whose expressions are all simplified
makes the same scan of every text, errors included. -/
theorem scan_simplify : (∀ (e : Regex) (w : Word), e.simplify.consumed? w = e.consumed? w ∧
    e.simplify.consume w = e.consume w) ∧
      ∀ (l : Lexer) (w : List Char), (l.mapRegexes Regex.simplify).scan w = l.scan w := by
  refine ⟨fun e w => ⟨?_, Regex.consume_simplify e w⟩, fun l w => ?_⟩
  · rw [Regex.consumed?_simplify]
  · exact scan_mapRegexes Regex.consume_simplify l w

end RegularLanguages.Lexer
