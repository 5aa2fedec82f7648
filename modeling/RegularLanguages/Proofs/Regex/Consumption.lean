import RegularLanguages.Proofs.Regex.Denotation
import RegularLanguages.Regex.Consumption
import RegularLanguages.Regex.Simplification

/-!
# What is consumed

Greedy consumption follows the form of the expression and not its language: two expressions for the
same words may read differently far. Its own laws are kept here.

* `repeatedReading_induction` -- how repeated reading goes through a text: it stops, or it reads a
  piece and goes on behind it;
* `accepts_take_of_consumed?` -- **what is read is matched**, and it lies in the text;
* `consumed?_simplify` -- **a simplified expression reads exactly as far**, and fails where the
  expression fails.
-/

namespace RegularLanguages

/-! ## 1. Repeated reading -/

section Repetition

variable {read : Word → Option Nat} {w : Word} {n : Nat}

/-- A reader never reads more than there is. -/
def StaysInside (read : Word → Option Nat) : Prop := ∀ w n, read w = some n → n ≤ w.length

/-- A reader makes no progress on a text: it fails there or reads nothing. -/
def Stalls (read : Word → Option Nat) (w : Word) : Prop := ∀ n, read w ≠ some (n + 1)

/-- The symbols of a piece that are still to be passed over come first. -/
theorem repeatedFrom_add : ∀ {n : Nat} {w : Word}, n ≤ w.length →
    repeatedFrom read n w = n + repeatedFrom read 0 (w.drop n)
  | 0, w, _ => by rw [List.drop_zero, Nat.zero_add]
  | n + 1, c :: w, h => by
    rw [repeatedFrom, repeatedFrom_add (Nat.le_of_succ_le_succ h), List.drop_succ_cons]
    omega

theorem repeatedFrom_of_stalls (h : Stalls read w) : repeatedFrom read 0 w = 0 := by
  cases w with
  | nil => rfl
  | cons c w =>
    rw [repeatedFrom]
    split
    · rename_i n hn
      exact absurd hn (h n)
    · rfl

theorem repeatedFrom_of_piece (hread : StaysInside read) (h : read w = some (n + 1)) :
    repeatedFrom read 0 w = n + 1 + repeatedFrom read 0 (w.drop (n + 1)) := by
  have hle := hread w (n + 1) h
  cases w with
  | nil => exact absurd hle (Nat.not_succ_le_zero n)
  | cons c w =>
    rw [repeatedFrom, h, List.drop_succ_cons]
    simp only [repeatedFrom_add (Nat.le_of_succ_le_succ hle)]
    omega

/-- **Repeated reading stops, or it reads a piece and goes on behind it.** -/
theorem repeatedReading_induction (hread : StaysInside read) {motive : Word → Prop}
    (stop : ∀ w, Stalls read w → motive w)
    (piece : ∀ w n, read w = some (n + 1) → motive (w.drop (n + 1)) → motive w) (w : Word) :
    motive w := by
  by_cases h : Stalls read w
  · exact stop w h
  · obtain ⟨n, hn⟩ := not_forall_not.1 h
    have hle := hread w (n + 1) hn
    have hlt : (w.drop (n + 1)).length < w.length := by
      rw [List.length_drop]
      omega
    exact piece w n hn (repeatedReading_induction hread stop piece (w.drop (n + 1)))
termination_by w.length

theorem repeatedFrom_le (hread : StaysInside read) (w : Word) :
    repeatedFrom read 0 w ≤ w.length := by
  induction w using repeatedReading_induction hread with
  | stop w h => rw [repeatedFrom_of_stalls h]; exact Nat.zero_le _
  | piece w n h ih =>
    have hle := hread w (n + 1) h
    rw [repeatedFrom_of_piece hread h]
    rw [List.length_drop] at ih
    omega

/-- Behind what was read repeatedly nothing more is read. -/
theorem repeatedFrom_behind (hread : StaysInside read) (w : Word) :
    repeatedFrom read 0 (w.drop (repeatedFrom read 0 w)) = 0 := by
  induction w using repeatedReading_induction hread with
  | stop w h => rw [repeatedFrom_of_stalls h, List.drop_zero, repeatedFrom_of_stalls h]
  | piece w n h ih => rw [repeatedFrom_of_piece hread h, ← List.drop_drop, ih]

end Repetition

/-! ## 2. What is read is matched -/

namespace Regex

variable {e : Regex} {w : Word} {n : Nat}

/-- The right side of a concatenation reads behind what the left side has read. -/
theorem consumed?_concat (l r : Regex) (w : Word) : (concat l r).consumed? w =
    (l.consumed? w).bind fun n => (r.consumed? (w.drop n)).map (n + ·) := by
  rw [consumed?]
  cases l.consumed? w <;> rfl

/-- The longer of two readings is one of them. -/
theorem longer?_eq_some {x y : Option Nat} (h : longer? x y = some n) :
    x = some n ∨ y = some n := by
  cases x <;> cases y <;> grind [longer?]

/-- An expression never reads more than there is. -/
theorem staysInside_consumed? : ∀ e : Regex, StaysInside e.consumed?
  | .symbol c, w, n, h => by
    cases w with
    | nil => simp [consumed?] at h
    | cons d w =>
      rw [consumed?] at h
      split at h
      · cases h
        exact Nat.succ_le_succ (Nat.zero_le _)
      · cases h
  | .concat l r, w, n, h => by
    rw [consumed?_concat] at h
    obtain ⟨k, hk, h⟩ := Option.bind_eq_some_iff.1 h
    obtain ⟨m, hm, rfl⟩ := Option.map_eq_some_iff.1 h
    have hl := staysInside_consumed? l w k hk
    have hr := staysInside_consumed? r (w.drop k) m hm
    rw [List.length_drop] at hr
    omega
  | .alt l r, w, n, h =>
    (longer?_eq_some h).elim (staysInside_consumed? l w n) (staysInside_consumed? r w n)
  | .star e, w, n, h => by
    cases h
    exact repeatedFrom_le (staysInside_consumed? e) w
  | .nil, w, n, h => by
    cases h
    exact Nat.zero_le _
  | .empty, w, n, h => by cases h

/-- What an expression reads is one of its words. -/
theorem denotes_take_of_consumed? : ∀ {e : Regex} {w : Word} {n : Nat},
    e.consumed? w = some n → Denotes e (w.take n)
  | .symbol c, w, n, h => by
    rw [consumed?] at h
    split at h
    · rename_i hc
      cases h
      obtain ⟨w', rfl⟩ := List.head?_eq_some_iff.1 hc
      exact .symbol c
    · cases h
  | .concat l r, w, n, h => by
    rw [consumed?_concat] at h
    obtain ⟨k, hk, h⟩ := Option.bind_eq_some_iff.1 h
    obtain ⟨m, hm, rfl⟩ := Option.map_eq_some_iff.1 h
    rw [List.take_add]
    exact .concat (denotes_take_of_consumed? hk) (denotes_take_of_consumed? hm)
  | .alt l r, w, n, h =>
    (longer?_eq_some h).elim (fun h => .left (denotes_take_of_consumed? h))
      fun h => .right (denotes_take_of_consumed? h)
  | .star e, w, n, h => by
    cases h
    have hread := staysInside_consumed? e
    induction w using repeatedReading_induction hread with
    | stop w h => rw [repeatedFrom_of_stalls h]; exact .stop
    | piece w n h ih =>
      rw [repeatedFrom_of_piece hread h, List.take_add]
      exact .again (denotes_take_of_consumed? h) ih
  | .nil, w, n, h => by
    cases h
    exact .nil
  | .empty, w, n, h => by cases h

/-- **What an expression reads it matches.** -/
theorem accepts_take_of_consumed? (h : e.consumed? w = some n) : e.accepts (w.take n) = true :=
  accepts_iff.2 (denotes_take_of_consumed? h)

/-- Of a piece that is not empty it is known that it is matched. -/
theorem accepts_consume_of_ne_nil (h : (e.consume w).1 ≠ []) :
    e.accepts (e.consume w).1 = true := by
  unfold consume at h ⊢
  split
  · rename_i n hn
    exact accepts_take_of_consumed? hn
  · rename_i hnone
    rw [hnone] at h
    exact absurd rfl h

/-! ## 3. What is read of a simplified expression -/

@[simp] theorem longer?_none_right (x : Option Nat) : longer? x none = x := by cases x <;> rfl

@[simp] theorem longer?_self (x : Option Nat) : longer? x x = x := by
  cases x <;> simp [longer?]

theorem longer?_assoc (x y z : Option Nat) :
    longer? (longer? x y) z = longer? x (longer? y z) := by
  cases x <;> cases y <;> cases z <;> grind [longer?]

/-- An empty reading is never the longer one. -/
@[simp] theorem longer?_zero_left (n : Nat) : longer? (some 0) (some n) = some n := by
  cases n <;> rfl

@[simp] theorem longer?_zero_right (n : Nat) : longer? (some n) (some 0) = some n := by
  simp [longer?]

theorem consumed?_concat_assoc (a b c : Regex) :
    (concat (concat a b) c).consumed? w = (concat a (concat b c)).consumed? w := by
  simp only [consumed?_concat]
  cases a.consumed? w with
  | none => rfl
  | some n =>
    rw [Option.bind_some, Option.bind_some]
    cases b.consumed? (w.drop n) with
    | none => rfl
    | some m => simp [Option.map_map, Function.comp_def, Nat.add_assoc]

/-- The repetition of a repetition reads one piece: what the inner one reads. -/
theorem consumed?_star_star (e : Regex) : (star (star e)).consumed? w = (star e).consumed? w := by
  have hread := staysInside_consumed? e
  have hstar : ∀ v, (star e).consumed? v = some (repeatedFrom e.consumed? 0 v) := fun _ => rfl
  have hpieces : repeatedFrom (star e).consumed? 0 w = repeatedFrom e.consumed? 0 w := by
    cases h : repeatedFrom e.consumed? 0 w with
    | zero =>
      refine repeatedFrom_of_stalls fun n hn => ?_
      rw [hstar, h] at hn
      cases hn
    | succ n =>
      have hpiece : (star e).consumed? w = some (n + 1) := by rw [hstar, h]
      have hstalls : Stalls (star e).consumed? (w.drop (n + 1)) := by
        intro k hk
        rw [hstar, ← h, repeatedFrom_behind hread] at hk
        cases hk
      rw [repeatedFrom_of_piece (staysInside_consumed? (star e)) hpiece,
        repeatedFrom_of_stalls hstalls]
  exact congrArg some hpieces

theorem consumed?_reduceConcat (l r : Regex) :
    (reduceConcat l r).consumed? w = (concat l r).consumed? w := by
  fun_cases reduceConcat l r
  · rfl
  · rw [consumed?_concat]
    cases l.consumed? w <;> rfl
  · simp [consumed?]
  · rw [consumed?_concat]
    cases l.consumed? w <;> rfl
  · exact (consumed?_concat_assoc _ _ _).symm
  · rfl

theorem consumed?_reduceAltOfNe (l r : Regex) :
    (reduceAltOfNe l r).consumed? w = (alt l r).consumed? w := by
  fun_cases reduceAltOfNe l r
  · simp [consumed?]
  · simp [consumed?]
  · simp only [consumed?, longer?_assoc]
  · -- of `l | (l | b)` the first `l` disappears
    simp only [consumed?, ← longer?_assoc, longer?_self]
  · rfl
  · rfl

theorem consumed?_reduceAlt (l r : Regex) :
    (reduceAlt l r).consumed? w = (alt l r).consumed? w := by
  fun_cases reduceAlt l r
  · rfl
  · simp [consumed?]
  · simp [consumed?]
  · exact consumed?_reduceAltOfNe _ _

theorem consumed?_reduceStar (e : Regex) :
    (reduceStar e).consumed? w = (star e).consumed? w := by
  fun_cases reduceStar e
  · exact congrArg some (repeatedFrom_of_stalls fun n hn => by cases hn).symm
  · exact congrArg some (repeatedFrom_of_stalls fun n hn => by cases hn).symm
  · exact (consumed?_star_star _).symm
  · rfl

theorem consumed?_pass : ∀ e : Regex, e.pass.consumed? = e.consumed?
  | .symbol _ | .nil | .empty => rfl
  | .concat l r => by
    funext w
    rw [pass, consumed?_reduceConcat]
    simp only [consumed?, consumed?_pass l, consumed?_pass r]
  | .alt l r => by
    funext w
    rw [pass, consumed?_reduceAlt]
    simp only [consumed?, consumed?_pass l, consumed?_pass r]
  | .star e => by
    funext w
    rw [pass, consumed?_reduceStar]
    simp only [consumed?, consumed?_pass e]

/-- **A simplified expression reads exactly as far**, and fails where the expression fails. -/
theorem consumed?_simplify (e : Regex) : e.simplify.consumed? = e.consumed? :=
  simplify_of_pass (fun f hf => (consumed?_pass f).trans hf) e rfl

theorem consume_simplify (e : Regex) (w : Word) : e.simplify.consume w = e.consume w := by
  rw [consume, consume, consumed?_simplify]

end Regex

end RegularLanguages
