import Mathlib.Logic.Function.Iterate
import RegularLanguages.Regex.Simplification

/-!
# Simplified expressions are normal

A pass rewrites all subexpressions at once, and some of what it does keeps the size. That a pass
which changes nothing has found nothing to do is read off the weight: what a subexpression loses in
weight no other one gains, so the pass has left each of them as it is.

* `reduceConcat_eq_iff`, `reduceAlt_eq_iff`, `reduceStar_eq_iff` -- an operator over its operands is
  left as it is iff it is no redex;
* `pass_eq_iff` -- **a pass leaves exactly the normal expressions as they are**;
* `size_pass_le` -- **a pass does not enlarge an expression**;
* `exists_iterate_pass` -- simplification is the first of the passes that changes nothing;
* `simplify_normalizes` -- **it ends, in a normal expression that is not larger**.
-/

namespace RegularLanguages.Regex

variable {e f l r : Regex}

/-! ## 1. Redexes -/

/-- A redex for which something lighter is put does not stay what it is. -/
theorem eq_iff_of_lighter (he : e.IsRedex) (h : f.weight < e.weight) : f = e ↔ ¬ e.IsRedex :=
  iff_of_false (fun hf => absurd h (hf ▸ Nat.lt_irrefl e.weight)) (not_not_intro he)

theorem reduceConcat_eq_iff : reduceConcat l r = .concat l r ↔ ¬ (concat l r).IsRedex := by
  fun_cases reduceConcat l r with
  | case1 => exact eq_iff_of_lighter (.concatEmptyLeft _) (by simp only [weight]; omega)
  | case2 => exact eq_iff_of_lighter (.concatEmptyRight _) (by simp only [weight]; omega)
  | case3 => exact eq_iff_of_lighter (.concatNilLeft _) (by simp only [weight]; omega)
  | case4 => exact eq_iff_of_lighter (.concatNilRight _) (by simp only [weight]; omega)
  | case5 => exact eq_iff_of_lighter (.concatNested _ _ _) (by simp only [weight]; omega)
  | case6 l r hl hr hl' hr' hnested =>
    refine iff_of_true rfl fun h => ?_
    cases h with
    | concatEmptyLeft => exact hl rfl
    | concatEmptyRight => exact hr rfl
    | concatNilLeft => exact hl' rfl
    | concatNilRight => exact hr' rfl
    | concatNested a b => exact hnested a b rfl

theorem reduceAltOfNe_eq_iff (hl : l ≠ .empty) (hr : r ≠ .empty) (hne : l ≠ r) :
    reduceAltOfNe l r = .alt l r ↔ ¬ (alt l r).IsRedex := by
  fun_cases reduceAltOfNe l r with
  | case1 => exact eq_iff_of_lighter (.altNilStar _) (by simp only [weight]; omega)
  | case2 => exact eq_iff_of_lighter (.altStarNil _) (by simp only [weight]; omega)
  | case3 => exact eq_iff_of_lighter (.altNested _ _ _) (by simp only [weight]; omega)
  | case4 => exact eq_iff_of_lighter (.altSameFirst _ _) (by simp only [weight]; omega)
  | case5 l a b hnested hfirst =>
    refine iff_of_true rfl fun h => ?_
    cases h with
    | altEmptyLeft => exact hl rfl
    | altSame => exact hne rfl
    | altSameFirst => exact hfirst rfl
    | altNested a b => exact hnested a b rfl
  | case6 l r hnil hnil' hnested hnested' =>
    refine iff_of_true rfl fun h => ?_
    cases h with
    | altEmptyLeft => exact hl rfl
    | altEmptyRight => exact hr rfl
    | altSame => exact hne rfl
    | altSameFirst _ f => exact hnested' _ f rfl
    | altNested a b => exact hnested a b rfl
    | altNilStar e => exact hnil e rfl rfl
    | altStarNil e => exact hnil' e rfl rfl

theorem reduceAlt_eq_iff : reduceAlt l r = .alt l r ↔ ¬ (alt l r).IsRedex := by
  fun_cases reduceAlt l r with
  | case1 => exact eq_iff_of_lighter (.altEmptyLeft _) (by simp only [weight]; omega)
  | case2 => exact eq_iff_of_lighter (.altEmptyRight _) (by simp only [weight]; omega)
  | case3 => exact eq_iff_of_lighter (.altSame _) (by simp only [weight]; omega)
  | case4 l r hl hr hne => exact reduceAltOfNe_eq_iff hl hr hne

theorem reduceStar_eq_iff : reduceStar e = .star e ↔ ¬ (star e).IsRedex := by
  fun_cases reduceStar e with
  | case1 => exact eq_iff_of_lighter .starEmpty (by simp only [weight]; omega)
  | case2 => exact eq_iff_of_lighter .starNil (by simp only [weight]; omega)
  | case3 => exact eq_iff_of_lighter (.starStar _) (by simp only [weight]; omega)
  | case4 e hempty hnil hstar =>
    refine iff_of_true rfl fun h => ?_
    cases h with
    | starEmpty => exact hempty rfl
    | starNil => exact hnil rfl
    | starStar e => exact hstar e rfl

/-! ## 2. What a pass leaves as it is -/

theorem isNormal_concat_iff :
    (concat l r).IsNormal ↔ ¬ (concat l r).IsRedex ∧ l.IsNormal ∧ r.IsNormal := by
  simp only [IsNormal, subexpressions, List.forall_mem_cons, List.forall_mem_append]

theorem isNormal_alt_iff :
    (alt l r).IsNormal ↔ ¬ (alt l r).IsRedex ∧ l.IsNormal ∧ r.IsNormal := by
  simp only [IsNormal, subexpressions, List.forall_mem_cons, List.forall_mem_append]

theorem isNormal_star_iff : (star e).IsNormal ↔ ¬ (star e).IsRedex ∧ e.IsNormal := by
  simp only [IsNormal, subexpressions, List.forall_mem_cons]

/-- A pass leaves an operator with two operands as it is iff it changes neither operand and does not
reduce the operator: the two could not undo each other, since neither makes anything heavier. -/
theorem reduce_pass_eq_iff {reduce node : Regex → Regex → Regex}
    (hnode : ∀ l r, (node l r).weight = 2 * l.weight + r.weight + 1)
    (hreduce : ∀ l r, reduce l r = node l r ∨ (reduce l r).weight < (node l r).weight) :
    reduce l.pass r.pass = node l r ↔ reduce l r = node l r ∧ l.pass = l ∧ r.pass = r := by
  constructor
  · intro h
    have hsame : ¬ (reduce l.pass r.pass).weight < (node l r).weight := h ▸ Nat.lt_irrefl _
    obtain ⟨-, hl, hr⟩ := (weight_reduce_operands hnode hreduce
      (weight_reduce l) (weight_reduce r)).resolve_right hsame
    rw [hl, hr] at h
    exact ⟨h, hl, hr⟩
  · rintro ⟨h, hl, hr⟩
    rw [hl, hr, h]

theorem pass_concat_eq_iff : (concat l r).pass = .concat l r ↔
    reduceConcat l r = .concat l r ∧ l.pass = l ∧ r.pass = r :=
  reduce_pass_eq_iff (fun _ _ => rfl) weight_reduceConcat

theorem pass_alt_eq_iff : (alt l r).pass = .alt l r ↔
    reduceAlt l r = .alt l r ∧ l.pass = l ∧ r.pass = r :=
  reduce_pass_eq_iff (fun _ _ => rfl) weight_reduceAlt

theorem pass_star_eq_iff : (star e).pass = .star e ↔ reduceStar e = .star e ∧ e.pass = e := by
  constructor
  · intro h
    have hweight := weight_le_of (weight_reduceStar e.pass)
    rw [← pass, h] at hweight
    have he : e.pass = e :=
      (weight_reduce e).resolve_right (Nat.not_lt.2 (Nat.le_of_succ_le_succ hweight))
    rw [pass, he] at h
    exact ⟨h, he⟩
  · rintro ⟨h, he⟩
    rw [pass, he, h]

/-- **A pass leaves exactly the normal expressions as they are.** -/
theorem pass_eq_iff : ∀ e : Regex, e.pass = e ↔ e.IsNormal
  | .concat l r => by
    rw [pass_concat_eq_iff, isNormal_concat_iff, reduceConcat_eq_iff, pass_eq_iff l, pass_eq_iff r]
  | .alt l r => by
    rw [pass_alt_eq_iff, isNormal_alt_iff, reduceAlt_eq_iff, pass_eq_iff l, pass_eq_iff r]
  | .star e => by rw [pass_star_eq_iff, isNormal_star_iff, reduceStar_eq_iff, pass_eq_iff e]
  | .symbol _ | .nil | .empty => iff_of_true rfl (List.forall_mem_singleton.2 nofun)

/-! ## 3. Size -/

theorem size_reduceConcat_le (l r : Regex) : (reduceConcat l r).size ≤ (concat l r).size := by
  fun_cases reduceConcat l r <;> simp only [size] <;> omega

theorem size_reduceAltOfNe_le (l r : Regex) : (reduceAltOfNe l r).size ≤ (alt l r).size := by
  fun_cases reduceAltOfNe l r <;> simp only [size] <;> omega

theorem size_reduceAlt_le (l r : Regex) : (reduceAlt l r).size ≤ (alt l r).size := by
  fun_cases reduceAlt l r with
  | case4 => exact size_reduceAltOfNe_le l r
  | _ => simp only [size]; omega

theorem size_reduceStar_le (e : Regex) : (reduceStar e).size ≤ (star e).size := by
  fun_cases reduceStar e <;> simp only [size] <;> omega

/-- **A pass does not enlarge an expression.** -/
theorem size_pass_le : ∀ e : Regex, e.pass.size ≤ e.size
  | .concat l r => by
    have hl := size_pass_le l
    have hr := size_pass_le r
    have h := size_reduceConcat_le l.pass r.pass
    simp only [pass, size] at *
    omega
  | .alt l r => by
    have hl := size_pass_le l
    have hr := size_pass_le r
    have h := size_reduceAlt_le l.pass r.pass
    simp only [pass, size] at *
    omega
  | .star e => by
    have he := size_pass_le e
    have h := size_reduceStar_le e.pass
    simp only [pass, size] at *
    omega
  | .symbol _ | .nil | .empty => Nat.le_refl _

theorem size_simplify_le (e : Regex) : e.simplify.size ≤ e.size :=
  simplify_of_pass (fun f hf => Nat.le_trans (size_pass_le f) hf) e (Nat.le_refl _)

/-! ## 4. All passes -/

/-- **Simplification is the first of the passes that changes nothing.** -/
theorem exists_iterate_pass (e : Regex) : ∃ n, e.simplify = pass^[n] e ∧
    pass^[n + 1] e = pass^[n] e ∧ ∀ m < n, pass^[m + 1] e ≠ pass^[m] e := by
  fun_induction simplify e with
  | case1 e next h => exact ⟨0, rfl, h, fun m hm => absurd hm (Nat.not_lt_zero m)⟩
  | case2 e next h ih =>
    obtain ⟨n, hn, hlast, hbefore⟩ := ih
    refine ⟨n + 1, hn, hlast, fun m hm => ?_⟩
    cases m with
    | zero => exact h
    | succ m => exact hbefore m (Nat.lt_of_succ_lt_succ hm)

theorem pass_simplify (e : Regex) : e.simplify.pass = e.simplify := by
  obtain ⟨n, hn, hlast, -⟩ := exists_iterate_pass e
  rw [hn, ← Function.iterate_succ_apply' pass n e, hlast]

theorem isNormal_simplify (e : Regex) : e.simplify.IsNormal :=
  (pass_eq_iff e.simplify).1 (pass_simplify e)

/-- Simplification leaves exactly the normal expressions as they are. -/
theorem simplify_eq_iff : e.simplify = e ↔ e.IsNormal := by
  refine ⟨fun h => h ▸ isNormal_simplify e, fun h => ?_⟩
  rw [simplify]
  exact if_pos ((pass_eq_iff e).2 h)

theorem simplify_simplify (e : Regex) : e.simplify.simplify = e.simplify :=
  simplify_eq_iff.2 (isNormal_simplify e)

/-- **Simplification ends in a full normal form and does not enlarge an expression.** After some
number of passes the next one changes nothing for the first time. What they lead to has no more
nodes than the expression, and nothing in it can be simplified. -/
theorem simplify_normalizes (e : Regex) :
    (∃ n, e.simplify = pass^[n] e ∧ pass^[n + 1] e = pass^[n] e ∧
      ∀ m < n, pass^[m + 1] e ≠ pass^[m] e) ∧
    e.simplify.size ≤ e.size ∧ e.simplify.IsNormal :=
  ⟨exists_iterate_pass e, size_simplify_le e, isNormal_simplify e⟩

end RegularLanguages.Regex
