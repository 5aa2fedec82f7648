import Mathlib.Algebra.BigOperators.Group.Finset.Basic
import RegularLanguages.Automaton.Tableau
import RegularLanguages.Proofs.Automaton.Table
import RegularLanguages.Proofs.Automaton.LinearSystem

/-!
# What elimination in place keeps

A program on cells is followed access by access. A loop that rewrites the cells of one row reads,
for each of them, what stood there before the loop, because no two rounds meet in a cell and the row
of the eliminated unknown is not touched. So the two steps for an unknown replace whole rows at
once, and on the equations that the rows stand for they are freeing and substituting.

* `Tableau.after_free`, `Tableau.after_substitute` -- the rows that the steps leave;
* `Tableau.equation_freed`, `Tableau.equation_substituted`, `Tableau.rows_eliminate` -- **in place,
  the equations are eliminated as in a system of their own**;
* `Tableau.Invariant` -- the languages solve the equations that are left, and no cell of these leads
  to an eliminated unknown; `Invariant.eliminate`, the step, and `Invariant.eliminateDown`, the run;
* `Automaton.elimination_invariant` -- **what holds of the cells of an automaton after each
  unknown**, up to its expression at the end.
-/

open Computability

namespace RegularLanguages

namespace Tableau

variable {t : Tableau} {i j k m n : Nat} {e : Regex}

/-! ## 1. Cells -/

theorem ext {s t : Tableau} (ha : ∀ i j, s.coefficient i j = t.coefficient i j)
    (hb : ∀ i, s.constant i = t.constant i) : s = t := by
  cases s
  cases t
  congr
  · exact funext fun i => funext (ha i)
  · exact funext hb

@[simp] theorem coefficient_setCoefficient {i' j' : Nat} :
    (t.setCoefficient i j e).coefficient i' j' =
      if i' = i ∧ j' = j then e else t.coefficient i' j' := rfl

@[simp] theorem constant_setCoefficient : (t.setCoefficient i j e).constant = t.constant := rfl

@[simp] theorem coefficient_setConstant : (t.setConstant i e).coefficient = t.coefficient := rfl

@[simp] theorem constant_setConstant {i' : Nat} :
    (t.setConstant i e).constant i' = if i' = i then e else t.constant i' := rfl

theorem setCoefficient_setCoefficient {e' : Regex} :
    (t.setCoefficient i j e').setCoefficient i j e = t.setCoefficient i j e := by
  refine ext (fun i' j' => ?_) fun _ => rfl
  simp only [coefficient_setCoefficient]
  split <;> rfl

theorem setCoefficient_coefficient : t.setCoefficient i j (t.coefficient i j) = t := by
  refine ext (fun i' j' => ?_) fun _ => rfl
  simp +contextual

theorem setConstant_setConstant {e' : Regex} :
    (t.setConstant i e').setConstant i e = t.setConstant i e := by
  refine ext (fun _ _ => rfl) fun i' => ?_
  simp only [constant_setConstant]
  split <;> rfl

/-! ## 2. Programs -/

/-- The cells that a program leaves. -/
def after (x : StateM Tableau Unit) (t : Tableau) : Tableau := (x.run t).2

theorem after_pure : after (pure ()) t = t := rfl

theorem after_get (x : Tableau → StateM Tableau Unit) : after (get >>= x) t = after (x t) t := rfl

theorem after_takeCoefficient (x : Regex → StateM Tableau Unit) :
    after (takeCoefficient i j >>= x) t =
      after (x (t.coefficient i j)) (t.setCoefficient i j .empty) := rfl

theorem after_takeConstant (x : Regex → StateM Tableau Unit) :
    after (takeConstant i >>= x) t = after (x (t.constant i)) (t.setConstant i .empty) := rfl

theorem after_putCoefficient : after (putCoefficient i j e) t = t.setCoefficient i j e := rfl

theorem after_putConstant (x : StateM Tableau Unit) :
    after (putConstant i e >>= fun _ => x) t = after x (t.setConstant i e) := rfl

theorem after_forM (x : Nat → StateM Tableau Unit) : ∀ (l : List Nat) (t : Tableau),
    after (l.forM x) t = l.foldl (fun t j => after (x j) t) t
  | [], _ => rfl
  | j :: l, t => after_forM x l (after (x j) t)

/-! ## 3. Rows -/

/-- The cells with one row replaced: its coefficients and its constant. -/
def setRow (t : Tableau) (i : Nat) (f : Nat → Regex) (e : Regex) : Tableau where
  coefficient i' j := if i' = i then f j else t.coefficient i' j
  constant i' := if i' = i then e else t.constant i'

variable {f : Nat → Regex}

@[simp] theorem coefficient_setRow {i' : Nat} :
    (t.setRow i f e).coefficient i' j = if i' = i then f j else t.coefficient i' j := rfl

@[simp] theorem constant_setRow {i' : Nat} :
    (t.setRow i f e).constant i' = if i' = i then e else t.constant i' := rfl

/-- A loop over cells of one row. What comes into a cell depends on the other cells of the row as
they are before the loop. -/
theorem foldl_setCoefficient {g : Tableau → Nat → Regex}
    (hg : ∀ t j j' e, j' ≠ j → g (t.setCoefficient i j e) j' = g t j') :
    ∀ (l : List Nat) (t : Tableau), l.Nodup →
      l.foldl (fun t j => t.setCoefficient i j (g t j)) t =
        t.setRow i (fun j => if j ∈ l then g t j else t.coefficient i j) (t.constant i)
  | [], t, _ => by
    refine ext (fun i' j' => ?_) fun i' => ?_
    · simp +contextual
    · simp +contextual
  | j :: l, t, h => by
    obtain ⟨hj, hl⟩ := List.nodup_cons.1 h
    rw [List.foldl_cons, foldl_setCoefficient hg l _ hl]
    refine ext (fun i' j' => ?_) fun _ => rfl
    have hrest : j' ∈ l → g (t.setCoefficient i j (g t j)) j' = g t j' := fun hj' =>
      hg t j j' _ fun e => hj (e ▸ hj')
    simp only [coefficient_setRow, coefficient_setCoefficient, List.mem_cons]
    grind

/-! ## 4. The steps for one unknown -/

/-- An expression behind the repetition of the coefficient of an unknown in its own equation. -/
def behind (own e : Regex) : Regex := if own = .empty then e else own.repetition.sequence e

/-- The cells when the equation of an unknown is solved for it. -/
def freed (t : Tableau) (k : Nat) : Tableau :=
  t.setRow k
    (fun j => if j < k then behind (t.coefficient k k) (t.coefficient k j)
      else if j = k then .empty else t.coefficient k j)
    (behind (t.coefficient k k) (t.constant k))

theorem after_free (k : Nat) (t : Tableau) : after (free k) t = t.freed k := by
  by_cases h : t.coefficient k k = .empty
  · rw [free, after_takeCoefficient, if_neg (not_not_intro h), after_pure]
    refine ext (fun i j => ?_) fun i => ?_
    · simp only [freed, behind, h, if_true, coefficient_setRow, coefficient_setCoefficient]
      grind
    · simp only [freed, behind, h, if_true, constant_setRow, constant_setCoefficient]
      grind
  · rw [free, after_takeCoefficient, if_pos h, after_takeConstant, after_putConstant,
      setConstant_setConstant, after_forM]
    simp only [after_takeCoefficient, after_putCoefficient, setCoefficient_setCoefficient]
    rw [foldl_setCoefficient (g := fun s j => (t.coefficient k k).repetition.sequence
      (s.coefficient k j)) (fun s j j' e hj => by simp [hj]) _ _ List.nodup_range]
    refine ext (fun i j => ?_) fun i => ?_
    · simp only [freed, behind, h, if_false, coefficient_setRow, coefficient_setConstant,
        coefficient_setCoefficient, List.mem_range]
      grind
    · simp only [freed, behind, h, if_false, constant_setRow, constant_setConstant,
        constant_setCoefficient]
      grind

/-- A coefficient with the way through an unknown added, if there is one. -/
def through (via direct onward : Regex) : Regex :=
  if via = .empty then direct else Equation.throughFirst via direct onward

/-- The cells when an unknown is replaced in the equation of another one. -/
def substituted (t : Tableau) (k i : Nat) : Tableau :=
  t.setRow i
    (fun j => if j < k then through (t.coefficient i k) (t.coefficient i j) (t.coefficient k j)
      else if j = k then .empty else t.coefficient i j)
    (if t.coefficient i k = .empty then t.constant i
      else (t.constant i).choice ((t.coefficient i k).sequence (t.constant k)))

/-- One round of the loop of a substitution. -/
theorem after_addThrough (via : Regex) (t : Tableau) : after (do
    let onward := (← get).coefficient k j
    if onward ≠ .empty then
      putCoefficient i j ((← takeCoefficient i j).choice (via.sequence onward))) t =
    t.setCoefficient i j
      (Equation.throughFirst via (t.coefficient i j) (t.coefficient k j)) := by
  rw [after_get]
  by_cases h : t.coefficient k j = .empty
  · rw [if_neg (not_not_intro h), after_pure, Equation.throughFirst, if_pos h,
      setCoefficient_coefficient]
  · rw [if_pos h, after_takeCoefficient, after_putCoefficient, setCoefficient_setCoefficient,
      Equation.throughFirst, if_neg h]

theorem after_substitute (hik : i ≠ k) (t : Tableau) :
    after (substitute k i) t = t.substituted k i := by
  by_cases h : t.coefficient i k = .empty
  · rw [substitute, after_takeCoefficient, if_neg (not_not_intro h), after_pure]
    refine ext (fun i' j => ?_) fun i' => ?_
    · simp only [substituted, through, h, if_true, coefficient_setRow, coefficient_setCoefficient]
      grind
    · simp only [substituted, h, if_true, constant_setRow, constant_setCoefficient]
      grind
  · rw [substitute, after_takeCoefficient, if_pos h, after_takeConstant, after_get,
      after_putConstant, setConstant_setConstant, after_forM]
    simp only [after_addThrough]
    rw [foldl_setCoefficient (g := fun s j => Equation.throughFirst (t.coefficient i k)
      (s.coefficient i j) (s.coefficient k j)) (fun s j j' e hj => by simp [hj]) _ _
      List.nodup_range]
    refine ext (fun i' j => ?_) fun i' => ?_
    · simp only [substituted, through, h, if_false, coefficient_setRow, coefficient_setConstant,
        coefficient_setCoefficient, List.mem_range]
      grind
    · simp only [substituted, h, if_false, constant_setRow, constant_setConstant,
        constant_setCoefficient, hik.symm]
      grind

/-- A loop of substitutions of one unknown. A round changes the equation that it is for, and reads
that one and the equation of the unknown, which stays as it is. -/
theorem foldl_substituted : ∀ (l : List Nat) (t : Tableau), l.Nodup → k ∉ l →
    (∀ j, (l.foldl (fun t i => t.substituted k i) t).coefficient i j =
      if i ∈ l then (t.substituted k i).coefficient i j else t.coefficient i j) ∧
    (l.foldl (fun t i => t.substituted k i) t).constant i =
      if i ∈ l then (t.substituted k i).constant i else t.constant i
  | [], t, _, _ => by simp
  | i' :: l, t, h, hk => by
    obtain ⟨hi, hl⟩ := List.nodup_cons.1 h
    obtain ⟨hne, hk⟩ := not_or.1 (mt List.mem_cons.2 hk)
    obtain ⟨hcoefficient, hconstant⟩ := foldl_substituted l (t.substituted k i') hl hk
    rw [List.foldl_cons, hconstant]
    simp only [hcoefficient, List.mem_cons]
    simp only [substituted, coefficient_setRow, constant_setRow]
    grind

theorem after_eliminate (k : Nat) (t : Tableau) : after (eliminate k) t =
    (List.range k).foldl (fun t i => t.substituted k i) (t.freed k) := by
  have hrun : after (eliminate k) t = after ((List.range k).forM (substitute k))
      (after (free k) t) := rfl
  rw [hrun, after_forM, after_free]
  refine List.foldl_ext _ _ _ fun t' i hi => ?_
  exact after_substitute (List.mem_range.1 hi).ne t'

/-! ## 5. Equations -/

/-- The equation of an unknown, of which the unknowns before `k` are left. -/
def equation (t : Tableau) (k i : Nat) : Equation where
  coefficients := (List.range k).reverse.map (t.coefficient i)
  constant := t.constant i

/-- The equations of the unknowns before `k`, the last one first. -/
def rows (t : Tableau) (k : Nat) : LinearSystem := (List.range k).reverse.map (t.equation k)

theorem range_succ_reverse : (List.range (k + 1)).reverse = k :: (List.range k).reverse := by
  simp [List.range_succ]

/-- Lists over the unknowns before `k` are the same if they are at each of these. -/
theorem map_range_reverse_congr {α : Type} {f g : Nat → α} (h : ∀ j < k, f j = g j) :
    (List.range k).reverse.map f = (List.range k).reverse.map g :=
  List.map_congr_left fun j hj => h j (List.mem_range.1 (List.mem_reverse.1 hj))

/-- **Solving an equation in its cells frees it.** -/
theorem equation_freed : (t.freed k).equation k k = (t.equation (k + 1) k).freed := by
  have hrow : (List.range k).reverse.map ((t.freed k).coefficient k) =
      (List.range k).reverse.map fun j => behind (t.coefficient k k) (t.coefficient k j) := by
    refine map_range_reverse_congr fun j hj => ?_
    simp [freed, hj]
  rw [equation, equation, Equation.freed, range_succ_reverse, List.map_cons, hrow]
  by_cases h : t.coefficient k k = .empty
  · simp [freed, behind, h]
  · simp [freed, behind, h, Function.comp_def]

/-- **Substituting in the cells of an equation substitutes in it.** -/
theorem equation_substituted : (t.substituted k i).equation k i =
    (t.equation k k).substitute (t.equation (k + 1) i) := by
  have hrow : (List.range k).reverse.map ((t.substituted k i).coefficient i) =
      (List.range k).reverse.map fun j =>
        through (t.coefficient i k) (t.coefficient i j) (t.coefficient k j) := by
    refine map_range_reverse_congr fun j hj => ?_
    simp [substituted, hj]
  rw [equation, equation, equation, Equation.substitute, range_succ_reverse, List.map_cons, hrow]
  by_cases h : t.coefficient i k = .empty
  · simp [substituted, through, h]
  · have hzip : ((List.range k).reverse.map (t.coefficient i)).zipWith
        (Equation.throughFirst (t.coefficient i k)) ((List.range k).reverse.map (t.coefficient k)) =
          (List.range k).reverse.map fun j =>
            Equation.throughFirst (t.coefficient i k) (t.coefficient i j) (t.coefficient k j) := by
      rw [List.zipWith_map, List.zipWith_self]
    simp only [substituted, through, h, if_false, constant_setRow, if_true, hzip]

/-- The cells of an unknown before `k` when `k` is eliminated. -/
theorem after_eliminate_cells (hik : i < k) (t : Tableau) :
    (∀ j, (after (eliminate k) t).coefficient i j =
        ((t.freed k).substituted k i).coefficient i j) ∧
      (after (eliminate k) t).constant i = ((t.freed k).substituted k i).constant i := by
  have hcells := foldl_substituted (i := i) (List.range k) (t.freed k) List.nodup_range
    List.not_mem_range_self
  rw [after_eliminate]
  simpa [hik] using hcells

/-- **Eliminating an unknown in the cells eliminates it from the equations.** -/
theorem rows_eliminate (k : Nat) (t : Tableau) : (after (eliminate k) t).rows k =
    LinearSystem.eliminate (t.equation (k + 1) k)
      ((List.range k).reverse.map (t.equation (k + 1))) := by
  rw [rows, LinearSystem.eliminate, List.map_map]
  refine map_range_reverse_congr fun i hik => ?_
  obtain ⟨hcoefficient, hconstant⟩ := after_eliminate_cells hik t
  have hequation : (after (eliminate k) t).equation k i =
      ((t.freed k).substituted k i).equation k i := by
    rw [equation, equation, funext hcoefficient, hconstant]
  have hother : (t.freed k).equation (k + 1) i = t.equation (k + 1) i := by
    simp [equation, freed, hik.ne]
  rw [hequation, equation_substituted, equation_freed, hother]
  rfl

theorem rows_succ : t.rows (k + 1) =
    t.equation (k + 1) k :: (List.range k).reverse.map (t.equation (k + 1)) := by
  rw [rows, range_succ_reverse, List.map_cons]

/-! ## 6. The unknowns one after the other -/

/-- What holds when the unknowns from `m` on are eliminated. -/
structure Invariant (x : Nat → Language Symbol) (m : Nat) (t : Tableau) : Prop where
  /-- The languages solve the equations of the unknowns before `m`. -/
  solves : (t.rows m).Solves ((List.range m).reverse.map x)
  /-- No cell of these equations leads to an eliminated unknown. -/
  cleared : ∀ i j, i < m → m ≤ j → t.coefficient i j = .empty

variable {x : Nat → Language Symbol}

/-- **The elimination of one unknown keeps the invariant.** -/
theorem Invariant.eliminate (h : Invariant x (k + 1) t) :
    Invariant x k (after (eliminate k) t) where
  solves := by
    have hsolves := h.solves
    rw [rows_succ, range_succ_reverse, List.map_cons] at hsolves
    rw [rows_eliminate]
    exact hsolves.eliminate
  cleared i j hi hj := by
    rw [(after_eliminate_cells hi t).1 j]
    by_cases hjk : j = k
    · simp [substituted, hjk]
    · -- the cells behind column `k` are not touched
      have hlater : t.coefficient i j = .empty := h.cleared i j (by omega) (by omega)
      simp [substituted, freed, hjk, hj.not_gt, hi.ne, hlater]

theorem after_eliminateDown_self (t : Tableau) : after (eliminateDown n n) t = t := by
  rw [eliminateDown, Nat.sub_self]
  rfl

theorem after_eliminateDown (hm : m < n) (t : Tableau) : after (eliminateDown n m) t =
    after (eliminate m) (after (eliminateDown n (m + 1)) t) := by
  obtain ⟨d, rfl⟩ := Nat.exists_eq_add_of_lt hm
  have hlength : m + d + 1 - m = d + 1 := by omega
  have hrest : m + d + 1 - (m + 1) = d := by omega
  rw [eliminateDown, eliminateDown, hlength, hrest, List.range'_succ, List.reverse_cons,
    after_forM, after_forM, List.foldl_append]
  rfl

/-- **The invariant holds each time an unknown is eliminated** if it holds at the beginning. -/
theorem Invariant.eliminateDown (h : Invariant x n t) (hm : m ≤ n) :
    Invariant x m (after (eliminateDown n m) t) := by
  induction hm using Nat.decreasingInduction with
  | self => rwa [after_eliminateDown_self]
  | of_succ m hm ih =>
    rw [after_eliminateDown hm]
    exact ih.eliminate

/-- A combination of numbered languages as a sum. -/
theorem combination_range (c : Nat → Regex) : ∀ k,
    combination ((List.range k).reverse.map c) ((List.range k).reverse.map x) =
      ∑ j ∈ Finset.range k, (c j).language * x j
  | 0 => rfl
  | k + 1 => by
    rw [range_succ_reverse, List.map_cons, List.map_cons, combination_cons, combination_range c k,
      Finset.sum_range_succ, add_comm]

/-- The equation of an unknown that is left. -/
theorem Invariant.eq_sum (h : Invariant x m t) (hi : i < m) :
    x i = ∑ j ∈ Finset.range m, (t.coefficient i j).language * x j + (t.constant i).language := by
  have hsolves := h.solves
  rw [LinearSystem.Solves, rows, List.forall₂_map_left_iff, List.forall₂_map_right_iff,
    List.forall₂_same] at hsolves
  obtain ⟨_, hvalue⟩ := hsolves i (List.mem_reverse.2 (List.mem_range.2 hi))
  rw [← combination_range]
  exact hvalue

/-- Eliminating unknowns does not change the solution, as long as one is left. -/
theorem solve_rows_eliminateDown (t : Tableau) (hm : m ≤ n) (hpos : 0 < m) :
    ((after (eliminateDown n m) t).rows m).solve = (t.rows n).solve := by
  induction hm using Nat.decreasingInduction with
  | self => rw [after_eliminateDown_self]
  | of_succ m hm ih =>
    rw [← ih m.succ_pos, after_eliminateDown hm, rows_eliminate, rows_succ]
    obtain ⟨d, rfl⟩ := Nat.exists_eq_add_of_lt hpos
    rw [range_succ_reverse, List.map_cons, LinearSystem.solve]

/-- **The constant of the unknown 0 solves the equations.** -/
theorem constant_eliminateDown (t : Tableau) (hn : 0 < n) :
    (after (eliminateDown n 0) t).constant 0 = (t.rows n).solve := by
  rw [← solve_rows_eliminateDown t hn Nat.one_pos, after_eliminateDown hn, after_eliminate]
  generalize after (eliminateDown n (0 + 1)) t = t'
  have hlast : (t'.rows 1).solve = (t'.equation 1 0).freed.constant := by
    rw [rows_succ, List.range_zero, List.reverse_nil, List.map_nil, LinearSystem.solve]
  rw [hlast, ← equation_freed]
  rfl

end Tableau

/-! ## 7. The cells of an automaton -/

namespace Automaton

variable {a : Automaton} {i j m : Nat}

theorem unknowns_eq_map_unknownAt (a : Automaton) :
    a.unknowns = (List.range a.numbering.length).reverse.map a.unknownAt := by
  have hnumbering : (List.range a.numbering.length).map a.unknownAt = a.numbering := by
    refine List.ext_getElem (by simp) fun i _ hi => ?_
    simp [unknownAt, hi]
  rw [List.map_reverse, hnumbering, unknowns, numbering, List.reverse_cons]

/-- **The cells hold the equations of the automaton.** -/
theorem rows_tableau (a : Automaton) : a.tableau.rows a.numbering.length = a.linearSystem := by
  rw [Tableau.rows, linearSystem, unknowns_eq_map_unknownAt, List.map_map]
  refine Tableau.map_range_reverse_congr fun i hi => ?_
  rw [Tableau.equation, Function.comp_apply, equation, unknowns_eq_map_unknownAt, List.map_map]
  congr 1
  · refine Tableau.map_range_reverse_congr fun j hj => ?_
    simp [tableau, hi, hj]
  · simp [tableau, hi]

/-- The languages of the states fit the cells in the beginning. -/
theorem invariant_tableau (ha : a.WellFormed) (he : a.EpsilonFree) :
    Tableau.Invariant (fun i => a.languageFrom (a.unknownAt i)) a.numbering.length a.tableau where
  solves := by
    have hsolves := solves_linearSystem ha he
    rwa [← rows_tableau, unknowns_eq_map_unknownAt, List.map_map] at hsolves
  cleared i j _ hj := by
    simp [tableau, hj.not_gt]

/-- **What elimination in place keeps.** When the unknowns from some one on are eliminated, the
words from each unknown before it are those behind the coefficients that are left, and the constant;
the coefficients of the eliminated ones are empty. In the end the first constant is the
expression of the automaton. -/
theorem elimination_invariant (ha : a.WellFormed) (he : a.EpsilonFree) :
    (∀ m ≤ a.numbering.length, ∀ i < m,
      a.languageFrom (a.unknownAt i) =
          ∑ j ∈ Finset.range m,
            ((a.eliminated m).coefficient i j).language * a.languageFrom (a.unknownAt j) +
          ((a.eliminated m).constant i).language ∧
        ∀ j, m ≤ j → (a.eliminated m).coefficient i j = .empty) ∧
      a.toRegexRaw = (a.eliminated 0).constant 0 := by
  refine ⟨fun m hm i hi => ?_, ?_⟩
  · have h := (invariant_tableau ha he).eliminateDown hm
    exact ⟨h.eq_sum hi, fun j hj => h.cleared i j hi hj⟩
  · rw [toRegexRaw, ← rows_tableau]
    exact (Tableau.constant_eliminateDown a.tableau (Nat.succ_pos _)).symm

/-- An automaton with two ways from its start, one of which comes back from a state with a loop. -/
def detour : Automaton :=
  ofRows "p" ['x', 'y'] [⟨"p", false, [(.symbol 'x', "q"), (.symbol 'y', "r")]⟩,
    ⟨"q", true, [(.symbol 'y', "q")]⟩,
    ⟨"r", false, [(.symbol 'x', "r"), (.symbol 'y', "p"), (.symbol 'y', "q")]⟩]

theorem elimination_invariant_detour : detour.WellFormed ∧ detour.EpsilonFree ∧
    2 < detour.numbering.length ∧ detour.unknownAt 0 = "p" ∧
    (detour.eliminated 2).coefficient 0 0 =
      .concat (.symbol 'y') (.concat (.star (.symbol 'x')) (.symbol 'y')) ∧
    detour.languageFrom (detour.unknownAt 0) =
      ∑ j ∈ Finset.range 2,
        ((detour.eliminated 2).coefficient 0 j).language *
          detour.languageFrom (detour.unknownAt j) +
        ((detour.eliminated 2).constant 0).language ∧
    detour.toRegexRaw = (detour.eliminated 0).constant 0 := by
  have ha : detour.WellFormed := wellFormed_ofRows
  have he : detour.EpsilonFree := fun p => by
    refine List.eq_nil_iff_forall_not_mem.2 fun q hq => ?_
    simp [detour, mem_successors_ofRows] at hq
  have hlength : 2 < detour.numbering.length := by decide +kernel
  obtain ⟨hinvariant, hraw⟩ := elimination_invariant ha he
  obtain ⟨hsum, _⟩ := hinvariant 2 hlength.le 0 (by decide)
  exact ⟨ha, he, hlength, by decide +kernel, by decide +kernel, hsum, hraw⟩

end Automaton

end RegularLanguages
