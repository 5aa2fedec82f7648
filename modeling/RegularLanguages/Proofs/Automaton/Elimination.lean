import RegularLanguages.Proofs.Automaton.LinearSystem
import RegularLanguages.Proofs.Automaton.Table
import RegularLanguages.Proofs.Regex.Symbols
import RegularLanguages.Proofs.Regex.TrivialLanguages

/-!
# What elimination keeps

Solving a linear system puts expressions together by the constructors that apply identities, and in
no other way. So whatever these constructors keep, and what holds of all expressions of a system,
holds of its solution, however the coefficients are moved about.

* `Regex.KeptByIdentities` -- a property that these constructors keep;
* `LinearSystem.solve_of_kept`, `Automaton.toRegexRaw_of_kept` -- **the solution of a system and the
  expression of an automaton have it**;
* `Automaton.leaves_toRegexRaw_subset` -- no symbol comes in;
* `Automaton.emptyOnlyAlone_toRegexRaw` -- nor does `empty`, unless as the whole expression;
* `toRegexRaw_detects_emptiness` -- **so the expression shows whether anything is recognized**.
-/

namespace RegularLanguages

/-! ## 1. Kept properties -/

namespace Regex

/-- A property of expressions that the constructors with identities keep. -/
structure KeptByIdentities (P : Regex → Prop) : Prop where
  sequence : ∀ {l r : Regex}, P l → P r → P (l.sequence r)
  choice : ∀ {l r : Regex}, P l → P r → P (l.choice r)
  repetition : ∀ {e : Regex}, P e → P e.repetition

/-- They bring no symbol in. -/
theorem keptByIdentities_leaves (cs : List Symbol) : KeptByIdentities (·.leaves ⊆ cs) where
  sequence := leaves_sequence_subset
  choice := leaves_choice_subset
  repetition := leaves_repetition_subset

/-- **They leave `empty` nowhere but at the root.** -/
theorem keptByIdentities_emptyOnlyAlone : KeptByIdentities EmptyOnlyAlone where
  sequence {l r} hl hr := by
    fun_cases sequence l r with
    | case1 => exact hl
    | case2 => exact hr
    | case3 => exact hr
    | case4 => exact hl
    | case5 l r hle hre =>
      intro h
      rcases empty_mem_concat.1 h with h | h
      · exact absurd (hl h) hle
      · exact absurd (hr h) hre
  choice {l r} hl hr := by
    fun_cases choice l r with
    | case1 => exact hr
    | case2 => exact hl
    | case3 => exact hl
    | case4 l r hle hre _ =>
      intro h
      rcases empty_mem_alt.1 h with h | h
      · exact absurd (hl h) hle
      · exact absurd (hr h) hre
  repetition {e} he := by
    fun_cases repetition e with
    | case1 => exact emptyOnlyAlone_of_subexpressions rfl
    | case2 => exact he
    | case3 e hne _ => exact fun h => absurd (he (empty_mem_star.1 h)) hne

end Regex

section Kept

variable {P : Regex → Prop} (hP : Regex.KeptByIdentities P)

/-! ## 2. Systems -/

namespace Equation

/-- All expressions of an equation have a property. -/
structure Satisfies (P : Regex → Prop) (e : Equation) : Prop where
  coefficients : ∀ x ∈ e.coefficients, P x
  constant : P e.constant

variable {e first : Equation}

include hP

theorem Satisfies.freed (h : e.Satisfies P) : e.freed.Satisfies P := by
  obtain ⟨hx, hc⟩ := h
  unfold Equation.freed
  split
  · exact ⟨hx, hc⟩
  · rename_i own others heq
    rw [heq, List.forall_mem_cons] at hx
    split
    · exact ⟨hx.2, hc⟩
    · have hrep : P own.repetition := hP.repetition hx.1
      refine ⟨fun x h => ?_, hP.sequence hrep hc⟩
      obtain ⟨y, hy, rfl⟩ := List.mem_map.1 h
      exact hP.sequence hrep (hx.2 y hy)

theorem throughFirst_of_kept {via direct onward : Regex} (hv : P via) (hd : P direct)
    (ho : P onward) : P (throughFirst via direct onward) := by
  unfold throughFirst
  split
  · exact hd
  · exact hP.choice hd (hP.sequence hv ho)

theorem Satisfies.substitute (hf : first.Satisfies P) (h : e.Satisfies P) :
    (first.substitute e).Satisfies P := by
  obtain ⟨hx, hc⟩ := h
  unfold Equation.substitute
  split
  · exact ⟨hx, hc⟩
  · rename_i via direct heq
    rw [heq, List.forall_mem_cons] at hx
    split
    · exact ⟨hx.2, hc⟩
    · refine ⟨fun x h => ?_, hP.choice hc (hP.sequence hx.1 hf.constant)⟩
      rw [← List.map_uncurry_zip_eq_zipWith] at h
      obtain ⟨⟨d, o⟩, hd, rfl⟩ := List.mem_map.1 h
      obtain ⟨hd, ho⟩ := List.of_mem_zip hd
      exact throughFirst_of_kept hP hx.1 (hx.2 d hd) (hf.coefficients o ho)

end Equation

include hP

/-- **What all expressions of a system have, its solution has.** -/
theorem LinearSystem.solve_of_kept (hempty : P .empty) (system : LinearSystem)
    (h : ∀ e ∈ system, e.Satisfies P) : P system.solve := by
  -- one unknown less with each step, and the equations that are left have the property
  fun_induction solve system with
  | case1 => exact hempty
  | case2 e => exact ((h e List.mem_cons_self).freed hP).constant
  | case3 e f others ih =>
    refine ih fun g hg => ?_
    obtain ⟨k, hk, rfl⟩ := List.mem_map.1 hg
    exact ((h e List.mem_cons_self).freed hP).substitute hP (h k (List.mem_cons_of_mem e hk))

/-! ## 3. Automata -/

namespace Automaton

variable {a : Automaton} {p q : StateName}

theorem symbolsTo_of_kept (hempty : P .empty) (hsymbol : ∀ c ∈ a.alphabet, P (.symbol c)) :
    P (a.symbolsTo p q) := by
  unfold symbolsTo
  have hfilter : ∀ c ∈ a.alphabet.toList.filter fun c => q ∈ a.successors p (.symbol c),
      P (.symbol c) := fun c hc => hsymbol c (List.mem_filter.1 hc).1
  generalize a.alphabet.toList.filter _ = cs at hfilter
  generalize Regex.empty = e at hempty
  induction cs generalizing e with
  | nil => exact hempty
  | cons c cs ih =>
    rw [List.forall_mem_cons] at hfilter
    exact ih hfilter.2 _ (hP.choice hempty hfilter.1)

/-- **What `empty`, `nil` and the symbols of the alphabet have, the expression of an automaton
has.** -/
theorem toRegexRaw_of_kept (a : Automaton) (hempty : P .empty) (hnil : P .nil)
    (hsymbol : ∀ c ∈ a.alphabet, P (.symbol c)) : P a.toRegexRaw := by
  refine LinearSystem.solve_of_kept hP hempty a.linearSystem fun e he => ?_
  obtain ⟨p, _, rfl⟩ := List.mem_map.1 he
  refine ⟨fun x hx => ?_, ?_⟩
  · obtain ⟨q, _, rfl⟩ := List.mem_map.1 hx
    exact symbolsTo_of_kept hP hempty hsymbol
  · unfold equation
    split
    · exact hnil
    · exact hempty

end Automaton

end Kept

namespace Automaton

variable {a : Automaton}

/-- The expression of an automaton keeps to the alphabet. -/
theorem leaves_toRegexRaw_subset (a : Automaton) : a.toRegexRaw.leaves ⊆ a.alphabet.toList :=
  a.toRegexRaw_of_kept (Regex.keptByIdentities_leaves _) (List.nil_subset _) (List.nil_subset _)
    fun _ hc => List.cons_subset.2 ⟨hc, List.nil_subset _⟩

theorem emptyOnlyAlone_toRegexRaw (a : Automaton) : a.toRegexRaw.EmptyOnlyAlone :=
  a.toRegexRaw_of_kept Regex.keptByIdentities_emptyOnlyAlone
    (Regex.emptyOnlyAlone_of_subexpressions rfl) (Regex.emptyOnlyAlone_of_subexpressions rfl)
    fun _ _ => Regex.emptyOnlyAlone_of_subexpressions rfl

/-- **The expression of an automaton shows whether anything is recognized**, before it is
simplified: `empty` occurs nowhere in its proper subexpressions, and it is `empty` itself iff no
word is recognized. It uses symbols of the alphabet only. -/
theorem toRegexRaw_detects_emptiness (ha : a.WellFormed) (he : a.EpsilonFree) :
    (∀ f ∈ a.toRegexRaw.children, .empty ∉ f.subexpressions) ∧
      (a.toRegexRaw = .empty ↔ ∀ w, ¬ a.Recognizes w) ∧
      ∀ c ∈ a.toRegexRaw.symbols, c ∈ a.alphabet := by
  have halone := emptyOnlyAlone_toRegexRaw a
  refine ⟨halone.not_mem_children, ?_, fun c hc => ?_⟩
  · rw [halone.eq_empty_iff]
    refine forall_congr' fun w => not_congr ?_
    rw [← Regex.mem_language, language_toRegexRaw ha he]
    exact mem_languageFrom
  · exact leaves_toRegexRaw_subset a (Regex.mem_symbols.1 hc)

/-- An automaton with two targets on a symbol, a loop and a state from which nothing is recognized. -/
def sidetracked : Automaton :=
  ofRows "p" ['x', 'y'] [⟨"p", false, [(.symbol 'x', "p"), (.symbol 'x', "q"), (.symbol 'y', "r")]⟩,
    ⟨"q", true, [(.symbol 'y', "p")]⟩, ⟨"r", false, [(.symbol 'x', "r")]⟩]

theorem toRegexRaw_detects_emptiness_sidetracked : sidetracked.WellFormed ∧
    sidetracked.EpsilonFree ∧ sidetracked.Recognizes ['x'] ∧ sidetracked.toRegexRaw ≠ .empty ∧
      (∀ f ∈ sidetracked.toRegexRaw.children, .empty ∉ f.subexpressions) ∧
      ∀ c ∈ sidetracked.toRegexRaw.symbols, c ∈ sidetracked.alphabet := by
  have ha : sidetracked.WellFormed := wellFormed_ofRows
  have he : sidetracked.EpsilonFree := fun p => by
    refine List.eq_nil_iff_forall_not_mem.2 fun q hq => ?_
    simp [sidetracked, mem_successors_ofRows] at hq
  have hword : sidetracked.Recognizes ['x'] := ⟨"q", .single (by decide +kernel), by decide +kernel⟩
  obtain ⟨hproper, hempty, halphabet⟩ := toRegexRaw_detects_emptiness ha he
  exact ⟨ha, he, hword, fun h => hempty.1 h ['x'] hword, hproper, halphabet⟩

end Automaton

end RegularLanguages
