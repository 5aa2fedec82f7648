import Mathlib.Data.List.Forall2
import RegularLanguages.Automaton.LinearSystem
import RegularLanguages.Proofs.Automaton.Path
import RegularLanguages.Proofs.Regex.Simplification

/-!
# Solving linear systems of languages

Languages solve an equation if its own one is the sum of the others, each behind its coefficient,
and the constant. Elimination keeps every solution. Since no coefficient stands for the empty word,
Arden's lemma leaves no second solution for an unknown, so the expression at the end has the
language of the last unknown.

* `LinearSystem.Solves` -- languages that solve a system of proper equations;
* `Equation.value_freed`, `Equation.value_substitute` -- what freeing and substituting do to the
  value of an equation, and `LinearSystem.Solves.eliminate`, the step;
* `language_solve` -- **the solution of a system has the language of the last unknown**;
* `solves_linearSystem`, `language_toRegexRaw` -- the languages of the states solve the system of an
  automaton, so its expression has the language of the start.
-/

open Computability

namespace RegularLanguages

variable {x : Language Symbol} {xs : List (Language Symbol)}

/-! ## 1. Values of equations -/

/-- The sum of the given languages, each behind its coefficient. -/
def combination : List Regex → List (Language Symbol) → Language Symbol
  | c :: cs, x :: xs => c.language * x + combination cs xs
  | _, _ => 0

@[simp] theorem combination_nil : combination [] xs = 0 := by
  cases xs <;> rfl

@[simp] theorem combination_cons (c : Regex) (cs : List Regex) :
    combination (c :: cs) (x :: xs) = c.language * x + combination cs xs := rfl

/-- A common factor in front of all coefficients. -/
theorem combination_map_sequence (e : Regex) : ∀ (cs : List Regex) (xs : List (Language Symbol)),
    combination (cs.map (e.sequence ·)) xs = e.language * combination cs xs
  | [], xs => by rw [List.map_nil, combination_nil, mul_zero]
  | c :: cs, [] => (mul_zero _).symm
  | c :: cs, x :: xs => by
    rw [List.map_cons, combination_cons, combination_cons, Regex.language_sequence,
      combination_map_sequence e cs xs, mul_add, mul_assoc]

/-- The words of a combination come from one of its summands. -/
theorem mem_combination_map {α : Type} (f : α → Regex) (g : α → Language Symbol) {w : Word} :
    ∀ {l : List α}, w ∈ combination (l.map f) (l.map g) ↔ ∃ q ∈ l, w ∈ (f q).language * g q
  | [] => by simp [Language.notMem_zero]
  | q :: l => by
    rw [List.map_cons, List.map_cons, combination_cons, Language.mem_add,
      mem_combination_map f g, List.exists_mem_cons_iff]

namespace Equation

/-- The language of an equation for given languages of the unknowns. -/
def value (e : Equation) (xs : List (Language Symbol)) : Language Symbol :=
  combination e.coefficients xs + e.constant.language

/-- An equation for the right number of unknowns, where no coefficient stands for the empty word. -/
structure Proper (e : Equation) (xs : List (Language Symbol)) : Prop where
  /-- There is a coefficient for each unknown. -/
  length_eq : e.coefficients.length = xs.length
  /-- No coefficient stands for the empty word. -/
  nil_notMem : ∀ c ∈ e.coefficients, [] ∉ c.language

variable {e first : Equation}

/-- A product has the empty word only if its second factor has it. -/
theorem nil_notMem_mul {y z : Language Symbol} (h : [] ∉ y ∨ [] ∉ z) : [] ∉ y * z := by
  intro hmem
  obtain ⟨u, hu, v, hv, e⟩ := Language.mem_mul.1 hmem
  obtain ⟨rfl, rfl⟩ := List.append_eq_nil_iff.1 e
  exact h.elim (fun h => h hu) (fun h => h hv)

/-- Freeing takes the first coefficient away and puts its repetition in front of the rest. -/
theorem value_freed {own : Regex} {others : List Regex} (h : e.coefficients = own :: others) :
    e.freed.value xs = own.language∗ * (combination others xs + e.constant.language) := by
  rw [freed, h]
  by_cases ho : own = .empty
  · simp [ho, value]
  · simp only [ho, if_false, value, combination_map_sequence, Regex.language_sequence,
      Regex.language_repetition, mul_add]

theorem Proper.exists_cons (hp : e.Proper (x :: xs)) : ∃ own others,
    e.coefficients = own :: others ∧ [] ∉ own.language ∧ others.length = xs.length ∧
      ∀ c ∈ others, [] ∉ c.language := by
  obtain ⟨hl, hn⟩ := hp
  cases hc : e.coefficients with
  | nil => rw [hc] at hl; cases hl
  | cons own others =>
    rw [hc] at hl hn
    exact ⟨own, others, rfl, hn own List.mem_cons_self, Nat.succ.inj hl,
      fun c h => hn c (List.mem_cons_of_mem own h)⟩

/-- **Arden's lemma**: an unknown that solves its equation solves the freed one. -/
theorem eq_value_freed (hp : e.Proper (x :: xs)) (h : x = e.value (x :: xs)) :
    x = e.freed.value xs := by
  obtain ⟨own, others, hc, hown, _⟩ := hp.exists_cons
  rw [value, hc, combination_cons, add_assoc] at h
  rw [value_freed hc]
  exact (Language.self_eq_mul_add_iff hown).1 h

theorem Proper.freed (hp : e.Proper (x :: xs)) : e.freed.Proper xs := by
  obtain ⟨own, others, hc, _, hl, hn⟩ := hp.exists_cons
  rw [Equation.freed, hc]
  by_cases ho : own = .empty
  · simp only [ho, if_true]
    exact ⟨hl, hn⟩
  · simp only [ho, if_false]
    refine ⟨(List.length_map _).trans hl, fun c h => ?_⟩
    obtain ⟨d, hd, rfl⟩ := List.mem_map.1 h
    rw [Regex.language_sequence]
    exact nil_notMem_mul (Or.inr (hn d hd))

theorem language_throughFirst (via direct onward : Regex) :
    (throughFirst via direct onward).language =
      direct.language + via.language * onward.language := by
  unfold throughFirst
  split
  · rename_i h
    rw [h, Regex.language_empty, mul_zero, add_zero]
  · rw [Regex.language_choice, Regex.language_sequence]

/-- The ways through the eliminated unknown add up to those to it, followed by those onward. -/
theorem combination_throughFirst (via : Regex) : ∀ {direct onward : List Regex}
    {xs : List (Language Symbol)}, direct.length = xs.length → onward.length = xs.length →
      combination (direct.zipWith (throughFirst via) onward) xs =
        combination direct xs + via.language * combination onward xs
  | [], [], [], _, _ => by
    rw [List.zipWith_nil_left, combination_nil, mul_zero, add_zero]
  | [], _ :: _, [], _, ho => by cases ho
  | _ :: _, [], _ :: _, _, ho => by cases ho
  | d :: direct, o :: onward, x :: xs, hd, ho => by
    rw [List.zipWith_cons_cons, combination_cons, combination_cons, combination_cons,
      language_throughFirst,
      combination_throughFirst via (Nat.succ.inj hd) (Nat.succ.inj ho), add_mul, mul_add,
      mul_assoc, add_add_add_comm]

/-- **Substituting keeps the value** if the unknown has the value it is replaced by. -/
theorem value_substitute (hp : e.Proper (x :: xs)) (hf : first.Proper xs)
    (hx : x = first.value xs) : (first.substitute e).value xs = e.value (x :: xs) := by
  obtain ⟨via, direct, hc, _, hl, _⟩ := hp.exists_cons
  rw [substitute, value, value, hc, combination_cons]
  by_cases hv : via = .empty
  · simp only [hv, if_true, Regex.language_empty, zero_mul, zero_add]
  · simp only [hv, if_false]
    rw [combination_throughFirst via hl hf.length_eq, Regex.language_choice,
      Regex.language_sequence, add_add_add_comm, ← mul_add, ← value, ← hx, add_comm, ← add_assoc]

theorem Proper.substitute (hp : e.Proper (x :: xs)) (hf : first.Proper xs) :
    (first.substitute e).Proper xs := by
  obtain ⟨via, direct, hc, hvia, hl, hn⟩ := hp.exists_cons
  rw [Equation.substitute, hc]
  by_cases hv : via = .empty
  · simp only [hv, if_true]
    exact ⟨hl, hn⟩
  · simp only [hv, if_false]
    refine ⟨?_, fun c h => ?_⟩
    · rw [List.length_zipWith, hl, hf.length_eq, Nat.min_self]
    · rw [← List.map_uncurry_zip_eq_zipWith] at h
      obtain ⟨⟨d, o⟩, hd, rfl⟩ := List.mem_map.1 h
      rw [Function.uncurry_apply_pair, language_throughFirst, Language.mem_add, not_or]
      exact ⟨hn d (List.of_mem_zip hd).1, nil_notMem_mul (Or.inl hvia)⟩

end Equation

/-! ## 2. Systems -/

namespace LinearSystem

variable {system others : LinearSystem} {first : Equation}

/-- An equation that is proper for the number of unknowns and holds of its own one. -/
def Fits (xs : List (Language Symbol)) (e : Equation) (x : Language Symbol) : Prop :=
  e.Proper xs ∧ x = e.value xs

/-- Languages that solve a system of proper equations, one for each unknown. -/
def Solves (system : LinearSystem) (xs : List (Language Symbol)) : Prop :=
  List.Forall₂ (Fits xs) system xs

/-- **Eliminating the first unknown keeps the solution of the others.** -/
theorem Solves.eliminate (h : Solves (first :: others) (x :: xs)) :
    Solves (eliminate first others) xs := by
  obtain ⟨⟨hp, hx⟩, hothers⟩ := List.forall₂_cons.1 h
  rw [Solves, LinearSystem.eliminate, List.forall₂_map_left_iff]
  refine hothers.imp fun e y ⟨he, hy⟩ => ⟨he.substitute hp.freed, ?_⟩
  rw [Equation.value_substitute he hp.freed (Equation.eq_value_freed hp hx)]
  exact hy

/-- **The solution of a system has the language of the last unknown.** -/
theorem language_solve (h : Solves system (xs ++ [x])) : system.solve.language = x := by
  induction xs generalizing system with
  | nil =>
    obtain ⟨e, others, ⟨hp, hx⟩, hothers, rfl⟩ := List.forall₂_cons_right_iff.1 h
    obtain rfl := List.forall₂_nil_right_iff.1 hothers
    have hlast := Equation.eq_value_freed hp hx
    rw [Equation.value, List.length_eq_zero_iff.1 hp.freed.length_eq, combination_nil,
      zero_add] at hlast
    rw [solve]
    exact hlast.symm
  | cons y ys ih =>
    obtain ⟨e, others, he, hothers, rfl⟩ := List.forall₂_cons_right_iff.1 h
    cases others with
    | nil => exact absurd hothers.length_eq (by simp)
    | cons f others =>
      rw [solve]
      exact ih (Solves.eliminate h)

end LinearSystem

/-! ## 3. The system of an automaton -/

namespace Automaton

variable {a : Automaton} {p q : StateName} {w : Word} {c : Symbol}

/-- The words that are recognized from a state. -/
def languageFrom (a : Automaton) (p : StateName) : Language Symbol := { w | a.RecognizesFrom p w }

theorem mem_languageFrom : w ∈ a.languageFrom p ↔ a.RecognizesFrom p w := Iff.rfl

theorem recognizesFrom_nil_iff (he : a.EpsilonFree) :
    a.RecognizesFrom p [] ↔ a.isAccepting p = true := by
  constructor
  · intro h
    obtain ⟨q, h, hacc⟩ := h
    cases h with
    | here => exact hacc
    | epsilon hs _ => rw [he] at hs; exact absurd hs List.not_mem_nil
  · exact fun hacc => ⟨p, .here p, hacc⟩

theorem recognizesFrom_cons_iff (he : a.EpsilonFree) :
    a.RecognizesFrom p (c :: w) ↔ ∃ q ∈ a.successors p (.symbol c), a.RecognizesFrom q w := by
  refine ⟨fun h => ?_, fun h => ?_⟩
  · obtain ⟨r, h, hacc⟩ := h
    cases h with
    | epsilon hs _ => rw [he] at hs; exact absurd hs List.not_mem_nil
    | symbol hs hw => exact ⟨_, hs, r, hw, hacc⟩
  · obtain ⟨q, hq, r, h, hacc⟩ := h
    exact ⟨r, .symbol hq h, hacc⟩

theorem mem_language_foldl_choice {cs : List Symbol} : ∀ {e : Regex},
    w ∈ (cs.foldl (fun e c => e.choice (.symbol c)) e).language ↔
      w ∈ e.language ∨ ∃ c ∈ cs, w = [c] := by
  induction cs with
  | nil => simp
  | cons d cs ih =>
    intro e
    rw [List.foldl_cons, ih, Regex.language_choice, Language.mem_add, Regex.mem_language_symbol,
      List.exists_mem_cons_iff, or_assoc]

/-- The coefficients of a state stand for the symbols of its moves. -/
theorem mem_language_symbolsTo (ha : a.WellFormed) :
    w ∈ (a.symbolsTo p q).language ↔ ∃ c, q ∈ a.successors p (.symbol c) ∧ w = [c] := by
  rw [symbolsTo, mem_language_foldl_choice, Regex.language_empty]
  refine ⟨fun h => ?_, fun h => ?_⟩
  · rcases h with h | ⟨c, hc, rfl⟩
    · exact absurd h (Language.notMem_zero w)
    · exact ⟨c, of_decide_eq_true (List.mem_filter.1 hc).2, rfl⟩
  · obtain ⟨c, hq, rfl⟩ := h
    exact Or.inr ⟨c, List.mem_filter.2 ⟨ha.mem_alphabet hq, decide_eq_true hq⟩, rfl⟩

theorem mem_unknowns_iff (ha : a.WellFormed) : p ∈ a.unknowns ↔ p ∈ a.states := by
  rw [unknowns, List.mem_append, List.mem_reverse, List.mem_filter, List.mem_singleton,
    decide_eq_true_eq]
  refine ⟨fun h => ?_, fun h => ?_⟩
  · rcases h with ⟨h, _⟩ | rfl
    · exact h
    · exact ha.start_mem
  · by_cases e : p = a.start
    · exact Or.inr e
    · exact Or.inl ⟨h, e⟩

theorem mem_language_constant (he : a.EpsilonFree) :
    w ∈ (a.equation p).constant.language ↔ w = [] ∧ a.RecognizesFrom p [] := by
  rw [recognizesFrom_nil_iff he, equation]
  by_cases hacc : a.isAccepting p = true
  · simp [hacc]
  · simp [hacc, Language.notMem_zero]

/-- **The languages of the states solve the equations.** -/
theorem fits_equation (ha : a.WellFormed) (he : a.EpsilonFree) :
    LinearSystem.Fits (a.unknowns.map a.languageFrom) (a.equation p) (a.languageFrom p) := by
  refine ⟨⟨by simp [equation], fun e h => ?_⟩, ?_⟩
  · obtain ⟨q, _, rfl⟩ := List.mem_map.1 h
    rw [mem_language_symbolsTo ha]
    intro h'
    obtain ⟨c, _, e⟩ := h'
    cases e
  · ext w
    rw [Equation.value, Language.mem_add, mem_language_constant he, mem_languageFrom]
    have hmoves : w ∈ combination (a.equation p).coefficients (a.unknowns.map a.languageFrom) ↔
        ∃ q ∈ a.unknowns, w ∈ (a.symbolsTo p q).language * a.languageFrom q :=
      mem_combination_map (a.symbolsTo p) a.languageFrom
    rw [hmoves]
    refine ⟨fun h => ?_, fun h => ?_⟩
    · cases w with
      | nil => exact Or.inr ⟨rfl, h⟩
      | cons c w =>
        obtain ⟨q, hq, hw⟩ := (recognizesFrom_cons_iff he).1 h
        exact Or.inl ⟨q, (mem_unknowns_iff ha).2 (ha.mem_of_mem_successors hq),
          Language.append_mem_mul ((mem_language_symbolsTo ha).2 ⟨c, hq, rfl⟩) hw⟩
    · rcases h with ⟨q, _, h⟩ | ⟨rfl, h⟩
      · obtain ⟨u, hu, v, hv, rfl⟩ := Language.mem_mul.1 h
        obtain ⟨c, hq, rfl⟩ := (mem_language_symbolsTo ha).1 hu
        exact (recognizesFrom_cons_iff he).2 ⟨q, hq, hv⟩
      · exact h

theorem solves_linearSystem (ha : a.WellFormed) (he : a.EpsilonFree) :
    a.linearSystem.Solves (a.unknowns.map a.languageFrom) := by
  rw [LinearSystem.Solves, linearSystem, List.forall₂_map_left_iff, List.forall₂_map_right_iff,
    List.forall₂_same]
  exact fun p _ => fits_equation ha he

/-- **The expression of an automaton has its language.** -/
theorem language_toRegexRaw (ha : a.WellFormed) (he : a.EpsilonFree) :
    a.toRegexRaw.language = a.languageFrom a.start := by
  have h := solves_linearSystem ha he
  rw [unknowns, List.map_append] at h
  exact LinearSystem.language_solve h

end Automaton

end RegularLanguages
