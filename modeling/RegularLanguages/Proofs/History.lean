import RegularLanguages.History
import RegularLanguages.Proofs.Automaton.Thompson
import RegularLanguages.Proofs.Automaton.Violations
import RegularLanguages.Proofs.Minimization.DoubleReversal
import RegularLanguages.Proofs.Minimization.Quotient

/-!
# What every history keeps

However an automaton came about, its parts fit together, and a call that is refused has done
nothing.

* `run_perform` -- an operation in place does all of what the operation on values makes, or nothing;
* `apply_eq_error_iff` -- it is refused for the first state it needs that does not exist;
* `WellFormed.applyEdit`, `wellFormed_applyTransformation` -- the steps of a history, and
  `WellFormed.derive` for several constructions;
* `history_invariant` -- **every history keeps automata well-formed, and a refused call leaves the
  automaton as it was**.
-/

namespace RegularLanguages.Automaton

variable {a b : Automaton} {e : Edit} {err : Error} {n : StateName}

/-! ## 1. Operations in place -/

theorem run_requireState : (requireState n).run a =
    if n ∈ a.states then .ok () a else .error (.unknownState n) a := by
  by_cases h : n ∈ a.states <;> simp [requireState, h]

/-- An operation in place does all of what the operation on values makes, or nothing. -/
theorem run_perform : e.perform.run a =
    match e.apply a with
    | .ok b => .ok () b
    | .error err => .error err a := by
  cases e with
  | addState n => rfl
  | addSymbol c => rfl
  | addTransition p q l =>
    simp only [Edit.apply, addTransition, Edit.perform]
    by_cases hp : p ∈ a.states <;> by_cases hq : q ∈ a.states <;> simp [run_requireState, hp, hq]
  | setStart n =>
    simp only [Edit.apply, setStart, Edit.perform]
    by_cases hn : n ∈ a.states <;> simp [run_requireState, hn]
  | setAccepting n flag =>
    simp only [Edit.apply, setAccepting, Edit.perform]
    by_cases hn : n ∈ a.states <;> simp [run_requireState, hn]

theorem run_perform_eq_ok_iff : e.perform.run a = .ok () b ↔ e.apply a = .ok b := by
  rw [run_perform]
  cases e.apply a <;> simp

theorem run_perform_eq_error_iff :
    e.perform.run a = .error err b ↔ e.apply a = .error err ∧ b = a := by
  rw [run_perform]
  cases e.apply a <;> simp [eq_comm]

/-- An operation is refused for the first state it needs that does not exist. -/
theorem apply_eq_error_iff : e.apply a = .error (.unknownState n) ↔
    e.required.find? (· ∉ a.states) = some n := by
  cases e with
  | addState p => simp [Edit.apply, Edit.required]
  | addSymbol c => simp [Edit.apply, Edit.required]
  | addTransition p q l =>
    by_cases hp : p ∈ a.states <;> by_cases hq : q ∈ a.states <;>
      simp [Edit.apply, addTransition, Edit.required, hp, hq]
  | setStart p =>
    by_cases hp : p ∈ a.states <;> simp [Edit.apply, setStart, Edit.required, hp]
  | setAccepting p flag =>
    by_cases hp : p ∈ a.states <;> simp [Edit.apply, setAccepting, Edit.required, hp]

/-! ## 2. The steps of a history -/

theorem WellFormed.applyEdit (h : a.WellFormed) (hb : e.apply a = .ok b) : b.WellFormed := by
  cases e with
  | addState n =>
    cases hb
    exact h.addState
  | addSymbol c =>
    cases hb
    exact (h.addSymbols : (a.addSymbols [c]).WellFormed)
  | addTransition p q l =>
    obtain ⟨-, rfl⟩ := addTransition_eq_ok_iff.1 hb
    exact h.connect
  | setStart n =>
    obtain ⟨hn, rfl⟩ := setStart_eq_ok_iff.1 hb
    exact h.withStart hn
  | setAccepting n flag =>
    obtain ⟨-, rfl⟩ := setAccepting_eq_ok_iff.1 hb
    exact h.mark

/-- What a construction makes is well-formed, whatever it is made from. -/
theorem wellFormed_applyTransformation (t : Transformation) : (t.apply a).WellFormed := by
  cases t with
  | determinize => exact wellFormed_determinize
  | reachable => exact wellFormed_reachable
  | reverse => exact wellFormed_reverse
  | determinizeFromEntry => exact wellFormed_determinizeFromEntry
  | partitionRefinement => exact wellFormed_partitionRefinement
  | doubleReversal => exact wellFormed_doubleReversal

theorem derive_concat (ts : List Transformation) (t : Transformation) :
    a.derive (ts ++ [t]) = t.apply (a.derive ts) := List.foldl_concat _ a t ts

theorem WellFormed.derive (h : a.WellFormed) (ts : List Transformation) :
    (a.derive ts).WellFormed := by
  induction ts using List.reverseRecOn with
  | nil => exact h
  | append_singleton ts t _ =>
    rw [derive_concat]
    exact wellFormed_applyTransformation t

theorem wellFormed_of_ofDescription {d : Description} (h : ofDescription d = .ok a) :
    a.WellFormed := by
  obtain ⟨-, rfl⟩ := ofDescription_eq_ok_iff.1 h
  exact wellFormed_build

/-! ## 3. Whole histories -/

theorem Built.wellFormed (h : Built a) : a.WellFormed := by
  -- only the calls build on what the automaton was before; the constructions start afresh
  induction h with
  | start p => exact wellFormed_ofStart
  | description h => exact wellFormed_of_ofDescription h
  | regex e n => exact wellFormed_fromRegex e n
  | call e _ h ih => exact ih.applyEdit (run_perform_eq_ok_iff.1 h)
  | refused e _ h ih =>
    obtain ⟨-, rfl⟩ := run_perform_eq_error_iff.1 h
    exact ih
  | transform t _ _ => exact wellFormed_applyTransformation t

/-- **Every history leads to a well-formed automaton**: its start is a state, its states carry
their own names, the accepting states are those whose flag is set, and moves lead to states on
symbols of the alphabet, with no label stored without a target. A call is refused for the first
state it needs that is unknown, and then **it leaves the automaton as it was**. -/
theorem history_invariant : (∀ a, Built a → a.WellFormed) ∧
    ∀ (a b : Automaton) (e : Edit) (n : StateName),
      e.perform.run a = .error (.unknownState n) b ↔
        e.required.find? (· ∉ a.states) = some n ∧ b = a :=
  ⟨fun _ h => h.wellFormed, fun _ _ _ _ =>
    run_perform_eq_error_iff.trans (and_congr_left' apply_eq_error_iff)⟩

/-- A transition to an unknown state is refused in the middle of a history, which then goes on. -/
theorem history_invariant_after_refusal : ∃ b c : Automaton,
    (Edit.addTransition "s" "t" .epsilon).perform.run (ofStart "s") = .error (.unknownState "t") b ∧
    (Edit.setAccepting "s" true).perform.run b = .ok () c ∧
    b = ofStart "s" ∧ c.reverse.WellFormed :=
  ⟨_, _, rfl, rfl, ((history_invariant.2 _ _ (.addTransition "s" "t" .epsilon) "t").1 rfl).2,
    history_invariant.1 _ (.transform .reverse
      (.call (.setAccepting "s" true) (.refused (.addTransition "s" "t" .epsilon) (.start "s") rfl)
        rfl))⟩

end RegularLanguages.Automaton
