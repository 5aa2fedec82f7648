import Mathlib.Data.List.Sort
import RegularLanguages.Automaton.StateSet
import RegularLanguages.Proofs.Automaton.Path

/-!
# Where words lead from a set of states

* `StateSet.ext` -- a set is determined by its members;
* `mem_closure_iff`, `mem_next_iff` -- closing a set and reading a symbol, in terms of paths;
* `after` -- the set that a word leads to, one symbol after the other;
* `mem_after_iff` -- **the set behind a word holds the ends of all paths that spell it**, if the
  set before it is closed.
-/

namespace RegularLanguages

/-! ## 1. Sets and their members -/

namespace StateSet

theorem ext {s t : StateSet} (h : ∀ n, n ∈ s ↔ n ∈ t) : s = t := by
  have e : s.members = t.members := s.sorted.eq_of_mem_iff t.sorted h
  cases s
  cases t
  cases e
  rfl

theorem isEmpty_iff {s : StateSet} : s.isEmpty = true ↔ ∀ n, n ∉ s := by
  rw [isEmpty, List.isEmpty_iff, List.eq_nil_iff_forall_not_mem]
  exact Iff.rfl

theorem isEmpty_eq_false_iff {s : StateSet} : s.isEmpty = false ↔ ∃ n, n ∈ s := by
  rw [← Bool.not_eq_true, isEmpty_iff, not_forall_not]

@[simp] theorem mem_erase {s : StateSet} {n m : StateName} : m ∈ s.erase n ↔ m ∈ s ∧ m ≠ n := by
  simp [mem_def, erase]

end StateSet

namespace Automaton

variable {a : Automaton} {p q n : StateName} {s t : StateSet} {c : Symbol} {u w : Word}

/-! ## 2. One step -/

/-- Epsilon moves lead from the members of a list to the ends of the paths that spell nothing. -/
theorem reaches_epsilon_iff {names : List StateName} :
    Reaches (fun n => a.successors n .epsilon) names q ↔ ∃ p ∈ names, a.Path p [] q := by
  refine ⟨fun h => ?_, fun h => ?_⟩
  · induction h with
    | init h => exact ⟨_, h, .here _⟩
    | step _ hb ih =>
      obtain ⟨p, hp, hpath⟩ := ih
      exact ⟨p, hp, hpath.append (.singleEpsilon hb)⟩
  · obtain ⟨p, hp, hpath⟩ := h
    have h : Reaches (fun n => a.successors n .epsilon) names p := .init hp
    clear hp
    generalize e : ([] : Word) = w at hpath
    induction hpath with
    | here => exact h
    | epsilon hs _ ih => exact ih (Reaches.step h hs) e
    | symbol => cases e

/-- Whatever epsilon moves lead to is there from the beginning or the target of a move. -/
theorem boundsReach_epsilon (a : Automaton) (names : List StateName) :
    BoundsReach (fun n => a.successors n .epsilon) names (names.length + a.transitionCount) := by
  have h : ∀ q, Reaches (fun n => a.successors n .epsilon) names q →
      q ∈ names ++ a.moveTargets := by
    intro q hq
    cases hq with
    | init h => exact List.mem_append_left _ h
    | step _ hb => exact List.mem_append_right _ (mem_moveTargets hb)
  have hb := boundsReach_of_subset h
  rwa [List.length_append, length_moveTargets] at hb

theorem mem_closure_iff : q ∈ a.closure s ↔ ∃ p ∈ s, a.Path p [] q := by
  rw [closure, StateSet.mem_ofList, ← OrderedSet.mem_def,
    mem_explore_iff (boundsReach_epsilon a s.members), reaches_epsilon_iff]
  rfl

theorem mem_move_iff : q ∈ a.move s c ↔ ∃ p ∈ s, q ∈ a.successors p (.symbol c) := by
  rw [move, StateSet.mem_ofList, List.mem_flatMap]
  rfl

theorem mem_initialSet_iff : q ∈ a.initialSet ↔ a.Path a.start [] q := by
  rw [initialSet, mem_closure_iff]
  simp

theorem anyAccepting_iff : a.anyAccepting s = true ↔ ∃ q ∈ s, a.isAccepting q = true :=
  List.any_eq_true

/-- A set that no epsilon move leaves. -/
def IsClosed (a : Automaton) (s : StateSet) : Prop :=
  ∀ p ∈ s, ∀ q, a.Path p [] q → q ∈ s

theorem isClosed_closure : a.IsClosed (a.closure s) := by
  intro p hp q hq
  obtain ⟨o, ho, hpath⟩ := mem_closure_iff.1 hp
  exact mem_closure_iff.2 ⟨o, ho, hpath.append hq⟩

theorem isClosed_initialSet : a.IsClosed a.initialSet := isClosed_closure

theorem isClosed_next : a.IsClosed (a.next s c) := isClosed_closure

/-- Reading a symbol from a closed set leads to the ends of the paths that spell it. -/
theorem mem_next_iff (hs : a.IsClosed s) : q ∈ a.next s c ↔ ∃ p ∈ s, a.Path p [c] q := by
  rw [next, mem_closure_iff]
  refine ⟨fun h => ?_, fun h => ?_⟩
  · obtain ⟨r, hr, hq⟩ := h
    obtain ⟨p, hp, hc⟩ := mem_move_iff.1 hr
    exact ⟨p, hp, .symbol hc hq⟩
  · obtain ⟨p, hp, hpath⟩ := h
    obtain ⟨r, r', hr, hc, hq⟩ := path_cons_iff.1 hpath
    exact ⟨r', mem_move_iff.2 ⟨r, hs p hp r hr, hc⟩, hq⟩

/-! ## 3. Words -/

/-- The set that a word leads to. -/
def after (a : Automaton) (s : StateSet) (w : Word) : StateSet := w.foldl a.next s

@[simp] theorem after_nil : a.after s [] = s := rfl

@[simp] theorem after_cons : a.after s (c :: w) = a.after (a.next s c) w := rfl

theorem after_append : a.after s (u ++ w) = a.after (a.after s u) w := List.foldl_append

theorem after_concat : a.after s (w ++ [c]) = a.next (a.after s w) c := after_append

/-- **The set behind a word holds the ends of all paths that spell it.** -/
theorem mem_after_iff (hs : a.IsClosed s) : q ∈ a.after s w ↔ ∃ p ∈ s, a.Path p w q := by
  induction w generalizing s with
  | nil => exact ⟨fun h => ⟨q, h, .here q⟩, fun ⟨p, hp, h⟩ => hs p hp q h⟩
  | cons c w ih =>
    rw [after_cons, ih isClosed_next]
    refine ⟨fun h => ?_, fun h => ?_⟩
    · obtain ⟨r, hr, hw⟩ := h
      obtain ⟨p, hp, hc⟩ := (mem_next_iff hs).1 hr
      exact ⟨p, hp, hc.append hw⟩
    · obtain ⟨p, hp, h⟩ := h
      have h' : a.Path p ([c] ++ w) q := h
      obtain ⟨r, hc, hw⟩ := path_append_iff.1 h'
      exact ⟨r, (mem_next_iff hs).2 ⟨p, hp, hc⟩, hw⟩

/-- **The set behind a word, from the initial set, holds the ends of all paths from the start.** -/
theorem mem_after_initialSet_iff : q ∈ a.after a.initialSet w ↔ a.Path a.start w q := by
  rw [mem_after_iff isClosed_initialSet]
  refine ⟨fun h => ?_, fun h => ⟨a.start, mem_initialSet_iff.2 (.here _), h⟩⟩
  obtain ⟨p, hp, hw⟩ := h
  exact (mem_initialSet_iff.1 hp).append hw

theorem anyAccepting_after_initialSet_iff :
    a.anyAccepting (a.after a.initialSet w) = true ↔ a.Recognizes w := by
  simp only [anyAccepting_iff, mem_after_initialSet_iff]
  exact Iff.rfl

/-- From a set without members every symbol leads to none. -/
theorem isEmpty_next (h : s.isEmpty = true) : (a.next s c).isEmpty = true := by
  rw [StateSet.isEmpty_iff] at h ⊢
  intro q hq
  obtain ⟨r, hr, _⟩ := mem_closure_iff.1 hq
  obtain ⟨p, hp, _⟩ := mem_move_iff.1 hr
  exact h p hp

theorem isEmpty_after (h : s.isEmpty = true) : (a.after s w).isEmpty = true := by
  induction w generalizing s with
  | nil => exact h
  | cons c w ih => exact ih (isEmpty_next h)

/-- Symbols outside the alphabet lead to the set without members. -/
theorem isEmpty_next_of_not_mem (ha : a.WellFormed) (hc : c ∉ a.alphabet) :
    (a.next s c).isEmpty = true := by
  rw [StateSet.isEmpty_iff]
  intro q hq
  obtain ⟨r, hr, _⟩ := mem_closure_iff.1 hq
  obtain ⟨p, _, hr⟩ := mem_move_iff.1 hr
  exact hc (ha.mem_alphabet hr)

end Automaton

end RegularLanguages
