import Mathlib.Logic.Relation
import RegularLanguages.Proofs.Automaton.StateSet

/-!
# Searching along epsilon moves

The states that epsilon moves lead to can be searched with a stack: the search takes a state off it
and notes the targets of its epsilon moves, and a target that is new goes onto the stack. What is
found serves as the record of what is known, so that no state comes up twice and circles of epsilon
moves do no harm.

* `EpsilonSearch` -- what is found and what is still to be looked at; `note`, `step`, `run`;
* `weight_step_lt` -- why this ends: a target that is noted is no longer unseen;
* `Invariant` -- everything found is reached, and the moves of what is off the stack lead to what is
  found; `invariant_step`, `invariant_run` keep it;
* `found_run` -- **the search finds the closure of the set that it starts from**;
* `closure_least` -- what the closure is: the least set that no epsilon move leaves, in particular a
  closure operation that commutes with unions.
-/

namespace RegularLanguages

/-! ## 1. Unions and subsets -/

namespace StateSet

instance : HasSubset StateSet := ⟨fun s t => ∀ p ∈ s, p ∈ t⟩

/-- The members of both sets. -/
def union (s t : StateSet) : StateSet := .ofList (s.members ++ t.members)

instance : Union StateSet := ⟨union⟩

@[simp] theorem mem_union {s t : StateSet} {p : StateName} : p ∈ s ∪ t ↔ p ∈ s ∨ p ∈ t := by
  have h : p ∈ s ∪ t ↔ p ∈ s.members ++ t.members := mem_ofList
  rw [h, List.mem_append]
  exact Iff.rfl

end StateSet

/-! ## 2. The search -/

/-- How far a search along epsilon moves is. -/
structure EpsilonSearch where
  /-- The states that are found. -/
  found : StateSet
  /-- The states whose moves are still to be looked at, the next one first. -/
  pending : List StateName
  deriving DecidableEq

namespace EpsilonSearch

variable {a : Automaton} {r r' : EpsilonSearch} {s : StateSet} {p q : StateName}
  {qs : List StateName}

/-- The search from a set, all of whose members are still to be looked at, the last one first. -/
def ofSet (s : StateSet) : EpsilonSearch := ⟨s, s.members.reverse⟩

/-- Notes a state. A new one is found, and is looked at next. -/
def note (r : EpsilonSearch) (q : StateName) : EpsilonSearch :=
  if q ∈ r.found then r else ⟨r.found.insert q, q :: r.pending⟩

/-- Takes a state off the stack and notes the targets of its epsilon moves. There is no step when
nothing is left to be looked at. -/
def step (a : Automaton) (r : EpsilonSearch) : Option EpsilonSearch :=
  match r.pending with
  | [] => none
  | p :: rest => some ((a.successors p .epsilon).foldl note ⟨r.found, rest⟩)

theorem note_of_mem (h : q ∈ r.found) : r.note q = r := if_pos h

theorem note_of_not_mem (h : q ∉ r.found) : r.note q = ⟨r.found.insert q, q :: r.pending⟩ :=
  if_neg h

theorem mem_found_note : p ∈ (r.note q).found ↔ p ∈ r.found ∨ p = q := by
  by_cases h : q ∈ r.found
  · rw [note_of_mem h]
    exact ⟨Or.inl, fun hp => hp.elim id fun e => e ▸ h⟩
  · rw [note_of_not_mem h, StateSet.mem_insert, or_comm]

theorem mem_pending_note :
    p ∈ (r.note q).pending ↔ p ∈ r.pending ∨ (p = q ∧ p ∉ r.found) := by
  by_cases h : q ∈ r.found
  · rw [note_of_mem h]
    exact ⟨Or.inl, fun hp => hp.elim id fun hp => absurd (hp.1 ▸ h) hp.2⟩
  · rw [note_of_not_mem h, List.mem_cons, or_comm]
    exact or_congr_right ⟨fun e => ⟨e, e ▸ h⟩, And.left⟩

theorem mem_found_foldl_note : p ∈ (qs.foldl note r).found ↔ p ∈ r.found ∨ p ∈ qs := by
  induction qs generalizing r with
  | nil => simp
  | cons q qs ih => rw [List.foldl_cons, ih, mem_found_note, List.mem_cons, or_assoc]

/-- Of what is noted, the states that were not known come onto the stack. -/
theorem mem_pending_foldl_note :
    p ∈ (qs.foldl note r).pending ↔ p ∈ r.pending ∨ (p ∈ qs ∧ p ∉ r.found) := by
  induction qs generalizing r with
  | nil => simp
  | cons q qs ih =>
    rw [List.foldl_cons, ih, mem_pending_note, mem_found_note, List.mem_cons]
    by_cases e : p = q <;> simp [e]

/-! ## 3. Steps come to an end -/

/-- The targets of moves that are not found. -/
def unseen (a : Automaton) (r : EpsilonSearch) : List StateName :=
  a.moveTargets.filter (· ∉ r.found)

/-- What is left to do: a state that is unseen may still come onto the stack and off it again. -/
def weight (a : Automaton) (r : EpsilonSearch) : Nat :=
  2 * (r.unseen a).length + r.pending.length

/-- A target of a move that is new is no longer unseen. -/
theorem length_unseen_note_lt (hq : q ∈ a.moveTargets) (h : q ∉ r.found) :
    ((r.note q).unseen a).length < (r.unseen a).length := by
  have hunseen : (r.note q).unseen a = (r.unseen a).filter (· ≠ q) := by
    rw [unseen, unseen, List.filter_filter]
    refine List.filter_congr fun p _ => ?_
    simp [mem_found_note, not_or, and_comm]
  rw [hunseen, List.length_filter_lt_length_iff_exists]
  exact ⟨q, List.mem_filter.2 ⟨hq, by simpa using h⟩, by simp⟩

theorem weight_note_le (hq : q ∈ a.moveTargets) : (r.note q).weight a ≤ r.weight a := by
  by_cases h : q ∈ r.found
  · rw [note_of_mem h]
  · have hlt := length_unseen_note_lt hq h
    have hpending : (r.note q).pending.length = r.pending.length + 1 := by
      rw [note_of_not_mem h, List.length_cons]
    rw [weight, weight, hpending]
    omega

theorem weight_foldl_note_le (hqs : ∀ q ∈ qs, q ∈ a.moveTargets) :
    (qs.foldl note r).weight a ≤ r.weight a := by
  induction qs generalizing r with
  | nil => exact Nat.le_refl _
  | cons q qs ih =>
    rw [List.forall_mem_cons] at hqs
    exact Nat.le_trans (ih hqs.2) (weight_note_le hqs.1)

/-- **A step leaves less to do.** -/
theorem weight_step_lt (h : step a r = some r') : r'.weight a < r.weight a := by
  unfold step at h
  split at h
  · cases h
  · rename_i p rest hpending
    obtain rfl := Option.some.inj h
    refine Nat.lt_of_le_of_lt (weight_foldl_note_le fun q hq => Automaton.mem_moveTargets hq) ?_
    rw [weight, weight, hpending, List.length_cons]
    exact Nat.lt_succ_self _

/-- The search at which nothing is left to be looked at. -/
def run (a : Automaton) (r : EpsilonSearch) : EpsilonSearch :=
  match _h : step a r with
  | none => r
  | some r' => run a r'
termination_by r.weight a
decreasing_by exact weight_step_lt _h

/-- **No search goes on for ever.** -/
theorem acc_step (a : Automaton) (r : EpsilonSearch) :
    Acc (fun r' r => step a r = some r') r :=
  Subrelation.accessible weight_step_lt (InvImage.accessible (weight a) (Nat.lt_wfRel.wf.apply _))

/-! ## 4. What is found -/

/-- A move that reads nothing. -/
def Leads (a : Automaton) (p q : StateName) : Prop := q ∈ a.successors p .epsilon

/-- What holds of a search from a set before and after every step. -/
structure Invariant (a : Automaton) (s : StateSet) (r : EpsilonSearch) : Prop where
  /-- The set is found. -/
  start : s ⊆ r.found
  /-- Everything found is reached from the set. -/
  reached : ∀ q ∈ r.found, ∃ p ∈ s, Relation.ReflTransGen (Leads a) p q
  /-- What is still to be looked at is found. -/
  pending : ∀ p ∈ r.pending, p ∈ r.found
  /-- The moves of everything else lead to what is found. -/
  complete : ∀ p ∈ r.found, p ∉ r.pending → ∀ q, Leads a p q → q ∈ r.found

theorem invariant_ofSet (a : Automaton) (s : StateSet) : Invariant a s (ofSet s) where
  start := fun _ hp => hp
  reached := fun q hq => ⟨q, hq, .refl⟩
  pending := fun _ hp => List.mem_reverse.1 hp
  complete := fun _ hp hnot => absurd (List.mem_reverse.2 hp) hnot

/-- **A step keeps the invariant.** -/
theorem invariant_step (h : Invariant a s r) (hs : step a r = some r') : Invariant a s r' := by
  unfold step at hs
  split at hs
  · cases hs
  · rename_i p rest hpending
    obtain rfl := Option.some.inj hs
    have hp : p ∈ r.found := h.pending p (hpending ▸ List.mem_cons_self)
    refine ⟨fun q hq => ?_, fun q hq => ?_, fun q hq => ?_, fun q hq hidle t ht => ?_⟩
    · exact mem_found_foldl_note.2 (Or.inl (h.start q hq))
    · rcases mem_found_foldl_note.1 hq with hq | hq
      · exact h.reached q hq
      · obtain ⟨o, ho, hpath⟩ := h.reached p hp
        exact ⟨o, ho, hpath.tail hq⟩
    · rcases mem_pending_foldl_note.1 hq with hq | ⟨hq, -⟩
      · exact mem_found_foldl_note.2 (Or.inl (h.pending q (hpending ▸ List.mem_cons_of_mem p hq)))
      · exact mem_found_foldl_note.2 (Or.inr hq)
    · -- the state that was taken off the stack has just been looked at
      by_cases hqp : q = p
      · exact mem_found_foldl_note.2 (Or.inr (hqp ▸ ht))
      · rw [mem_pending_foldl_note, not_or] at hidle
        have hold : q ∈ r.found := by
          rcases mem_found_foldl_note.1 hq with hq | hq
          · exact hq
          · exact Decidable.byContradiction fun hnew => hidle.2 ⟨hq, hnew⟩
        have hnot : q ∉ r.pending := by
          rw [hpending, List.mem_cons, not_or]
          exact ⟨hqp, hidle.1⟩
        exact mem_found_foldl_note.2 (Or.inl (h.complete q hold hnot t ht))

theorem step_eq_none_iff : step a r = none ↔ r.pending = [] := by
  unfold step
  split <;> simp [*]

/-- **A run keeps the invariant and ends with nothing left to be looked at.** -/
theorem invariant_run (h : Invariant a s r) : Invariant a s (run a r) ∧ (run a r).pending = [] := by
  fun_induction run a r with
  | case1 r hnone => exact ⟨h, step_eq_none_iff.1 hnone⟩
  | case2 r r' hs ih => exact ih (invariant_step h hs)

/-- **At the end exactly what epsilon moves lead to is found.** -/
theorem mem_found_run_iff :
    q ∈ (run a (ofSet s)).found ↔ ∃ p ∈ s, Relation.ReflTransGen (Leads a) p q := by
  obtain ⟨hinv, hpending⟩ := invariant_run (invariant_ofSet a s)
  refine ⟨hinv.reached q, fun h => ?_⟩
  obtain ⟨p, hp, hpath⟩ := h
  induction hpath with
  | refl => exact hinv.start p hp
  | tail _ hlast ih =>
    refine hinv.complete _ ih ?_ _ hlast
    rw [hpending]
    exact List.not_mem_nil

end EpsilonSearch

/-! ## 5. The closure -/

namespace Automaton

open EpsilonSearch

variable {a : Automaton} {p q : StateName} {s t : StateSet}

/-- Paths that spell nothing are chains of epsilon moves. -/
theorem path_nil_iff : a.Path p [] q ↔ Relation.ReflTransGen (Leads a) p q := by
  refine ⟨fun h => ?_, fun h => ?_⟩
  · generalize e : ([] : Word) = w at h
    induction h with
    | here => exact .refl
    | epsilon hs _ ih => exact .head hs (ih e)
    | symbol => cases e
  · induction h with
    | refl => exact .here p
    | tail _ hlast ih => exact ih.append (.singleEpsilon hlast)

theorem mem_closure_iff_leads :
    q ∈ a.closure s ↔ ∃ p ∈ s, Relation.ReflTransGen (Leads a) p q := by
  simp only [mem_closure_iff, path_nil_iff]

/-- **The search finds the closure.** -/
theorem found_run (a : Automaton) (s : StateSet) : (run a (ofSet s)).found = a.closure s :=
  StateSet.ext fun _ => mem_found_run_iff.trans mem_closure_iff_leads.symm

theorem subset_closure (a : Automaton) (s : StateSet) : s ⊆ a.closure s := fun p hp =>
  mem_closure_iff_leads.2 ⟨p, hp, .refl⟩

/-- A set that no epsilon move leaves holds the closure of every part of it. -/
theorem closure_subset (hst : s ⊆ t) (ht : ∀ p ∈ t, ∀ q, Leads a p q → q ∈ t) :
    a.closure s ⊆ t := by
  intro q hq
  obtain ⟨p, hp, hpath⟩ := mem_closure_iff_leads.1 hq
  induction hpath with
  | refl => exact hst p hp
  | tail hpath hlast ih => exact ht _ (ih (mem_closure_iff_leads.2 ⟨p, hp, hpath⟩)) _ hlast

/-- No epsilon move leaves a closure. -/
theorem leads_mem_closure (hp : p ∈ a.closure s) (h : Leads a p q) : q ∈ a.closure s := by
  obtain ⟨o, ho, hpath⟩ := mem_closure_iff_leads.1 hp
  exact mem_closure_iff_leads.2 ⟨o, ho, hpath.tail h⟩

theorem closure_mono (h : s ⊆ t) : a.closure s ⊆ a.closure t :=
  closure_subset (fun p hp => subset_closure a t p (h p hp)) fun _ hp _ => leads_mem_closure hp

theorem closure_closure (a : Automaton) (s : StateSet) : a.closure (a.closure s) = a.closure s :=
  StateSet.ext fun q => ⟨closure_subset (fun _ hp => hp) (fun _ hp _ => leads_mem_closure hp) q,
    subset_closure a (a.closure s) q⟩

theorem closure_union (a : Automaton) (s t : StateSet) :
    a.closure (s ∪ t) = a.closure s ∪ a.closure t := by
  refine StateSet.ext fun q => ?_
  simp only [StateSet.mem_union, mem_closure_iff_leads, or_and_right, exists_or]

/-- **The closure of a set of names is the least set around it that no epsilon move leaves**,
whatever circles there are and whether or not the names are those of states. The search along
epsilon moves ends, and it ends with the closure, which consists of what chains of epsilon moves
lead to from the set. So the closure extends the set, respects subsets, adds nothing when taken
twice, and is that of the parts where the set is a union. -/
theorem closure_least (a : Automaton) :
    (∀ s, Acc (fun r' r => step a r = some r') (ofSet s) ∧ (run a (ofSet s)).pending = [] ∧
      (run a (ofSet s)).found = a.closure s) ∧
    (∀ s q, q ∈ a.closure s ↔
      ∃ p ∈ s, Relation.ReflTransGen (fun p q => q ∈ a.successors p .epsilon) p q) ∧
    (∀ s t, s ⊆ t → (∀ p ∈ t, ∀ q ∈ a.successors p .epsilon, q ∈ t) → a.closure s ⊆ t) ∧
    (∀ s, s ⊆ a.closure s) ∧ (∀ s t, s ⊆ t → a.closure s ⊆ a.closure t) ∧
    (∀ s, a.closure (a.closure s) = a.closure s) ∧
    ∀ s t, a.closure (s ∪ t) = a.closure s ∪ a.closure t := by
  refine ⟨fun s => ⟨acc_step a (ofSet s), (invariant_run (invariant_ofSet a s)).2, found_run a s⟩,
    fun s q => mem_closure_iff_leads, fun s t => closure_subset, subset_closure a,
    fun s t => closure_mono, closure_closure a, closure_union a⟩

/-- An automaton with a circle of epsilon moves and a way out of it. -/
def epsilonCircle : Automaton :=
  ofRows "p" ['x'] [⟨"p", false, [(.epsilon, "q"), (.symbol 'x', "r")]⟩,
    ⟨"q", false, [(.epsilon, "p"), (.epsilon, "s")]⟩, ⟨"r", true, []⟩, ⟨"s", false, []⟩]

theorem closure_least_epsilonCircle :
    StateSet.ofList ["q"] ⊆ .ofList ["q", "r", "unknown"] ∧
      epsilonCircle.closure (.ofList ["q"]) ⊆
        epsilonCircle.closure (.ofList ["q", "r", "unknown"]) ∧
      (epsilonCircle.closure (.ofList ["q"])).members = ["p", "q", "s"] ∧
      epsilonCircle.closure (.ofList ["q"]) ⊆ .ofList ["p", "q", "s"] := by
  have hst : StateSet.ofList ["q"] ⊆ .ofList ["q", "r", "unknown"] := by
    intro p hp
    rw [StateSet.mem_ofList] at hp ⊢
    exact List.mem_cons.2 (Or.inl (List.mem_singleton.1 hp))
  obtain ⟨_, _, hleast, _, hmono, _⟩ := closure_least epsilonCircle
  refine ⟨hst, hmono _ _ hst, by decide +kernel, hleast _ _ ?_ (by decide +kernel)⟩
  intro p hp
  rw [StateSet.mem_ofList] at hp ⊢
  exact List.mem_cons_of_mem _ (List.mem_cons.2 (Or.inl (List.mem_singleton.1 hp)))

end Automaton

end RegularLanguages
