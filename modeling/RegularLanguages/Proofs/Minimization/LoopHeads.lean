import Mathlib.Logic.Relation
import RegularLanguages.Proofs.Minimization.Quotient

/-!
# The heads of the refinement loop

What an observer sees who stops the refinement of a deterministic automaton before one of its steps,
said of the automaton itself and not of the part of it that is reachable.

* `AgreeOn` -- two states have no successor on a symbol, or successors in one class;
* `HeadInvariant` -- what holds before every step: of the classes, of the index, of the agenda and
  its flags, and of the classes that do not wait;
* `headInvariant_of_invariant` -- it follows from the invariant of the steps;
* `acc_steps` -- no sequence of steps goes on for ever;
* `partitionRefinement_loop` -- **the invariant holds before every step, and there is a last one**.
-/

namespace RegularLanguages.Refinement

variable {a : Automaton} {r s : Refinement} {p q : StateName} {i : Nat} {c : Symbol}

/-! ## 1. The invariant -/

/-- Neither state has a successor on the symbol, or their successors are in one class. -/
def AgreeOn (a : Automaton) (r : Refinement) (c : Symbol) (p q : StateName) : Prop :=
  (a.step? p c = none ∧ a.step? q c = none) ∨
    ∃ t u i, a.step? p c = some t ∧ a.step? q c = some u ∧ r.Holds i t ∧ r.Holds i u

/-- What holds of the refinement of an automaton before every step. -/
structure HeadInvariant (a : Automaton) (r : Refinement) : Prop where
  /-- No class is empty. -/
  ne_nil : ∀ members ∈ r.classes, members ≠ []
  /-- No state is listed twice in a class. -/
  nodup : ∀ members ∈ r.classes, members.Nodup
  /-- No two classes have a common member. -/
  disjoint : r.classes.Pairwise List.Disjoint
  /-- The classes hold exactly the states that paths from the start lead to. -/
  covers : ∀ p, (∃ members ∈ r.classes, p ∈ members) ↔ a.Accessible p
  /-- No class mixes accepting states with others. -/
  accepting : ∀ members ∈ r.classes, ∀ p ∈ members, ∀ q ∈ members,
    a.isAccepting p = a.isAccepting q
  /-- The index of a state is the position of the class that holds it. -/
  get?_iff : ∀ p i, r.classIndex.get? p = some i ↔ r.Holds i p
  /-- There is a flag for each class. -/
  length_waiting : r.waiting.length = r.classes.length
  /-- A class is in the agenda iff its flag is set. -/
  mem_agenda_iff : ∀ i, i ∈ r.agenda ↔ r.waiting[i]? = some true
  /-- A class that is in the agenda is there once. -/
  count_agenda : ∀ i ∈ r.agenda, r.agenda.count i = 1
  /-- The members of a class that has several and does not wait agree on every symbol. -/
  stable : ∀ (i : Nat) (members : List StateName), r.classes[i]? = some members →
    1 < members.length → r.waiting[i]? ≠ some true →
      ∀ p ∈ members, ∀ q ∈ members, ∀ c, AgreeOn a r c p q

/-- Classes that divide the states and successors of one class make states agree. -/
theorem agreeOn_of_successorClass_eq (ha : a.WellFormed) (hr : r.Divides a.stateNames [])
    (h : successorClass a r c p = successorClass a r c q) : AgreeOn a r c p q := by
  have hclass : ∀ {n t}, a.step? n c = some t →
      ∃ i, successorClass a r c n = some i ∧ r.Holds i t := by
    intro n t ht
    have hmem : t ∈ a.states := ha.mem_of_mem_successors (List.mem_of_head? ht)
    obtain ⟨members, hm, hp⟩ := hr.exists_mem hmem
    obtain ⟨i, hi⟩ := List.mem_iff_getElem?.1 hm
    have hget := (hr.get?_iff t List.not_mem_nil i).2 ⟨members, hi, hp⟩
    exact ⟨i, by rw [successorClass, ht, Option.bind_some, hget], members, hi, hp⟩
  have hnone : ∀ {n}, a.step? n c = none → successorClass a r c n = none := fun hn => by
    rw [successorClass, hn, Option.bind_none]
  cases hp : a.step? p c with
  | none =>
    cases hq : a.step? q c with
    | none => exact Or.inl ⟨hp, hq⟩
    | some u =>
      obtain ⟨i, hi, _⟩ := hclass hq
      rw [← h, hnone hp] at hi
      cases hi
  | some t =>
    obtain ⟨i, hi, ht⟩ := hclass hp
    cases hq : a.step? q c with
    | none =>
      rw [h, hnone hq] at hi
      cases hi
    | some u =>
      obtain ⟨j, hj, hu⟩ := hclass hq
      obtain rfl : i = j := Option.some.inj (hi.symm.trans (h.trans hj))
      exact Or.inr ⟨t, u, i, hp, hq, ht, hu⟩

theorem Divides.exists_mem_iff (h : r.Divides a.stateNames []) :
    (∃ members ∈ r.classes, p ∈ members) ↔ p ∈ a.states := by
  refine ⟨fun hp => ?_, h.exists_mem⟩
  obtain ⟨members, hm, hp⟩ := hp
  exact h.mem_states hm hp

/-- **What the steps keep holds of the automaton that was pruned before them.** -/
theorem headInvariant_of_invariant (ha : a.WellFormed) (hd : a.Deterministic)
    (h : Invariant a.reachable r) : HeadInvariant a r := by
  have hdivides := h.divides
  have hnodup : r.classes.flatten.Nodup := by
    have hperm := hdivides.perm
    rw [List.append_nil] at hperm
    exact hperm.nodup_iff.2 a.reachable.states.nodup
  have hcovers : ∀ p, (∃ members ∈ r.classes, p ∈ members) ↔ a.Accessible p := fun p => by
    rw [hdivides.exists_mem_iff, Automaton.mem_states_reachable ha]
  have haccessible : ∀ {members p}, members ∈ r.classes → p ∈ members → a.Accessible p :=
    fun hm hp => (hcovers _).1 ⟨_, hm, hp⟩
  refine ⟨hdivides.ne_nil, (List.nodup_flatten.1 hnodup).1, (List.nodup_flatten.1 hnodup).2,
    hcovers, fun members hm p hp q hq => ?_, fun p => hdivides.get?_iff p List.not_mem_nil,
    h.scheduled.length_eq, h.scheduled.mem_agenda_iff,
    fun i hi => List.count_eq_one_of_mem h.scheduled.nodup hi,
    fun i members hi _ hw p hp q hq c => ?_⟩
  · have hflag : ∀ {n}, a.Accessible n → a.reachable.isAccepting n = a.isAccepting n := by
      intro n hn
      rw [Bool.eq_iff_iff, Automaton.isAccepting_reachable ha]
      exact ⟨And.right, fun hacc => ⟨hn, hacc⟩⟩
    rw [← hflag (haccessible hm hp), ← hflag (haccessible hm hq)]
    exact h.accepting members hm p hp q hq
  · have hm : members ∈ r.classes := List.mem_of_getElem? hi
    have hstep : ∀ {n}, a.Accessible n → a.reachable.step? n c = a.step? n c := by
      intro n hn
      rw [← Automaton.run?_singleton, ← Automaton.run?_singleton,
        Automaton.run?_reachable ha hd hn]
    have hagree := agreeOn_of_successorClass_eq Automaton.wellFormed_reachable hdivides
      (h.stable i hw p q c ⟨members, hi, hp⟩ ⟨members, hi, hq⟩)
    rwa [AgreeOn, hstep (haccessible hm hp), hstep (haccessible hm hq)] at hagree

/-! ## 2. Sequences of steps -/

/-- A step leads from one refinement to the next. -/
def Steps (a : Automaton) (r s : Refinement) : Prop := step a r = some s

theorem invariant_of_steps (ha : a.WellFormed) (hr : Invariant a r)
    (h : Relation.ReflTransGen (Steps a) r s) : Invariant a s := by
  induction h with
  | refl => exact hr
  | tail _ hlast ih => exact invariant_step ha ih hlast

/-- **No sequence of steps goes on for ever.** -/
theorem acc_steps (a : Automaton) (r : Refinement) : Acc (fun s r => Steps a r s) r := by
  refine Subrelation.accessible (r := InvImage (Prod.Lex (· < ·) (· < ·)) fun r : Refinement =>
    (r.excess, r.agenda.length)) (fun h => ?_) (InvImage.accessible _ ?_)
  · rcases excess_step h with hlt | ⟨heq, hlt⟩
    · exact Prod.Lex.left _ _ hlt
    · rw [InvImage, heq]
      exact Prod.Lex.right _ hlt
  · exact (Prod.lex Nat.lt_wfRel Nat.lt_wfRel).wf.apply _

/-- The steps lead to what a run makes of a refinement. -/
theorem steps_run (a : Automaton) (r : Refinement) :
    Relation.ReflTransGen (Steps a) r (run a r) := by
  fun_induction run a r with
  | case1 r _ => exact .refl
  | case2 r s hs ih => exact .head hs ih

end RegularLanguages.Refinement

namespace RegularLanguages.Automaton

open Refinement

/-- **The refinement loop of a deterministic automaton.** Before every step, and after the last one,
the classes are not empty and have no common members, they hold exactly the reachable states and do
not mix accepting states with others; the index is the inverse of the classes; the agenda holds the
classes whose flag is set, each once; and the members of a class with several of them that does not
wait agree, on every symbol, on having no successor or on its class. The steps come to an end, and
the classes at the end are those that are merged. -/
theorem partitionRefinement_loop {a : Automaton} (ha : a.WellFormed)
    (hd : a.isDeterministic = true) :
    (∀ r, Relation.ReflTransGen (Steps a.reachable) a.reachable.initialRefinement r →
      HeadInvariant a r) ∧
    Acc (fun s r => Steps a.reachable r s) a.reachable.initialRefinement ∧
    ∃ r, Relation.ReflTransGen (Steps a.reachable) a.reachable.initialRefinement r ∧
      r.agenda = [] ∧ step a.reachable r = none ∧
      a.partitionRefinement = a.reachable.quotient r.classes := by
  have hw : a.reachable.WellFormed := wellFormed_reachable
  have hinit := invariant_initialRefinement a.reachable
  have hagenda := (invariant_run hw hinit).2
  refine ⟨fun r hr => ?_, acc_steps a.reachable _, ?_⟩
  · exact headInvariant_of_invariant ha ((isDeterministic_iff ha).1 hd)
      (invariant_of_steps hw hinit hr)
  · exact ⟨_, steps_run a.reachable _, hagenda, step_eq_none_iff.2 hagenda, rfl⟩

/-- An automaton in which classes are divided one after the other, with a state that is not
reachable. -/
def lateSplits : Automaton :=
  ofRows "p" ['x'] [⟨"p", false, [(.symbol 'x', "q")]⟩, ⟨"q", false, [(.symbol 'x', "r")]⟩,
    ⟨"r", false, [(.symbol 'x', "s")]⟩, ⟨"s", true, [(.symbol 'x', "t")]⟩,
    ⟨"t", false, [(.symbol 'x', "t")]⟩, ⟨"u", true, [(.symbol 'x', "p")]⟩]

theorem partitionRefinement_loop_lateSplits : lateSplits.WellFormed ∧
    lateSplits.isDeterministic = true ∧
    HeadInvariant lateSplits lateSplits.reachable.initialRefinement ∧
    ∃ r, Steps lateSplits.reachable lateSplits.reachable.initialRefinement r ∧
      HeadInvariant lateSplits r ∧ r.classes = [["s"], ["p", "q", "t"], ["r"]] := by
  have ha : lateSplits.WellFormed := wellFormed_ofRows
  have hd : lateSplits.isDeterministic = true := by decide +kernel
  have hloop := (partitionRefinement_loop ha hd).1
  have hclasses : (step lateSplits.reachable lateSplits.reachable.initialRefinement).map classes =
      some [["s"], ["p", "q", "t"], ["r"]] := by decide +kernel
  obtain ⟨r, hr, hc⟩ := Option.map_eq_some_iff.1 hclasses
  exact ⟨ha, hd, hloop _ .refl, r, hr, hloop r (.single hr), hc⟩

end RegularLanguages.Automaton
