import Mathlib.Logic.Relator
import Mathlib.Tactic.Choose
import RegularLanguages.Automaton.Equivalence
import RegularLanguages.Proofs.Automaton.Outcome
import RegularLanguages.Proofs.Automaton.Pruning

/-!
# Isomorphic automata

A state that can be reached is known by the words that lead to it. So two deterministic automata
without other states are isomorphic as soon as words show the same in both of them and lead to one
state in the first iff they do in the second.

* `Paired` -- two states to which one word leads;
* `isomorphic_of_runs` -- **automata that read words alike are isomorphic**: states go to the states
  with which they are paired.
-/

namespace RegularLanguages.Automaton

variable {a b : Automaton} {p q q' : StateName} {w : Word} {c : Symbol}

/-- Two states are paired if one word leads to both of them. -/
def Paired (a b : Automaton) (p q : StateName) : Prop :=
  ∃ w, a.run? a.start w = some p ∧ b.run? b.start w = some q

theorem Paired.symm (h : Paired a b p q) : Paired b a q p := by
  obtain ⟨w, hp, hq⟩ := h
  exact ⟨w, hq, hp⟩

section Runs

variable (houtcome : ∀ w, a.outcome a.start w = b.outcome b.start w)

include houtcome

theorem isSome_run?_eq : (a.run? a.start w).isSome = (b.run? b.start w).isSome :=
  (outcome_eq_iff.1 (houtcome w)).1

/-- A state that can be reached is paired with some state. -/
theorem exists_paired (ha : a.Deterministic) (hp : a.Accessible p) : ∃ q, Paired a b p q := by
  obtain ⟨w, hw⟩ := hp
  rw [path_iff_run? ha] at hw
  have hsome : (b.run? b.start w).isSome = true := by
    rw [← isSome_run?_eq houtcome, hw]
    rfl
  obtain ⟨q, hq⟩ := Option.isSome_iff_exists.1 hsome
  exact ⟨q, w, hw, hq⟩

theorem Paired.isAccepting_eq (h : Paired a b p q) : b.isAccepting q = a.isAccepting p := by
  obtain ⟨w, hp, hq⟩ := h
  have hw := houtcome w
  rw [outcome, outcome, hp, hq] at hw
  exact (Option.some.inj hw).symm

/-- The moves of paired states lead to paired states, or are missing from both. -/
theorem Paired.step (h : Paired a b p q) (c : Symbol) :
    Option.Rel (Paired a b) (a.step? p c) (b.step? q c) := by
  obtain ⟨w, hp, hq⟩ := h
  have hpc : a.run? a.start (w ++ [c]) = a.step? p c := by rw [run?_concat, hp, Option.bind_some]
  have hqc : b.run? b.start (w ++ [c]) = b.step? q c := by rw [run?_concat, hq, Option.bind_some]
  have hsome := isSome_run?_eq houtcome (w := w ++ [c])
  rw [hpc, hqc] at hsome
  exact OrderedMap.rel_of_isSome_eq hsome fun p' q' hp' hq' =>
    ⟨w ++ [c], hpc.trans hp', hqc.trans hq'⟩

end Runs

/-- No state is paired with two others, on either side. -/
theorem biUnique_paired (hruns : ∀ u v, (a.run? a.start u).isSome = true →
    (a.run? a.start v).isSome = true →
      (a.run? a.start u = a.run? a.start v ↔ b.run? b.start u = b.run? b.start v)) :
    Relator.BiUnique (Paired a b) := by
  have hiff : ∀ {p q p' q'}, Paired a b p q → Paired a b p' q' → (p = p' ↔ q = q') := by
    rintro p q p' q' ⟨u, hp, hq⟩ ⟨v, hp', hq'⟩
    have h := hruns u v (Option.isSome_of_eq_some hp) (Option.isSome_of_eq_some hp')
    rwa [hp, hp', hq, hq', Option.some_inj, Option.some_inj] at h
  exact ⟨fun _ _ _ h h' => (hiff h h').2 rfl, fun _ _ _ h h' => (hiff h h').1 rfl⟩

/-- **Deterministic automata that read words alike are isomorphic**, if all their states can be
reached. -/
theorem isomorphic_of_runs (ha : a.WellFormed) (hb : b.WellFormed) (hda : a.Deterministic)
    (hdb : b.Deterministic) (haccess : ∀ p ∈ a.states, a.Accessible p)
    (haccess' : ∀ q ∈ b.states, b.Accessible q)
    (houtcome : ∀ w, a.outcome a.start w = b.outcome b.start w)
    (hruns : ∀ u v, (a.run? a.start u).isSome = true → (a.run? a.start v).isSome = true →
      (a.run? a.start u = a.run? a.start v ↔ b.run? b.start u = b.run? b.start v)) :
    Isomorphic a b := by
  obtain ⟨hleft, hright⟩ := biUnique_paired hruns
  -- each state goes to the one with which it is paired; there is no other
  choose! f hf using fun p hp => exists_paired houtcome hda (haccess p hp)
  have hmem : ∀ {p q}, Paired a b p q → p ∈ a.states ∧ q ∈ b.states := by
    rintro p q ⟨w, hp, hq⟩
    exact ⟨((path_iff_run? hda).2 hp).mem_states ha ha.start_mem,
      ((path_iff_run? hdb).2 hq).mem_states hb hb.start_mem⟩
  have hfq : ∀ {p q}, Paired a b p q → f p = q := fun h => hright (hf _ (hmem h).1) h
  refine ⟨f, fun p hp => (hmem (hf p hp)).2, fun p hp q hq e => hleft (hf p hp) (e ▸ hf q hq),
    fun q hq => ?_, hfq ⟨[], rfl, rfl⟩, fun p hp => (hf p hp).isAccepting_eq houtcome,
    fun p hp c => ?_⟩
  · obtain ⟨p, hp⟩ := exists_paired (fun w => (houtcome w).symm) hdb (haccess' q hq)
    exact ⟨p, (hmem hp.symm).1, hfq hp.symm⟩
  · rcases OrderedMap.rel_cases ((hf p hp).step houtcome c) with ⟨h, h'⟩ | ⟨p', q', h, h', hpq⟩
    · rw [h, h', Option.map_none]
    · rw [h, h', Option.map_some, hfq hpq]

/-- Isomorphic automata have the same number of states. -/
theorem Isomorphic.size_eq (h : Isomorphic a b) : a.size = b.size := by
  obtain ⟨f, hf⟩ := h
  have hle : a.size ≤ b.size := by
    refine size_le_of_relation (fun p q => p ∈ a.states ∧ f p = q)
      (fun p hp => ⟨f p, hf.mem p hp, hp, rfl⟩) fun p p' q h h' => ?_
    exact hf.injective p h.1 p' h'.1 (h.2.trans h'.2.symm)
  have hge : b.size ≤ a.size := by
    refine size_le_of_relation (fun q p => p ∈ a.states ∧ f p = q) (fun q hq => ?_)
      fun q q' p h h' => h.2.symm.trans h'.2
    obtain ⟨p, hp, e⟩ := hf.surjective q hq
    exact ⟨p, hp, hp, e⟩
  exact Nat.le_antisymm hle hge

end RegularLanguages.Automaton
