import RegularLanguages.Proofs.Automaton.Equivalence
import RegularLanguages.Proofs.Automaton.Powerset
import RegularLanguages.Proofs.Automaton.Pruning

/-!
# Determinizing what is deterministic

The sets that a deterministic automaton meets have one member each, so their joined names are the
names of their members, and none of them has to be changed. What the subset construction yields is
then the reachable part, which the search for reachable states finds in another order.

* `IsPowerset.equiv` -- two powerset automata of an automaton that name the sets alike are equal up
  to order;
* `met_iff_of_deterministic` -- a deterministic automaton meets the sets of one accessible state;
* `isPowerset_reachable` -- **its reachable part is its powerset automaton**, the joined names
  included;
* `determinize_equiv_reachable`, `determinize_determinize_equiv` -- so determinizing prunes it, and
  determinizing twice is no more than determinizing once.
-/

namespace RegularLanguages

/-! ## 1. Sets of one state -/

namespace StateSet

theorem joined_singleton (n : StateName) : (ofList [n]).joined = n := String.intercalate_singleton

theorem isEmpty_singleton (n : StateName) : (ofList [n]).isEmpty = false := rfl

theorem mem_singleton {n m : StateName} : m ∈ ofList [n] ↔ m = n := by
  rw [mem_ofList, List.mem_singleton]

theorem eq_singleton_iff {s : StateSet} {n : StateName} : s = ofList [n] ↔ ∀ m, m ∈ s ↔ m = n := by
  refine ⟨fun h m => ?_, fun h => ext fun m => ?_⟩
  · rw [h, mem_singleton]
  · rw [h, mem_singleton]

end StateSet

namespace Automaton

variable {a b c : Automaton} {p q r : StateName} {s : StateSet} {x : Symbol} {w : Word}

/-! ## 2. Powerset automata are unique -/

/-- **Two powerset automata that name the sets alike are equal up to order.** -/
theorem IsPowerset.equiv {f g : StateSet → StateName} (hb : IsPowerset a b f)
    (hc : IsPowerset a c g) (hname : ∀ s, a.Met s → f s = g s) (hbw : b.WellFormed)
    (hcw : c.WellFormed) (halphabet : ∀ x, x ∈ b.alphabet ↔ x ∈ c.alphabet) : b ≈ c := by
  have hstates : ∀ n, n ∈ b.states ↔ n ∈ c.states := fun n => by
    rw [hb.mem_states_iff, hc.mem_states_iff]
    exact exists_congr fun s => and_congr_right fun hs => by rw [hname s hs]
  have hstart : b.start = c.start := by rw [hb.start, hc.start, hname _ .initial]
  refine equiv_of_views_of_mem hbw hcw hstart halphabet hstates (fun n hn => ?_)
    fun n hn l t => ?_
  all_goals obtain ⟨s, hs, rfl⟩ := (hb.mem_states_iff n).1 hn
  · rw [Bool.eq_iff_iff, hb.accepting s hs, hname s hs, hc.accepting s hs]
  · rw [hb.moves s hs, hname s hs, hc.moves s hs]
    exact exists_congr fun x => and_congr_right fun _ => and_congr_right fun hne => by
      rw [hname _ (hs.next x hne)]

/-! ## 3. The sets that a deterministic automaton meets -/

theorem Deterministic.path_iff_eq (hd : a.Deterministic) (h : a.Path p w q) :
    a.Path p w r ↔ r = q := by
  rw [path_iff_run? hd] at h ⊢
  rw [h, Option.some.injEq, eq_comm]

theorem closure_of_deterministic (hd : a.Deterministic) : a.closure s = s := by
  refine StateSet.ext fun q => ?_
  rw [mem_closure_iff]
  refine ⟨fun h => ?_, fun hq => ⟨q, hq, .here q⟩⟩
  obtain ⟨p, hp, h⟩ := h
  exact (hd.path_iff_eq (.here p)).1 h ▸ hp

theorem mem_closure_move_iff (hd : a.Deterministic) :
    q ∈ a.closure (a.move (.ofList [p]) x) ↔ q ∈ a.successors p (.symbol x) := by
  rw [closure_of_deterministic hd, mem_move_iff]
  simp

/-- A move leads from the set of its source to the set of its target. -/
theorem closure_move_eq (hd : a.Deterministic) (hq : q ∈ a.successors p (.symbol x)) :
    a.closure (a.move (.ofList [p]) x) = .ofList [q] :=
  StateSet.eq_singleton_iff.2 fun _ =>
    (mem_closure_move_iff hd).trans ⟨fun hr => hd.unique hr hq, fun e => e ▸ hq⟩

/-- **The sets that are met are those of one accessible state.** -/
theorem met_iff_of_deterministic (ha : a.WellFormed) (hd : a.Deterministic) :
    a.Met s ↔ ∃ p, a.Accessible p ∧ s = .ofList [p] := by
  rw [met_iff_path ha]
  constructor
  · rintro ⟨⟨p, hp⟩, w, hw⟩
    have hpath : a.Path a.start w p := (hw p).1 hp
    exact ⟨p, ⟨w, hpath⟩, StateSet.eq_singleton_iff.2 fun q => (hw q).trans (hd.path_iff_eq hpath)⟩
  · rintro ⟨p, ⟨w, hpath⟩, rfl⟩
    exact ⟨⟨p, StateSet.mem_singleton.2 rfl⟩, w, fun q =>
      StateSet.mem_singleton.trans (hd.path_iff_eq hpath).symm⟩

/-! ## 4. Determinizing prunes -/

/-- **The reachable part of a deterministic automaton is its powerset automaton**, where every set
is named by its joined members. -/
theorem isPowerset_reachable (ha : a.WellFormed) (hd : a.Deterministic) :
    IsPowerset a a.reachable StateSet.joined where
  mem_states_iff n := by
    rw [mem_states_reachable ha]
    constructor
    · exact fun hn => ⟨_, (met_iff_of_deterministic ha hd).2 ⟨n, hn, rfl⟩,
        (StateSet.joined_singleton n).symm⟩
    · rintro ⟨s, hs, rfl⟩
      obtain ⟨p, hp, rfl⟩ := (met_iff_of_deterministic ha hd).1 hs
      rwa [StateSet.joined_singleton]
  injective s t hs ht h := by
    obtain ⟨p, -, rfl⟩ := (met_iff_of_deterministic ha hd).1 hs
    obtain ⟨q, -, rfl⟩ := (met_iff_of_deterministic ha hd).1 ht
    rw [StateSet.joined_singleton, StateSet.joined_singleton] at h
    rw [h]
  start := by rw [closure_of_deterministic hd, StateSet.joined_singleton, start_reachable]
  accepting s hs := by
    obtain ⟨p, hp, rfl⟩ := (met_iff_of_deterministic ha hd).1 hs
    rw [StateSet.joined_singleton, isAccepting_reachable ha]
    simp [hp]
  moves s hs l n := by
    obtain ⟨p, hp, rfl⟩ := (met_iff_of_deterministic ha hd).1 hs
    rw [StateSet.joined_singleton, mem_successors_reachable ha]
    constructor
    · rintro ⟨-, hn⟩
      cases l with
      | epsilon =>
        rw [hd.epsilonFree] at hn
        exact absurd hn List.not_mem_nil
      | symbol x =>
        rw [← StateSet.joined_singleton n, ← closure_move_eq hd hn]
        exact ⟨x, rfl, closure_move_eq hd hn ▸ StateSet.isEmpty_singleton n, rfl⟩
    · rintro ⟨x, rfl, hne, rfl⟩
      obtain ⟨q, hq⟩ := StateSet.isEmpty_eq_false_iff.1 hne
      have hmove : q ∈ a.successors p (.symbol x) := (mem_closure_move_iff hd).1 hq
      rw [closure_move_eq hd hmove, StateSet.joined_singleton]
      exact ⟨hp, hmove⟩

/-- The joined names are given out unchanged where they differ. -/
theorem setName_eq_joined (ha : a.WellFormed)
    (hjoined : ∀ s t, a.Met s → a.Met t → s.joined = t.joined → s = t) (hs : a.Met s) :
    a.setName a.initialSet (fun s _ => s.joined) s = s.joined := by
  refine setName_of_injOn (fun t ht u hu h => ?_) ((met_iff_mem_subsets ha).1 hs)
  exact hjoined t u ((met_iff_mem_subsets ha).2 ht) ((met_iff_mem_subsets ha).2 hu) h

/-- **Determinizing a deterministic automaton prunes it.** -/
theorem determinize_equiv_reachable (ha : a.WellFormed) (hd : a.Deterministic) :
    a.determinize ≈ a.reachable := by
  -- that the joined names differ is known from the reachable part, which is named by them
  have hp := isPowerset_reachable ha hd
  refine (isPowerset_determinize ha).equiv hp (fun _ => setName_eq_joined ha hp.injective)
    wellFormed_determinize wellFormed_reachable fun x => ?_
  rw [determinize, alphabet_subsetAutomaton, alphabet_reachable ha]

/-- Nothing is taken away where paths from the start lead to all states. -/
theorem reachable_equiv (ha : a.WellFormed) (h : ∀ p ∈ a.states, a.Accessible p) :
    a.reachable ≈ a := by
  have hstates : ∀ p, p ∈ a.reachable.states ↔ p ∈ a.states := fun p =>
    (mem_states_reachable ha).trans ⟨fun hp => hp.mem_states ha, h p⟩
  refine equiv_of_views_of_mem wellFormed_reachable ha start_reachable
    (fun x => by rw [alphabet_reachable ha]) hstates (fun p hp => ?_) fun p hp l t => ?_
  all_goals have hacc : a.Accessible p := (mem_states_reachable ha).1 hp
  · rw [Bool.eq_iff_iff, isAccepting_reachable ha]
    exact and_iff_right hacc
  · rw [mem_successors_reachable ha]
    exact and_iff_right hacc

theorem accessible_determinize (ha : a.WellFormed) (hp : p ∈ a.determinize.states) :
    a.determinize.Accessible p := by
  obtain ⟨s, hs, rfl⟩ := (mem_states_subsetAutomaton ha).1 hp
  obtain ⟨w, rfl, hw⟩ := (mem_subsets_iff ha).1 hs
  refine ⟨w, (path_iff_run? (deterministic_determinize ha)).2 ?_⟩
  rw [determinize, start_subsetAutomaton, run?_setName_iff ha (initial_mem_subsets ha)]
  exact ⟨hw, rfl⟩

/-- **Determinizing twice is no more than determinizing once.** -/
theorem determinize_determinize_equiv (ha : a.WellFormed) :
    a.determinize.determinize ≈ a.determinize :=
  equiv_trans
    (determinize_equiv_reachable wellFormed_determinize (deterministic_determinize ha))
    (reachable_equiv wellFormed_determinize fun _ => accessible_determinize ha)

end Automaton

end RegularLanguages
