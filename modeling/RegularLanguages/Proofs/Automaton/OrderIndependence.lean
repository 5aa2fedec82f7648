import RegularLanguages.Proofs.Automaton.Idempotence
import RegularLanguages.Proofs.Automaton.Reversal

/-!
# The order of the parts does not matter

Automata that are equal up to order are searched in different orders, but what is built from them
is the same up to order. Pruning and reversing keep the names of the states, so this is read off the
views. The subset construction makes names and adds a number where two sets propose the same one;
which of them gets the number depends on the order. Where no name has a comma in it, no two sets
propose the same.

* `StateSet.joined_injective` -- non-empty sets of names without commas have different joined names;
* `freshName_of_equiv` -- a fresh name depends on which names are taken, not on their order;
* `reachable_congr`, `reverse_congr` -- pruning and reversing do not depend on the order;
* `IsPowerset.of_equiv` -- **automata that are equal up to order have the same powerset automata**;
* `determinize_congr` -- so neither does the subset construction, if no name has a comma in it;
* `constructions_congr` -- **what is built does not depend on the order**.
-/

namespace RegularLanguages

/-! ## 1. Joined names -/

namespace StateSet

variable {s t : StateSet}

/-- The members of a set can be read off its joined name if none of them has a comma in it. -/
theorem splitOn_joined (hne : s.isEmpty = false) (hs : ∀ n ∈ s, ',' ∉ n.toList) :
    s.joined.toList.splitOn ',' = s.members.map String.toList := by
  have hcomma : ∀ cs ∈ s.members.map String.toList, ',' ∉ cs := by
    intro cs hcs
    obtain ⟨n, hn, rfl⟩ := List.mem_map.1 hcs
    exact hs n hn
  have hnil : s.members.map String.toList ≠ [] := fun h => by
    rw [isEmpty, List.map_eq_nil_iff.1 h] at hne
    cases hne
  rw [joined, String.toList_intercalate]
  exact List.splitOn_intercalate ',' hcomma hnil

/-- **Non-empty sets of names without commas have different joined names.** The name of the set
without members is that of the set of the empty name. -/
theorem joined_injective (hs : s.isEmpty = false) (ht : t.isEmpty = false)
    (hsc : ∀ n ∈ s, ',' ∉ n.toList) (htc : ∀ n ∈ t, ',' ∉ n.toList) (h : s.joined = t.joined) :
    s = t := by
  have hmembers : s.members.map String.toList = t.members.map String.toList := by
    rw [← splitOn_joined hs hsc, ← splitOn_joined ht htc, h]
  have e : s.members = t.members :=
    List.map_injective_iff.2 (fun _ _ => String.toList_injective) hmembers
  exact ext fun n => by rw [mem_def, mem_def, e]

end StateSet

namespace Automaton

variable {a b c : Automaton} {n p : StateName} {s : StateSet} {x : Symbol}

/-! ## 2. Fresh names -/

theorem firstFree_perm {taken taken' : List StateName} (h : taken.Perm taken')
    (candidate : Nat → StateName) : firstFree taken candidate = firstFree taken' candidate := by
  simp only [firstFree, h.length_eq, h.mem_iff]

theorem stateNames_perm_of_equiv (h : a ≈ b) : a.stateNames.Perm b.stateNames :=
  (List.perm_ext_iff_of_nodup a.states.nodup b.states.nodup).2 fun _ => mem_states_of_equiv h

theorem freshName_of_equiv (h : a ≈ b) (base : StateName) : a.freshName base = b.freshName base :=
  firstFree_perm (stateNames_perm_of_equiv h) _

/-! ## 3. Pruning and reversing -/

theorem start_of_equiv (h : a ≈ b) : a.start = b.start := h.1

theorem mem_alphabet_of_equiv (h : a ≈ b) : x ∈ a.alphabet ↔ x ∈ b.alphabet :=
  OrderedSet.equiv_iff.1 h.2.2.1 x

theorem accessible_of_equiv (h : a ≈ b) : a.Accessible p ↔ b.Accessible p := by
  simp only [Accessible, start_of_equiv h, path_of_equiv h]

theorem reachable_congr (ha : a.WellFormed) (hb : b.WellFormed) (h : a ≈ b) :
    a.reachable ≈ b.reachable := by
  refine equiv_of_views wellFormed_reachable wellFormed_reachable ?_ (fun x => ?_) (fun n => ?_)
    (fun n => ?_) fun n l t => ?_
  · rw [start_reachable, start_reachable, start_of_equiv h]
  · rw [alphabet_reachable ha, alphabet_reachable hb, mem_alphabet_of_equiv h]
  · rw [mem_states_reachable ha, mem_states_reachable hb, accessible_of_equiv h]
  · rw [Bool.eq_iff_iff, isAccepting_reachable ha, isAccepting_reachable hb,
      accessible_of_equiv h, isAccepting_of_equiv h]
  · rw [mem_successors_reachable ha, mem_successors_reachable hb, accessible_of_equiv h,
      mem_successors_of_equiv h]

theorem reverse_congr (ha : a.WellFormed) (hb : b.WellFormed) (h : a ≈ b) :
    a.reverse ≈ b.reverse := by
  have hstart : a.reverse.start = b.reverse.start := by
    rw [start_reverse, start_reverse, freshName_of_equiv h]
  refine equiv_of_views wellFormed_reverse wellFormed_reverse hstart (fun x => ?_) (fun n => ?_)
    (fun n => ?_) fun n l t => ?_
  · rw [alphabet_reverse ha, alphabet_reverse hb, mem_alphabet_of_equiv h]
  · rw [mem_states_reverse ha, mem_states_reverse hb, hstart, mem_states_of_equiv h]
  · rw [Bool.eq_iff_iff, isAccepting_reverse, isAccepting_reverse, start_of_equiv h]
  · rw [mem_successors_reverse ha, mem_successors_reverse hb, hstart, mem_successors_of_equiv h,
      isAccepting_of_equiv h]

/-! ## 4. The subset construction -/

theorem closure_move_of_equiv (h : a ≈ b) :
    a.closure (a.move s x) = b.closure (b.move s x) := by
  refine StateSet.ext fun q => ?_
  simp only [mem_closure_iff, mem_move_iff, path_of_equiv h, mem_successors_of_equiv h]

theorem closure_start_of_equiv (h : a ≈ b) :
    a.closure (.ofList [a.start]) = b.closure (.ofList [b.start]) := by
  refine StateSet.ext fun q => ?_
  simp only [mem_closure_iff, path_of_equiv h, start_of_equiv h]

theorem met_of_equiv (ha : a.WellFormed) (hb : b.WellFormed) (h : a ≈ b) :
    a.Met s ↔ b.Met s := by
  rw [met_iff_path ha, met_iff_path hb]
  simp only [path_of_equiv h, start_of_equiv h]

/-- **Automata that are equal up to order have the same powerset automata.** -/
theorem IsPowerset.of_equiv {f : StateSet → StateName} (hc : IsPowerset b c f)
    (ha : a.WellFormed) (hb : b.WellFormed) (h : a ≈ b) : IsPowerset a c f where
  mem_states_iff n := by simp only [hc.mem_states_iff, met_of_equiv ha hb h]
  injective s t hs ht :=
    hc.injective s t ((met_of_equiv ha hb h).1 hs) ((met_of_equiv ha hb h).1 ht)
  start := by rw [hc.start, closure_start_of_equiv h]
  accepting s hs := by
    rw [hc.accepting s ((met_of_equiv ha hb h).1 hs)]
    simp only [isAccepting_of_equiv h]
  moves s hs l n := by
    rw [hc.moves s ((met_of_equiv ha hb h).1 hs)]
    simp only [closure_move_of_equiv h]

/-- The members of a set that is met are states. -/
theorem Met.mem_states (ha : a.WellFormed) (hs : a.Met s) (hn : n ∈ s) : n ∈ a.states := by
  obtain ⟨-, w, hw⟩ := (met_iff_path ha).1 hs
  exact ((hw n).1 hn).mem_states ha ha.start_mem

/-- Where no name has a comma in it, every set that is met has its joined name. -/
theorem setName_eq_joined_of_commaFree (ha : a.WellFormed)
    (hcomma : ∀ n ∈ a.states, ',' ∉ n.toList) (hs : a.Met s) :
    a.setName a.initialSet (fun s _ => s.joined) s = s.joined := by
  have hnonempty : ∀ t, a.Met t → t.isEmpty = false := fun t ht =>
    StateSet.isEmpty_eq_false_iff.2 ((met_iff_path ha).1 ht).1
  have hfree : ∀ t, a.Met t → ∀ n ∈ t, ',' ∉ n.toList := fun t ht n hn =>
    hcomma n (ht.mem_states ha hn)
  refine setName_eq_joined ha (fun t u ht hu => ?_) hs
  exact StateSet.joined_injective (hnonempty t ht) (hnonempty u hu) (hfree t ht) (hfree u hu)

theorem determinize_congr (ha : a.WellFormed) (hb : b.WellFormed) (h : a ≈ b)
    (hcomma : ∀ n ∈ a.states, ',' ∉ n.toList) : a.determinize ≈ b.determinize := by
  have hcomma' : ∀ n ∈ b.states, ',' ∉ n.toList := fun n hn =>
    hcomma n ((mem_states_of_equiv h).2 hn)
  refine (isPowerset_determinize ha).equiv ((isPowerset_determinize hb).of_equiv ha hb h)
    (fun s hs => ?_) wellFormed_determinize wellFormed_determinize fun x => ?_
  · rw [setName_eq_joined_of_commaFree ha hcomma hs,
      setName_eq_joined_of_commaFree hb hcomma' ((met_of_equiv ha hb h).1 hs)]
  · rw [determinize, determinize, alphabet_subsetAutomaton, alphabet_subsetAutomaton,
      mem_alphabet_of_equiv h]

/-- With commas, the numbers that tell equal proposals apart follow the order of the symbols. -/
example : ¬ (ofRows "p" ['x', 'y'] [⟨"p", false, [(.symbol 'x', "a"), (.symbol 'x', "b"),
      (.symbol 'y', "a,b")]⟩]).determinize ≈
    (ofRows "p" ['y', 'x'] [⟨"p", false, [(.symbol 'x', "a"), (.symbol 'x', "b"),
      (.symbol 'y', "a,b")]⟩]).determinize := by
  decide

/-! ## 5. All constructions -/

/-- **What is built does not depend on the order** in which the parts of an automaton were added:
automata that are equal up to order have reachable parts and reversals that are, and if no name has
a comma in it, so are the results of the subset construction. -/
theorem constructions_congr (ha : a.WellFormed) (hb : b.WellFormed) (h : a ≈ b) :
    a.reachable ≈ b.reachable ∧ a.reverse ≈ b.reverse ∧
      ((∀ n ∈ a.states, ',' ∉ n.toList) → a.determinize ≈ b.determinize) :=
  ⟨reachable_congr ha hb h, reverse_congr ha hb h, determinize_congr ha hb h⟩

/-- The rows of an automaton in which one state has the empty name and one that of fresh starts. -/
def unnamedRows : List Row :=
  [⟨"p", false, [(.epsilon, "q"), (.symbol 'x', ""), (.symbol 'x', "q"), (.symbol 'y', "q")]⟩,
    ⟨"", true, [(.symbol 'y', "p")]⟩, ⟨"q", false, [(.symbol 'x', "q")]⟩, ⟨"start", true, []⟩]

/-- The automaton of these rows. -/
def unnamed : Automaton := ofRows "p" ['x', 'y'] unnamedRows

/-- The same automaton, built the other way round. -/
def unnamedTurned : Automaton := ofRows "p" ['y', 'x'] unnamedRows.reverse

theorem constructions_congr_unnamed : unnamed.WellFormed ∧ unnamedTurned.WellFormed ∧
    unnamed ≈ unnamedTurned ∧ (∀ n ∈ unnamed.states, ',' ∉ n.toList) ∧
    unnamed.determinize.stateNames = ["p,q", ",q", "q"] ∧
    unnamedTurned.determinize.stateNames = ["p,q", "q", ",q"] ∧
    unnamed.reachable ≈ unnamedTurned.reachable ∧ unnamed.reverse ≈ unnamedTurned.reverse ∧
    unnamed.determinize ≈ unnamedTurned.determinize := by
  have ha : unnamed.WellFormed := wellFormed_ofRows
  have hb : unnamedTurned.WellFormed := wellFormed_ofRows
  have h : unnamed ≈ unnamedTurned := by decide
  have hcomma : ∀ n ∈ unnamed.stateNames, ',' ∉ n.toList := by decide
  obtain ⟨hreachable, hreverse, hdeterminize⟩ := constructions_congr ha hb h
  exact ⟨ha, hb, h, hcomma, by decide, by decide, hreachable, hreverse, hdeterminize hcomma⟩

end Automaton

end RegularLanguages
