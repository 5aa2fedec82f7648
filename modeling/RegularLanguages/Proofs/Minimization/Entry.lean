import RegularLanguages.Minimization.DoubleReversal
import RegularLanguages.Proofs.Automaton.Subsets

/-!
# Determinizing from an entry

A start that neither accepts nor reads anything, and to which no move leads, is of no use once it
has been left. Determinization may start without it: the sets behind a symbol are the same, and all
that can happen is that the set it starts from is met a second time.

* `EntryOnly` -- a state that is nothing but an entry, and `isPureEntry_iff`: the test for it;
* `EntryOnly.after_erase`, `EntryOnly.anyAccepting_after_erase` -- leaving an entry away changes no
  set behind a symbol, and no answer;
* `Later` -- the sets behind a symbol, `mem_subsets_iff_later`: with the set to start from, they
  are those that are met;
* `EntryOnly.size_subsets` -- how many sets are met with the entry and without;
* `determinizeFromEntry_agrees` -- **determinization from the entry agrees with determinization
  from the start**.
-/

namespace RegularLanguages.Automaton

variable {a : Automaton} {p q n : StateName} {s initial : StateSet} {c : Symbol} {w : Word}
  {later : List StateSet}

/-! ## 1. Entries -/

/-- A state that is nothing but an entry: it does not accept, it reads no symbol, and no move leads
to it. -/
structure EntryOnly (a : Automaton) (p : StateName) : Prop where
  not_accepting : a.isAccepting p = false
  reads_nothing : ∀ c, a.successors p (.symbol c) = []
  not_entered : ∀ q l, p ∉ a.successors q l

/-- The test goes through the moves of the state and those of all states. -/
theorem isPureEntry_iff (hp : p ∈ a.states) : a.isPureEntry p = true ↔ a.EntryOnly p := by
  obtain ⟨s, hs⟩ := OrderedMap.mem_iff_exists_get?.1 hp
  have hstate : a.state? p = some s := hs
  simp only [isPureEntry, hstate, Bool.and_eq_true, Bool.not_eq_true', List.all_eq_true,
    decide_eq_true_eq]
  rw [← isAccepting_of_state? hstate]
  constructor
  · intro h
    obtain ⟨⟨hacc, hout⟩, hin⟩ := h
    refine ⟨hacc, fun c => List.eq_nil_iff_forall_not_mem.2 fun q hq => ?_, fun q l hq => ?_⟩
    · rw [successors_of_state? hstate] at hq
      exact absurd (hout (.symbol c, q) (State.mem_edges_iff.2 hq)) nofun
    · have hmove : (l, p) ∈ a.states.values.flatMap State.edges := mem_values_edges_iff.2 ⟨q, hq⟩
      obtain ⟨t, ht, he⟩ := List.mem_flatMap.1 hmove
      exact hin t ht (l, p) he rfl
  · intro h
    refine ⟨⟨h.not_accepting, fun e he => ?_⟩, fun t ht e he hentered => ?_⟩
    · obtain ⟨l, q⟩ := e
      rw [State.mem_edges_iff, ← successors_of_state? hstate] at he
      cases l with
      | epsilon => rfl
      | symbol c => exact absurd (h.reads_nothing c ▸ he) List.not_mem_nil
    · obtain ⟨q, hq⟩ := mem_values_edges_iff.1 (List.mem_flatMap.2 ⟨t, ht, he⟩)
      exact h.not_entered q e.1 (hentered ▸ hq)

theorem EntryOnly.entrySet_eq (h : a.EntryOnly a.start) (ha : a.WellFormed) :
    a.entrySet = a.initialSet.erase a.start := if_pos ((isPureEntry_iff ha.start_mem).2 h)

theorem entrySet_of_not_entryOnly (h : ¬ a.EntryOnly a.start) (ha : a.WellFormed) :
    a.entrySet = a.initialSet := if_neg (mt (isPureEntry_iff ha.start_mem).1 h)

/-- Only the path that has not left it yet ends in an entry. -/
theorem EntryOnly.eq_nil_of_path (h : a.EntryOnly p) (hpath : a.Path q w p) : q = p ∧ w = [] := by
  induction hpath with
  | here => exact ⟨rfl, rfl⟩
  | epsilon hs _ ih => exact absurd ((ih h).1 ▸ hs) (h.not_entered _ _)
  | symbol hs _ ih => exact absurd ((ih h).1 ▸ hs) (h.not_entered _ _)

/-! ## 2. Sets without an entry -/

theorem EntryOnly.next_erase (h : a.EntryOnly p) : a.next (s.erase p) c = a.next s c := by
  have hmove : a.move (s.erase p) c = a.move s c := by
    refine StateSet.ext fun q => ?_
    simp only [mem_move_iff, StateSet.mem_erase]
    refine ⟨fun hq => ?_, fun hq => ?_⟩
    · obtain ⟨n, ⟨hn, _⟩, hq⟩ := hq
      exact ⟨n, hn, hq⟩
    · obtain ⟨n, hn, hq⟩ := hq
      refine ⟨n, ⟨hn, fun e => ?_⟩, hq⟩
      rw [e, h.reads_nothing] at hq
      exact List.not_mem_nil hq
  exact congrArg a.closure hmove

/-- **Without the entry, words lead to the same sets**, but for the word that reads nothing. -/
theorem EntryOnly.after_erase (h : a.EntryOnly p) (hw : w ≠ []) :
    a.after (s.erase p) w = a.after s w := by
  cases w with
  | nil => exact absurd rfl hw
  | cons c w => rw [after_cons, after_cons, h.next_erase]

theorem EntryOnly.anyAccepting_erase (h : a.EntryOnly p) :
    a.anyAccepting (s.erase p) = a.anyAccepting s := by
  rw [Bool.eq_iff_iff, anyAccepting_iff, anyAccepting_iff]
  simp only [StateSet.mem_erase]
  refine ⟨fun hs => ?_, fun hs => ?_⟩
  · obtain ⟨q, ⟨hq, _⟩, hacc⟩ := hs
    exact ⟨q, hq, hacc⟩
  · obtain ⟨q, hq, hacc⟩ := hs
    refine ⟨q, ⟨hq, fun e => ?_⟩, hacc⟩
    rw [e, h.not_accepting] at hacc
    cases hacc

/-- **Without the entry, no word gets another answer.** -/
theorem EntryOnly.anyAccepting_after_erase (h : a.EntryOnly p) :
    a.anyAccepting (a.after (s.erase p) w) = a.anyAccepting (a.after s w) := by
  by_cases hw : w = []
  · rw [hw, after_nil, after_nil, h.anyAccepting_erase]
  · rw [h.after_erase hw]

/-! ## 3. Sets behind a symbol -/

/-- The sets, not empty, to which words lead that read something. -/
def Later (a : Automaton) (initial s : StateSet) : Prop :=
  s.isEmpty = false ∧ ∃ w, w ≠ [] ∧ s = a.after initial w

/-- **The sets that are met are the one to start from and those behind a symbol.** -/
theorem mem_subsets_iff_later (ha : a.WellFormed) :
    s ∈ a.subsets initial ↔ s = initial ∨ a.Later initial s := by
  rw [mem_subsets_iff ha]
  refine ⟨fun h => ?_, fun h => ?_⟩
  · obtain ⟨w, rfl, hw⟩ := h
    by_cases hnil : w = []
    · exact Or.inl (by rw [hnil, after_nil])
    · exact Or.inr ⟨hw.resolve_left hnil, w, hnil, rfl⟩
  · rcases h with rfl | ⟨hne, w, _, rfl⟩
    · exact ⟨[], after_nil.symm, Or.inl rfl⟩
    · exact ⟨w, rfl, Or.inr hne⟩

/-- If the set to start from is behind a symbol, all sets that are met are. -/
theorem size_subsets_of_later (ha : a.WellFormed) (hn : later.Nodup)
    (hl : ∀ s, s ∈ later ↔ a.Later initial s) (h : a.Later initial initial) :
    (a.subsets initial).size = later.length := by
  refine ((List.perm_ext_iff_of_nodup (a.subsets initial).nodup hn).2 fun s => ?_).length_eq
  rw [← OrderedSet.mem_def, mem_subsets_iff_later ha, hl]
  exact ⟨fun hs => hs.elim (fun e => e ▸ h) id, Or.inr⟩

/-- Otherwise there is one more. -/
theorem size_subsets_of_not_later (ha : a.WellFormed) (hn : later.Nodup)
    (hl : ∀ s, s ∈ later ↔ a.Later initial s) (h : ¬ a.Later initial initial) :
    (a.subsets initial).size = later.length + 1 := by
  have hnodup : (initial :: later).Nodup := List.nodup_cons.2 ⟨mt (hl initial).1 h, hn⟩
  refine ((List.perm_ext_iff_of_nodup (a.subsets initial).nodup hnodup).2 fun s => ?_).length_eq
  rw [← OrderedSet.mem_def, mem_subsets_iff_later ha, List.mem_cons, hl]

namespace EntryOnly

theorem later_erase_iff (h : a.EntryOnly p) : a.Later (initial.erase p) s ↔ a.Later initial s :=
  and_congr_right fun _ => exists_congr fun _ => and_congr_right fun hw => by rw [h.after_erase hw]

variable (h : a.EntryOnly a.start) (ha : a.WellFormed)

include h

/-- The set with the entry is not met again. -/
theorem not_later_initialSet : ¬ a.Later a.initialSet a.initialSet := by
  rintro ⟨_, w, hw, e⟩
  have hstart : a.start ∈ a.initialSet := mem_initialSet_iff.2 (.here _)
  rw [e, mem_after_initialSet_iff] at hstart
  exact hw (h.eq_nil_of_path hstart).2

include ha

/-- **Without the entry as many sets are met, or one less**: one less if the set to start from is
met again. -/
theorem size_subsets :
    (¬ a.Later a.initialSet (a.initialSet.erase a.start) →
      (a.subsets (a.initialSet.erase a.start)).size = (a.subsets a.initialSet).size) ∧
    (a.Later a.initialSet (a.initialSet.erase a.start) →
      (a.subsets (a.initialSet.erase a.start)).size + 1 = (a.subsets a.initialSet).size) := by
  have hn : ((a.subsets a.initialSet).toList.erase a.initialSet).Nodup :=
    (a.subsets a.initialSet).nodup.erase _
  have hl : ∀ s, s ∈ (a.subsets a.initialSet).toList.erase a.initialSet ↔
      a.Later a.initialSet s := fun s => by
    rw [List.Nodup.mem_erase_iff (a.subsets a.initialSet).nodup, ← OrderedSet.mem_def,
      mem_subsets_iff_later ha]
    exact ⟨fun hs => hs.2.resolve_left hs.1,
      fun hs => ⟨fun e => h.not_later_initialSet (e ▸ hs), Or.inr hs⟩⟩
  rw [size_subsets_of_not_later ha hn hl h.not_later_initialSet]
  have hl' : ∀ s, s ∈ (a.subsets a.initialSet).toList.erase a.initialSet ↔
      a.Later (a.initialSet.erase a.start) s := fun s => (hl s).trans h.later_erase_iff.symm
  refine ⟨fun hr => ?_, fun hr => ?_⟩
  · exact size_subsets_of_not_later ha hn hl' (mt h.later_erase_iff.1 hr)
  · rw [size_subsets_of_later ha hn hl' (h.later_erase_iff.2 hr)]

end EntryOnly

/-! ## 4. Determinization from the entry -/

theorem wellFormed_determinizeFromEntry : a.determinizeFromEntry.WellFormed :=
  wellFormed_subsetAutomaton

theorem deterministic_determinizeFromEntry (ha : a.WellFormed) :
    a.determinizeFromEntry.Deterministic := deterministic_subsetAutomaton ha

/-- **It accepts the same words.** -/
theorem accepts_determinizeFromEntry (ha : a.WellFormed) :
    a.determinizeFromEntry.accepts w = a.determinize.accepts w := by
  rw [Bool.eq_iff_iff, determinizeFromEntry, determinize, accepts_subsetAutomaton ha,
    accepts_subsetAutomaton ha]
  by_cases h : a.EntryOnly a.start
  · rw [h.entrySet_eq ha, h.anyAccepting_after_erase]
  · rw [entrySet_of_not_entryOnly h ha]

/-- **Its states are numbered without gaps.** -/
theorem mem_states_determinizeFromEntry (ha : a.WellFormed) : n ∈ a.determinizeFromEntry.states ↔
    ∃ i < a.determinizeFromEntry.size, n = "d" ++ toString i := by
  have hnumbered : ∀ i j : Nat, "d" ++ toString i = "d" ++ toString j → i = j := fun _ _ e =>
    toString_nat_injective ((String.append_right_inj _).1 e)
  have hnames : a.determinizeFromEntry.stateNames.Perm _ := perm_stateNames_subsetAutomaton ha
  rw [values_nameSets_of_injective hnumbered (a.subsets a.entrySet).nodup] at hnames
  rw [determinizeFromEntry, size_subsetAutomaton ha, OrderedMap.mem_def]
  refine hnames.mem_iff.trans (List.mem_map.trans ?_)
  simp only [List.mem_range, eq_comm]
  exact Iff.rfl

/-- Behind some word a run may be in the states in which it may be before anything is read, the
start apart. -/
def ReturnsToEntry (a : Automaton) : Prop :=
  (∃ q, q ≠ a.start ∧ a.Path a.start [] q) ∧
    ∃ w, w ≠ [] ∧ ∀ q, a.Path a.start w q ↔ q ≠ a.start ∧ a.Path a.start [] q

theorem later_erase_start_iff :
    a.Later a.initialSet (a.initialSet.erase a.start) ↔ a.ReturnsToEntry := by
  have hmem : ∀ q, q ∈ a.initialSet.erase a.start ↔ q ≠ a.start ∧ a.Path a.start [] q := fun q => by
    rw [StateSet.mem_erase, mem_initialSet_iff, and_comm]
  refine and_congr ?_ (exists_congr fun w => and_congr_right fun _ => ⟨fun e q => ?_, fun hw => ?_⟩)
  · simp only [StateSet.isEmpty_eq_false_iff, hmem]
  · rw [← hmem, e, mem_after_initialSet_iff]
  · exact StateSet.ext fun q => by rw [hmem, mem_after_initialSet_iff, hw]

/-- **Determinization from the entry agrees with determinization from the start.** It yields a
deterministic automaton that accepts the same words, with states that are numbered without gaps.
It has as many states, or one less: one less iff the start is only an entry and the set of the
other states to start from, not empty, is met again behind some word. -/
theorem determinizeFromEntry_agrees (ha : a.WellFormed) :
    a.determinizeFromEntry.isDeterministic = true ∧
      (∀ w, a.determinizeFromEntry.accepts w = a.determinize.accepts w) ∧
      (∀ n, n ∈ a.determinizeFromEntry.states ↔
        ∃ i < a.determinizeFromEntry.size, n = "d" ++ toString i) ∧
      (a.determinizeFromEntry.size = a.determinize.size ∨
        a.determinizeFromEntry.size + 1 = a.determinize.size) ∧
      (a.determinizeFromEntry.size + 1 = a.determinize.size ↔
        a.EntryOnly a.start ∧ a.ReturnsToEntry) := by
  refine ⟨(isDeterministic_iff wellFormed_determinizeFromEntry).2
    (deterministic_determinizeFromEntry ha), fun _ => accepts_determinizeFromEntry ha,
    fun _ => mem_states_determinizeFromEntry ha, ?_⟩
  rw [determinizeFromEntry, determinize, size_subsetAutomaton ha, size_subsetAutomaton ha,
    ← later_erase_start_iff]
  by_cases h : a.EntryOnly a.start
  · rw [h.entrySet_eq ha, and_iff_right h]
    obtain ⟨hequal, hless⟩ := h.size_subsets ha
    by_cases hr : a.Later a.initialSet (a.initialSet.erase a.start)
    · exact ⟨Or.inr (hless hr), iff_of_true (hless hr) hr⟩
    · rw [hequal hr]
      exact ⟨Or.inl rfl, iff_of_false (Nat.succ_ne_self _) hr⟩
  · rw [entrySet_of_not_entryOnly h ha]
    exact ⟨Or.inl rfl, iff_of_false (Nat.succ_ne_self _) fun hr => h hr.1⟩

/-- An automaton that enters a cycle of two states, the second one accepting, from outside. -/
def circling : Automaton :=
  ofRows "s" ['x'] [⟨"s", false, [(.epsilon, "p")]⟩, ⟨"p", false, [(.symbol 'x', "q")]⟩,
    ⟨"q", true, [(.symbol 'x', "p")]⟩]

example : circling.determinizeFromEntry.stateNames = ["d0", "d1"] := by decide

theorem determinizeFromEntry_agrees_circling : circling.WellFormed ∧
    circling.EntryOnly circling.start ∧ circling.ReturnsToEntry ∧
      circling.determinizeFromEntry.size + 1 = circling.determinize.size ∧
      circling.determinizeFromEntry.accepts ['x'] = circling.determinize.accepts ['x'] := by
  have ha : circling.WellFormed := wellFormed_ofRows
  obtain ⟨_, haccepts, _, _, hsize⟩ := determinizeFromEntry_agrees ha
  have hless : circling.determinizeFromEntry.size + 1 = circling.determinize.size := by decide
  obtain ⟨hentry, hreturns⟩ := hsize.1 hless
  exact ⟨ha, hentry, hreturns, hless, haccepts ['x']⟩

end RegularLanguages.Automaton
