import RegularLanguages.Proofs.Automaton.Outcome
import RegularLanguages.Proofs.Automaton.Pruning
import RegularLanguages.Proofs.Automaton.Reversal
import RegularLanguages.Proofs.Minimization.Entry

/-!
# Double reversal minimizes

A round of reversal, determinization and pruning reverses the language. Its states are the sets
`backwardSet`, which hold the states from which the word is recognized backwards. If the automaton
before the round is deterministic and accessible, two words have the same set only if the same
words may follow them, so no deterministic automaton gets along with fewer states.

* `mem_backwardSet_iff` -- what the subset construction on a reversal computes;
* `recognizes_reverseDeterminized_iff` -- one round reverses the language;
* `SameLanguage.sameLanguageFrom_iff` -- what is recognized from a state is the future of the words
  that lead to it;
* `backwardSet_eq_iff` -- **behind a round, sets are equal iff the futures of their words are**;
* `doubleReversal_minimizes` -- **two rounds give a smallest deterministic automaton**.
-/

namespace RegularLanguages.Automaton

variable {a b : Automaton} {n p q : StateName} {u v w : Word}

/-! ## 1. The entry of a reversal -/

/-- The start of a reversal is nothing but an entry. -/
theorem entryOnly_start_reverse (ha : a.WellFormed) : a.reverse.EntryOnly a.reverse.start where
  not_accepting := by
    rw [← Bool.not_eq_true, isAccepting_reverse]
    exact (start_ne_start_reverse ha).symm
  reads_nothing c := List.eq_nil_iff_forall_not_mem.2 fun q hq =>
    absurd ((mem_successors_start_reverse ha).1 hq).1 nofun
  not_entered _ _ h := ne_start_of_mem_successors_reverse ha h rfl

theorem mem_entrySet_reverse_iff_initialSet (ha : a.WellFormed) :
    q ∈ a.reverse.entrySet ↔ q ∈ a.reverse.initialSet ∧ q ≠ a.reverse.start := by
  rw [(entryOnly_start_reverse ha).entrySet_eq wellFormed_reverse, StateSet.mem_erase]

/-- The subset construction on a reversal starts from the states from which the empty word is
recognized. -/
theorem mem_entrySet_reverse (ha : a.WellFormed) :
    q ∈ a.reverse.entrySet ↔ a.RecognizesFrom q [] := by
  rw [mem_entrySet_reverse_iff_initialSet ha, mem_initialSet_iff]
  refine ⟨fun h => ?_, fun h => ?_⟩
  · obtain ⟨h, hq⟩ := h
    exact (path_start_reverse_iff ha hq).1 h
  · have hq : q ≠ a.reverse.start := fun e => start_reverse_not_mem (e ▸ h.mem_states)
    exact ⟨(path_start_reverse_iff ha hq).2 h, hq⟩

theorem ne_start_of_mem_entrySet (ha : a.WellFormed) (h : q ∈ a.reverse.entrySet) :
    q ≠ a.reverse.start := ((mem_entrySet_reverse_iff_initialSet ha).1 h).2

theorem isClosed_entrySet_reverse (ha : a.WellFormed) : a.reverse.IsClosed a.reverse.entrySet := by
  intro p hp q hq
  have hne := ne_start_of_mem_entrySet ha hp
  rw [mem_entrySet_reverse ha] at hp ⊢
  obtain ⟨r, hr, hacc⟩ := hp
  exact ⟨r, ((path_reverse_iff ha hne).1 hq).append hr, hacc⟩

/-! ## 2. The sets of one round -/

/-- The set that a word leads to in the subset construction on the reversal. -/
def backwardSet (a : Automaton) (w : Word) : StateSet := a.reverse.after a.reverse.entrySet w

theorem backwardSet_nil : a.backwardSet [] = a.reverse.entrySet := after_nil

/-- **It holds the states from which the word is recognized backwards.** -/
theorem mem_backwardSet_iff (ha : a.WellFormed) :
    q ∈ a.backwardSet w ↔ a.RecognizesFrom q w.reverse := by
  rw [backwardSet, mem_after_iff (isClosed_entrySet_reverse ha)]
  refine ⟨fun h => ?_, fun h => ?_⟩
  · obtain ⟨p, hp, h⟩ := h
    rw [path_reverse_iff ha (ne_start_of_mem_entrySet ha hp)] at h
    obtain ⟨r, hr, hacc⟩ := (mem_entrySet_reverse ha).1 hp
    exact ⟨r, List.append_nil w.reverse ▸ h.append hr, hacc⟩
  · obtain ⟨r, hr, hacc⟩ := h
    have hmem : r ∈ a.reverse.entrySet := (mem_entrySet_reverse ha).2 ⟨r, .here r, hacc⟩
    exact ⟨r, hmem, (path_reverse_iff ha (ne_start_of_mem_entrySet ha hmem)).2 hr⟩

theorem anyAccepting_backwardSet (ha : a.WellFormed) :
    a.reverse.anyAccepting (a.backwardSet w) = true ↔ a.Recognizes w.reverse := by
  rw [anyAccepting_iff]
  simp only [isAccepting_reverse, exists_eq_right, mem_backwardSet_iff ha]
  exact Iff.rfl

/-- Words may follow in front of it that lead to one of its members. -/
theorem recognizes_append_iff_backwardSet (ha : a.WellFormed) :
    a.Recognizes (u ++ w.reverse) ↔ ∃ q ∈ a.backwardSet w, a.Path a.start u q := by
  refine ⟨fun h => ?_, fun h => ?_⟩
  · obtain ⟨r, h, hacc⟩ := h
    obtain ⟨q, hu, hw⟩ := path_append_iff.1 h
    exact ⟨q, (mem_backwardSet_iff ha).2 ⟨r, hw, hacc⟩, hu⟩
  · obtain ⟨q, hq, hu⟩ := h
    obtain ⟨r, hw, hacc⟩ := (mem_backwardSet_iff ha).1 hq
    exact ⟨r, hu.append hw, hacc⟩

/-! ## 3. One round -/

theorem wellFormed_reverseDeterminized : a.reverseDeterminized.WellFormed := wellFormed_reachable

theorem deterministic_reverseDeterminized : a.reverseDeterminized.Deterministic :=
  (deterministic_determinizeFromEntry wellFormed_reverse).reachable wellFormed_determinizeFromEntry

theorem accessible_reverseDeterminized (hp : p ∈ a.reverseDeterminized.states) :
    a.reverseDeterminized.Accessible p :=
  accessible_reachable wellFormed_determinizeFromEntry hp

theorem alphabet_reverseDeterminized (ha : a.WellFormed) :
    a.reverseDeterminized.alphabet = a.alphabet :=
  (alphabet_reachable wellFormed_determinizeFromEntry).trans
    (alphabet_subsetAutomaton.trans (alphabet_reverse ha))

/-- **A round reverses the language.** -/
theorem recognizes_reverseDeterminized_iff (ha : a.WellFormed) :
    a.reverseDeterminized.Recognizes w ↔ a.Recognizes w.reverse := by
  rw [reverseDeterminized, recognizes_reachable wellFormed_determinizeFromEntry,
    ← accepts_iff_recognizes (deterministic_determinizeFromEntry wellFormed_reverse),
    determinizeFromEntry, accepts_subsetAutomaton wellFormed_reverse]
  exact anyAccepting_backwardSet ha

/-- The state of a round that stands for a set. -/
def roundState (a : Automaton) (s : StateSet) : StateName :=
  a.reverse.setName a.reverse.entrySet (fun _ n => "d" ++ toString n) s

/-- Each state of a round stands for the set of a word, empty only for the empty word. -/
theorem exists_backwardSet_of_mem_states (hp : p ∈ a.reverseDeterminized.states) :
    ∃ w, (w = [] ∨ (a.backwardSet w).isEmpty = false) ∧ p = a.roundState (a.backwardSet w) := by
  have hacc := (mem_states_reachable wellFormed_determinizeFromEntry).1 hp
  have hmem := hacc.mem_states wellFormed_determinizeFromEntry
  obtain ⟨s, hs, rfl⟩ := (mem_states_subsetAutomaton wellFormed_reverse).1 hmem
  obtain ⟨w, rfl, hw⟩ := (mem_subsets_iff wellFormed_reverse).1 hs
  exact ⟨w, hw, rfl⟩

/-- A round reads the words whose set is not empty, each to the state of its set. -/
theorem run?_reverseDeterminized_iff :
    a.reverseDeterminized.run? a.reverseDeterminized.start w = some n ↔
      (w = [] ∨ (a.backwardSet w).isEmpty = false) ∧ n = a.roundState (a.backwardSet w) := by
  have hd := deterministic_determinizeFromEntry (wellFormed_reverse (a := a))
  rw [reverseDeterminized, start_reachable,
    run?_reachable wellFormed_determinizeFromEntry hd accessible_start, determinizeFromEntry,
    start_subsetAutomaton, run?_setName_iff wellFormed_reverse
      (initial_mem_subsets wellFormed_reverse)]
  exact Iff.rfl

/-- Different sets have different states. -/
theorem roundState_injective (hu : u = [] ∨ (a.backwardSet u).isEmpty = false)
    (hv : v = [] ∨ (a.backwardSet v).isEmpty = false)
    (h : a.roundState (a.backwardSet u) = a.roundState (a.backwardSet v)) :
    a.backwardSet u = a.backwardSet v :=
  setName_injective ((mem_subsets_iff wellFormed_reverse).2 ⟨u, rfl, hu⟩)
    ((mem_subsets_iff wellFormed_reverse).2 ⟨v, rfl, hv⟩) h

/-! ## 4. Futures -/

/-- Two words have the same future if the same words may follow them. -/
def SameFuture (a : Automaton) (u v : Word) : Prop :=
  ∀ x, a.Recognizes (u ++ x) ↔ a.Recognizes (v ++ x)

theorem SameLanguage.sameFuture_iff (h : a.SameLanguage b) :
    a.SameFuture u v ↔ b.SameFuture u v := by
  simp only [SameFuture, h _]

section Futures

variable (h : b.SameLanguage a) (hd : b.Deterministic) (hu : b.Path b.start u p)

include h hd hu

theorem SameLanguage.recognizesFrom_iff : b.RecognizesFrom p w ↔ a.Recognizes (u ++ w) :=
  (recognizesFrom_iff_append hd hu).trans (h _)

/-- **States of a deterministic automaton recognize the same words iff the words that lead to them
have the same future.** -/
theorem SameLanguage.sameLanguageFrom_iff (hv : b.Path b.start v q) :
    b.SameLanguageFrom p q ↔ a.SameFuture u v :=
  forall_congr' fun _ => iff_congr (h.recognizesFrom_iff hd hu) (h.recognizesFrom_iff hd hv)

end Futures

/-- Words that a deterministic automaton reads to the same state have the same future. -/
theorem sameFuture_of_run? (hd : a.Deterministic) (hu : a.run? a.start u = some p)
    (hv : a.run? a.start v = some p) : a.SameFuture u v := by
  have hself : a.SameLanguage a := fun _ => Iff.rfl
  rw [← path_iff_run? hd] at hu hv
  exact (hself.sameLanguageFrom_iff hd hu hv).1 fun _ => Iff.rfl

theorem recognizes_reversed_iff (ha : a.WellFormed) :
    a.reverseDeterminized.Recognizes (v ++ u.reverse) ↔ a.Recognizes (u ++ v.reverse) := by
  rw [recognizes_reverseDeterminized_iff ha, List.reverse_append, List.reverse_reverse]

/-- Behind a round, a state is in the set of a word if a word that leads to the state, read
backwards, may follow. Any such word will do, since the first round leaves no choice. -/
theorem mem_backwardSet_reverseDeterminized (ha : a.WellFormed) :
    q ∈ a.reverseDeterminized.backwardSet w ↔
      ∃ y, a.reverseDeterminized.Path a.reverseDeterminized.start y q ∧
        a.Recognizes (w ++ y.reverse) := by
  have hpath : ∀ {y}, a.reverseDeterminized.Path a.reverseDeterminized.start y q →
      (a.reverseDeterminized.RecognizesFrom q w.reverse ↔ a.Recognizes (w ++ y.reverse)) :=
    fun hy => (recognizesFrom_iff_append deterministic_reverseDeterminized hy).trans
      (recognizes_reversed_iff ha)
  rw [mem_backwardSet_iff wellFormed_reverseDeterminized]
  refine ⟨fun h => ?_, fun h => ?_⟩
  · obtain ⟨y, hy⟩ := accessible_reverseDeterminized h.mem_states
    exact ⟨y, hy, (hpath hy).1 h⟩
  · obtain ⟨y, hy, h⟩ := h
    exact (hpath hy).2 h

/-- **Behind a round, two words have the same set iff they have the same future.** -/
theorem backwardSet_eq_iff (ha : a.WellFormed) :
    a.reverseDeterminized.backwardSet u = a.reverseDeterminized.backwardSet v ↔
      a.SameFuture u v := by
  constructor
  · intro e x
    rw [← List.reverse_reverse x, ← recognizes_reversed_iff ha, ← recognizes_reversed_iff ha,
      recognizes_append_iff_backwardSet wellFormed_reverseDeterminized,
      recognizes_append_iff_backwardSet wellFormed_reverseDeterminized, e]
  · intro h
    refine StateSet.ext fun q => ?_
    simp only [mem_backwardSet_reverseDeterminized ha, h _]

/-- Behind a round, the set of a word is empty iff the word has no future. -/
theorem isEmpty_backwardSet_iff (ha : a.WellFormed) :
    (a.reverseDeterminized.backwardSet w).isEmpty = false ↔ ∃ x, a.Recognizes (w ++ x) := by
  rw [StateSet.isEmpty_eq_false_iff]
  refine ⟨fun h => ?_, fun h => ?_⟩
  · obtain ⟨q, hq⟩ := h
    obtain ⟨y, _, h⟩ := (mem_backwardSet_reverseDeterminized ha).1 hq
    exact ⟨y.reverse, h⟩
  · obtain ⟨x, h⟩ := h
    rw [← List.reverse_reverse x, ← recognizes_reversed_iff ha,
      recognizes_append_iff_backwardSet wellFormed_reverseDeterminized] at h
    obtain ⟨q, hq, _⟩ := h
    exact ⟨q, hq⟩

/-! ## 5. Two rounds -/

theorem wellFormed_doubleReversal : a.doubleReversal.WellFormed := wellFormed_reverseDeterminized

theorem deterministic_doubleReversal : a.doubleReversal.Deterministic :=
  deterministic_reverseDeterminized

theorem accessible_doubleReversal (hp : p ∈ a.doubleReversal.states) :
    a.doubleReversal.Accessible p := accessible_reverseDeterminized hp

/-- **Two rounds keep the language.** -/
theorem recognizes_doubleReversal_iff (ha : a.WellFormed) :
    a.doubleReversal.Recognizes w ↔ a.Recognizes w := by
  rw [doubleReversal, recognizes_reverseDeterminized_iff wellFormed_reverseDeterminized,
    recognizes_reverseDeterminized_iff ha, List.reverse_reverse]

theorem sameLanguage_doubleReversal (ha : a.WellFormed) : a.doubleReversal.SameLanguage a :=
  fun _ => recognizes_doubleReversal_iff ha

theorem accepts_doubleReversal_iff (ha : a.WellFormed) :
    a.doubleReversal.accepts w = true ↔ a.Recognizes w :=
  (accepts_iff_recognizes deterministic_doubleReversal).trans (recognizes_doubleReversal_iff ha)

/-- A state that two rounds leave stands for a word that has a future, or for the empty word. -/
theorem exists_word_of_mem_states (ha : a.WellFormed) (hp : p ∈ a.doubleReversal.states) :
    ∃ w, (w = [] ∨ ∃ x, a.Recognizes (w ++ x)) ∧
      p = a.reverseDeterminized.roundState (a.reverseDeterminized.backwardSet w) := by
  obtain ⟨w, hw, e⟩ := exists_backwardSet_of_mem_states hp
  exact ⟨w, hw.imp id (isEmpty_backwardSet_iff ha).1, e⟩

/-- Two rounds read the words that have a future, and the empty word. -/
theorem isSome_run?_doubleReversal_iff (ha : a.WellFormed) :
    (a.doubleReversal.run? a.doubleReversal.start w).isSome = true ↔
      w = [] ∨ ∃ x, a.Recognizes (w ++ x) := by
  rw [← isEmpty_backwardSet_iff ha, Option.isSome_iff_exists, doubleReversal]
  simp only [run?_reverseDeterminized_iff, exists_and_left, exists_eq, and_true]

/-- **They read two such words to one state iff these have the same future.** -/
theorem run?_doubleReversal_eq_iff (ha : a.WellFormed) (hu : u = [] ∨ ∃ x, a.Recognizes (u ++ x))
    (hv : v = [] ∨ ∃ x, a.Recognizes (v ++ x)) :
    a.doubleReversal.run? a.doubleReversal.start u =
      a.doubleReversal.run? a.doubleReversal.start v ↔ a.SameFuture u v := by
  rw [← isEmpty_backwardSet_iff ha] at hu hv
  have hrun : ∀ {w}, (w = [] ∨ (a.reverseDeterminized.backwardSet w).isEmpty = false) →
      a.doubleReversal.run? a.doubleReversal.start w =
        some (a.reverseDeterminized.roundState (a.reverseDeterminized.backwardSet w)) := fun hw =>
    run?_reverseDeterminized_iff.2 ⟨hw, rfl⟩
  rw [hrun hu, hrun hv, Option.some_inj, ← backwardSet_eq_iff ha]
  exact ⟨roundState_injective hu hv, congrArg _⟩

/-- A deterministic automaton reads words that have a future. -/
theorem exists_run?_of_future (hb : b.WellFormed) (hd : b.Deterministic)
    (h : w = [] ∨ ∃ x, b.Recognizes (w ++ x)) : ∃ q ∈ b.states, b.run? b.start w = some q := by
  rcases h with rfl | ⟨x, r, hr, _⟩
  · exact ⟨b.start, hb.start_mem, rfl⟩
  · obtain ⟨q, hq, _⟩ := path_append_iff.1 hr
    exact ⟨q, hq.mem_states hb hb.start_mem, (path_iff_run? hd).1 hq⟩

/-- **No deterministic automaton for the language is smaller**: words that it reads to one state
have one future. -/
theorem size_doubleReversal_le (ha : a.WellFormed) (hb : b.WellFormed) (hd : b.Deterministic)
    (h : a.SameLanguage b) : a.doubleReversal.size ≤ b.size := by
  refine size_le_of_relation (fun p q => ∃ w, b.run? b.start w = some q ∧
    p = a.reverseDeterminized.roundState (a.reverseDeterminized.backwardSet w)) ?_ ?_
  · intro p hp
    obtain ⟨w, hw, e⟩ := exists_word_of_mem_states ha hp
    have hw' : w = [] ∨ ∃ x, b.Recognizes (w ++ x) := by
      simpa only [h _] using hw
    obtain ⟨q, hq, hrun⟩ := exists_run?_of_future hb hd hw'
    exact ⟨q, hq, w, hrun, e⟩
  · intro p p' q hq hq'
    obtain ⟨u, hu, hp⟩ := hq
    obtain ⟨v, hv, hp'⟩ := hq'
    have hsets : a.reverseDeterminized.backwardSet u = a.reverseDeterminized.backwardSet v :=
      (backwardSet_eq_iff ha).2 (h.sameFuture_iff.2 (sameFuture_of_run? hd hu hv))
    rw [hp, hp', hsets]

/-- **Double reversal minimizes**: it makes an automaton deterministic, keeps its language, and
leaves no more states than any deterministic automaton for the language has. -/
theorem doubleReversal_minimizes (ha : a.WellFormed) :
    a.doubleReversal.isDeterministic = true ∧
      (∀ w, a.doubleReversal.accepts w = true ↔ a.Recognizes w) ∧
        ∀ b : Automaton, b.WellFormed → b.isDeterministic = true → a.SameLanguage b →
          a.doubleReversal.size ≤ b.size := by
  refine ⟨?_, fun w => accepts_doubleReversal_iff ha, fun b hb hd h => ?_⟩
  · exact (isDeterministic_iff wellFormed_doubleReversal).2 deterministic_doubleReversal
  · exact size_doubleReversal_le ha hb ((isDeterministic_iff hb).1 hd) h

/-- An automaton that may leave its loop without reading anything. -/
def stuttering : Automaton :=
  ofRows "p" ['x'] [⟨"p", false, [(.symbol 'x', "p"), (.epsilon, "q")]⟩, ⟨"q", true, []⟩]

theorem doubleReversal_minimizes_stuttering : stuttering.WellFormed ∧
    stuttering.doubleReversal.isDeterministic = true ∧
      stuttering.doubleReversal.accepts ['x'] = true ∧
        stuttering.SameLanguage stuttering.determinize ∧
          stuttering.doubleReversal.size ≤ stuttering.determinize.size := by
  have ha : stuttering.WellFormed := wellFormed_ofRows
  have hword : stuttering.Recognizes ['x'] :=
    ⟨"q", .symbol (by decide : "p" ∈ stuttering.successors "p" (.symbol 'x'))
      (.singleEpsilon (by decide)), by decide⟩
  have hd : stuttering.determinize.isDeterministic = true :=
    (isDeterministic_iff wellFormed_determinize).2 (deterministic_determinize ha)
  have hsame : stuttering.SameLanguage stuttering.determinize := fun _ =>
    (recognizes_determinize_iff ha).symm
  obtain ⟨hdet, haccepts, hleast⟩ := doubleReversal_minimizes ha
  exact ⟨ha, hdet, (haccepts ['x']).2 hword, hsame, hleast _ wellFormed_determinize hd hsame⟩

end RegularLanguages.Automaton
