import Mathlib.Computability.Language
import RegularLanguages.Automaton.Thompson
import RegularLanguages.Proofs.Automaton.Path

/-!
# Putting automata together

Automata with one accepting state are joined by epsilon moves. The words that paths from the start
to the accepting state spell are put together in the same way.

* `SingleFinal` -- a well-formed automaton with one accepting state, and `spelled`, the words that
  paths from its start to this state spell;
* `Path.leave` -- a path that leaves a part does so at its accepting state;
* `spelled_inSequence`, `spelled_sideBySide`, `spelled_looped` -- **one behind the other is the
  product, side by side the sum, and a loop the iteration**.
-/

open Computability

namespace RegularLanguages.Automaton

variable {a left right : Automaton} {p q t start final : StateName} {l : Label} {w : Word}

/-! ## 1. One accepting state -/

/-- A well-formed automaton with one accepting state. -/
structure SingleFinal (a : Automaton) : Prop where
  /-- Its parts fit together. -/
  wellFormed : a.WellFormed
  /-- The final state is the only accepting one. -/
  toList_accepting : a.accepting.toList = [a.finalState]

theorem finalState_of_toList (h : a.accepting.toList = [final]) : a.finalState = final := by
  rw [finalState, h]
  rfl

theorem SingleFinal.of_toList (ha : a.WellFormed) (h : a.accepting.toList = [final]) :
    a.SingleFinal := ⟨ha, by rw [finalState_of_toList h, h]⟩

theorem SingleFinal.isAccepting_iff (ha : a.SingleFinal) :
    a.isAccepting p = true ↔ p = a.finalState := by
  rw [← ha.wellFormed.mem_accepting_iff, OrderedSet.mem_def, ha.toList_accepting,
    List.mem_singleton]

theorem SingleFinal.finalState_mem (ha : a.SingleFinal) : a.finalState ∈ a.states :=
  mem_states_of_isAccepting (ha.isAccepting_iff.2 rfl)

/-- Taking the mark from the only accepting state and giving it to another one leaves that one. -/
theorem toList_accepting_moved (h : a.accepting.toList = [start]) :
    ((a.mark start false).mark final true).accepting.toList = [final] := by
  have herase : (a.accepting.erase start).toList = [] := by
    show a.accepting.toList.filter (· ≠ start) = []
    rw [h]
    simp
  show ((a.accepting.erase start).insert final).toList = [final]
  rw [OrderedSet.toList_insert, herase]
  split
  · rename_i hg
    rw [OrderedSet.mem_def, herase] at hg
    exact absurd hg List.not_mem_nil
  · rfl

/-- The words that paths from the start to the accepting state spell. -/
def spelled (a : Automaton) : Language Symbol := { w | a.Path a.start w a.finalState }

theorem mem_spelled : w ∈ a.spelled ↔ a.Path a.start w a.finalState := Iff.rfl

theorem SingleFinal.recognizes_iff (ha : a.SingleFinal) : a.Recognizes w ↔ w ∈ a.spelled := by
  constructor
  · intro h
    obtain ⟨q, hq, hacc⟩ := h
    rw [mem_spelled, ← ha.isAccepting_iff.1 hacc]
    exact hq
  · exact fun hw => ⟨_, hw, ha.isAccepting_iff.2 rfl⟩

/-- A path that leaves a part does so at its accepting state, by an epsilon move to one of the
states to which the part is connected. -/
theorem Path.leave {whole part : Automaton} (exit : StateName → Prop) (hpart : part.WellFormed)
    (hm : ∀ x ∈ part.states, ∀ m y, y ∈ whole.successors x m →
      y ∈ part.successors x m ∨ (x = part.finalState ∧ m = .epsilon ∧ exit y))
    (h : whole.Path p w q) (hp : p ∈ part.states) (hq : q ∉ part.states) :
    ∃ u v t, exit t ∧ part.Path p u part.finalState ∧ whole.Path t v q ∧ u ++ v = w := by
  induction h with
  | here => exact absurd hp hq
  | epsilon hs hw ih =>
    rcases hm _ hp _ _ hs with hs | ⟨rfl, _, ht⟩
    · obtain ⟨u, v, t, ht, hu, hv, rfl⟩ := ih (hpart.mem_of_mem_successors hs) hq
      exact ⟨u, v, t, ht, .epsilon hs hu, hv, rfl⟩
    · exact ⟨[], _, _, ht, .here _, hw, rfl⟩
  | symbol hs _ ih =>
    rcases hm _ hp _ _ hs with hs | ⟨_, e, _⟩
    · obtain ⟨u, v, t, ht, hu, hv, rfl⟩ := ih (hpart.mem_of_mem_successors hs) hq
      exact ⟨_ :: u, v, t, ht, .symbol hs hu, hv, rfl⟩
    · cases e

/-- A path through a part, between an epsilon move into it and one out of it. -/
theorem Path.through {whole part : Automaton}
    (hm : ∀ x m y, y ∈ part.successors x m → y ∈ whole.successors x m)
    (hin : part.start ∈ whole.successors start .epsilon)
    (hout : final ∈ whole.successors part.finalState .epsilon)
    (h : part.Path part.start w part.finalState) : whole.Path start w final := by
  have hinside : whole.Path part.start w part.finalState := h.mono hm
  have hpath := hinside.append (.singleEpsilon hout)
  rw [List.append_nil] at hpath
  exact .epsilon hin hpath

/-! ## 2. One move -/

section Segment

variable {label : Option Label}

@[simp] theorem start_segment : (segment start final label).start = start := by
  unfold segment
  cases label with
  | none => rfl
  | some l => exact start_connect

theorem toList_accepting_segment : (segment start final label).accepting.toList = [final] := by
  unfold segment
  cases label with
  | none => rfl
  | some l => rw [accepting_connect]; rfl

theorem singleFinal_segment : (segment start final label).SingleFinal := by
  refine .of_toList ?_ toList_accepting_segment
  unfold segment
  cases label with
  | none => exact wellFormed_ofStart.addState.mark
  | some l => exact wellFormed_ofStart.addState.mark.connect

theorem mem_states_segment (h : p ∈ (segment start final label).states) :
    p = start ∨ p = final := by
  unfold segment at h
  cases label with
  | none => simpa [or_assoc] using h
  | some l => simpa [or_assoc] using h

theorem mem_successors_segment : t ∈ (segment start final label).successors p l ↔
    p = start ∧ t = final ∧ label = some l := by
  unfold segment
  cases label with
  | none => simp
  | some m => simp [eq_comm]

theorem mem_spelled_segment (h : start ≠ final) : w ∈ (segment start final label).spelled ↔
    (label = some .epsilon ∧ w = []) ∨ ∃ c, label = some (.symbol c) ∧ w = [c] := by
  have hend : ∀ {v}, (segment start final label).Path final v final → v = [] := fun hv =>
    (hv.eq_of_no_moves fun l => List.eq_nil_iff_forall_not_mem.2 fun t ht =>
      h (mem_successors_segment.1 ht).1.symm).1
  rw [mem_spelled, start_segment, finalState_of_toList toList_accepting_segment]
  refine ⟨fun hp => ?_, fun h => ?_⟩
  · cases hp with
    | here => exact absurd rfl h
    | epsilon hs hw =>
      obtain ⟨_, rfl, e⟩ := mem_successors_segment.1 hs
      exact Or.inl ⟨e, hend hw⟩
    | symbol hs hw =>
      obtain ⟨_, rfl, e⟩ := mem_successors_segment.1 hs
      exact Or.inr ⟨_, e, congrArg _ (hend hw)⟩
  · rcases h with ⟨e, rfl⟩ | ⟨c, e, rfl⟩
    · exact .singleEpsilon (mem_successors_segment.2 ⟨rfl, rfl, e⟩)
    · exact .single (mem_successors_segment.2 ⟨rfl, rfl, e⟩)

end Segment

/-! ## 3. One automaton behind the other -/

section InSequence

variable (hl : left.SingleFinal) (hr : right.SingleFinal) (hd : ∀ n ∈ left.states, n ∉ right.states)

@[simp] theorem start_inSequence : (inSequence left right).start = left.start := by
  simp [inSequence]

include hl in
theorem toList_accepting_inSequence :
    (inSequence left right).accepting.toList = [right.finalState] := by
  refine toList_accepting_moved ?_
  rw [accepting_connect, accepting_adjoin]
  exact hl.toList_accepting

include hl hr hd in
theorem singleFinal_inSequence : (inSequence left right).SingleFinal :=
  .of_toList (hl.wellFormed.adjoin hr.wellFormed hd).connect.mark.mark
    (toList_accepting_inSequence hl)

include hl hr in
theorem mem_states_inSequence :
    p ∈ (inSequence left right).states ↔ p ∈ left.states ∨ p ∈ right.states := by
  simp only [inSequence, mem_states_mark, mem_states_connect, mem_states_adjoin]
  constructor
  · intro h
    rcases h with (((h | h) | rfl | rfl) | rfl) | rfl
    · exact Or.inl h
    · exact Or.inr h
    · exact Or.inl hl.finalState_mem
    · exact Or.inr hr.wellFormed.start_mem
    · exact Or.inl hl.finalState_mem
    · exact Or.inr hr.finalState_mem
  · exact fun h => Or.inl (Or.inl (Or.inl h))

include hd in
theorem mem_successors_inSequence : t ∈ (inSequence left right).successors p l ↔
    t ∈ left.successors p l ∨ t ∈ right.successors p l ∨
      (p = left.finalState ∧ t = right.start ∧ l = .epsilon) := by
  rw [inSequence, successors_mark, successors_mark, mem_successors_connect,
    mem_successors_adjoin hd, or_assoc]

include hl hr hd in
theorem spelled_inSequence : (inSequence left right).spelled = left.spelled * right.spelled := by
  have hmoves : ∀ {x m y}, y ∈ (inSequence left right).successors x m ↔ _ :=
    mem_successors_inSequence hd
  ext w
  rw [Language.mem_mul, mem_spelled, start_inSequence,
    finalState_of_toList (toList_accepting_inSequence hl)]
  refine ⟨fun h => ?_, fun h => ?_⟩
  · obtain ⟨u, v, t, rfl, hu, hv, e⟩ := h.leave (· = right.start) hl.wellFormed
      (fun x hx m y hy => (hmoves.1 hy).imp id fun hy => by
        rcases hy with hy | ⟨hx, hy, hm⟩
        · exact absurd (mem_states_of_mem_successors hy) (hd x hx)
        · exact ⟨hx, hm, hy⟩)
      hl.wellFormed.start_mem fun h => hd _ h hr.finalState_mem
    refine ⟨u, hu, v, ?_, e⟩
    refine (hv.confined (· ∈ right.states) (fun x m y hx hy => ?_) hr.wellFormed.start_mem).2
    rcases hmoves.1 hy with hy | hy | ⟨rfl, _, _⟩
    · exact absurd hx (hd x (mem_states_of_mem_successors hy))
    · exact ⟨hr.wellFormed.mem_of_mem_successors hy, hy⟩
    · exact absurd hx (hd _ hl.finalState_mem)
  · obtain ⟨u, hu, v, hv, rfl⟩ := h
    have hu' : (inSequence left right).Path left.start u left.finalState :=
      hu.mono fun _ _ _ h => hmoves.2 (Or.inl h)
    have hv' : (inSequence left right).Path right.start v right.finalState :=
      hv.mono fun _ _ _ h => hmoves.2 (Or.inr (Or.inl h))
    exact hu'.append (.epsilon (hmoves.2 (Or.inr (Or.inr ⟨rfl, rfl, rfl⟩))) hv')

end InSequence

/-! ## 4. Both automata side by side -/

section SideBySide

variable (hl : left.SingleFinal) (hr : right.SingleFinal) (hd : ∀ n ∈ left.states, n ∉ right.states)
  (hs : start ∉ left.states ∧ start ∉ right.states)
  (hf : final ∉ left.states ∧ final ∉ right.states) (hsf : start ≠ final)

@[simp] theorem start_sideBySide : (sideBySide start final left right).start = start := rfl

include hl in
theorem toList_accepting_sideBySide :
    (sideBySide start final left right).accepting.toList = [final] := by
  refine toList_accepting_moved ?_
  simp only [accepting_connect, accepting_addState, accepting_adjoin]
  exact hl.toList_accepting

include hl hr hd in
theorem singleFinal_sideBySide : (sideBySide start final left right).SingleFinal :=
  have h := (hl.wellFormed.adjoin hr.wellFormed hd).addState.addState
  .of_toList h.connect.connect.connect.connect.mark.mark.startAt (toList_accepting_sideBySide hl)

include hl hr in
theorem mem_states_sideBySide : p ∈ (sideBySide start final left right).states ↔
    p ∈ left.states ∨ p ∈ right.states ∨ p = start ∨ p = final := by
  have h1 : p = left.start → p ∈ left.states := fun e => e ▸ hl.wellFormed.start_mem
  have h2 : p = left.finalState → p ∈ left.states := fun e => e ▸ hl.finalState_mem
  have h3 : p = right.start → p ∈ right.states := fun e => e ▸ hr.wellFormed.start_mem
  have h4 : p = right.finalState → p ∈ right.states := fun e => e ▸ hr.finalState_mem
  simp only [sideBySide, mem_states_startAt, mem_states_mark, mem_states_connect,
    mem_states_adjoin, mem_states_addState]
  grind

include hd in
theorem mem_successors_sideBySide :
    t ∈ (sideBySide start final left right).successors p l ↔
      t ∈ left.successors p l ∨ t ∈ right.successors p l ∨ (l = .epsilon ∧
        ((p = start ∧ (t = left.start ∨ t = right.start)) ∨
          (t = final ∧ (p = left.finalState ∨ p = right.finalState)))) := by
  simp only [sideBySide, successors_startAt, successors_mark, mem_successors_connect,
    successors_addState, mem_successors_adjoin hd]
  grind

include hl hr hd hf hsf in
/-- Nothing leads on from the new accepting state. -/
theorem successors_final_sideBySide :
    (sideBySide start final left right).successors final l = [] := by
  refine List.eq_nil_iff_forall_not_mem.2 fun t ht => ?_
  rcases (mem_successors_sideBySide hd).1 ht with h | h | ⟨_, ⟨h, _⟩ | ⟨_, h | h⟩⟩
  · exact hf.1 (mem_states_of_mem_successors h)
  · exact hf.2 (mem_states_of_mem_successors h)
  · exact hsf h.symm
  · exact hf.1 (h ▸ hl.finalState_mem)
  · exact hf.2 (h ▸ hr.finalState_mem)

include hl hr hd hs hf hsf in
/-- A path from one of the two automata to the new accepting state is one of that automaton. -/
theorem path_sideBySide (h : (sideBySide start final left right).Path p w final) :
    (p ∈ left.states → left.Path p w left.finalState) ∧
      (p ∈ right.states → right.Path p w right.finalState) := by
  have hend : ∀ {v}, (sideBySide start final left right).Path final v final → v = [] := fun hv =>
    (hv.eq_of_no_moves fun _ => successors_final_sideBySide hl hr hd hf hsf).1
  refine ⟨fun hp => ?_, fun hp => ?_⟩
  · obtain ⟨u, v, t, rfl, hu, hv, rfl⟩ := h.leave (· = final) hl.wellFormed
      (fun x hx m y hy => by
        rcases (mem_successors_sideBySide hd).1 hy with hy | hy | ⟨hm, ⟨e, _⟩ | ⟨hy, e | e⟩⟩
        · exact Or.inl hy
        · exact absurd (mem_states_of_mem_successors hy) (hd x hx)
        · exact absurd (e ▸ hx) hs.1
        · exact Or.inr ⟨e, hm, hy⟩
        · exact absurd (e ▸ hr.finalState_mem) (hd x hx))
      hp hf.1
    rwa [hend hv, List.append_nil]
  · obtain ⟨u, v, t, rfl, hu, hv, rfl⟩ := h.leave (· = final) hr.wellFormed
      (fun x hx m y hy => by
        rcases (mem_successors_sideBySide hd).1 hy with hy | hy | ⟨hm, ⟨e, _⟩ | ⟨hy, e | e⟩⟩
        · exact absurd hx (hd x (mem_states_of_mem_successors hy))
        · exact Or.inl hy
        · exact absurd (e ▸ hx) hs.2
        · exact absurd hx (hd x (e ▸ hl.finalState_mem))
        · exact Or.inr ⟨e, hm, hy⟩)
      hp hf.2
    rwa [hend hv, List.append_nil]

include hl hr hd hs in
/-- The new start leads to the two old ones. -/
theorem first_sideBySide (h : t ∈ (sideBySide start final left right).successors start l) :
    l = .epsilon ∧ (t = left.start ∨ t = right.start) := by
  rcases (mem_successors_sideBySide hd).1 h with h | h | ⟨hm, ⟨_, h⟩ | ⟨_, h | h⟩⟩
  · exact absurd (mem_states_of_mem_successors h) hs.1
  · exact absurd (mem_states_of_mem_successors h) hs.2
  · exact ⟨hm, h⟩
  · exact absurd (h ▸ hl.finalState_mem) hs.1
  · exact absurd (h ▸ hr.finalState_mem) hs.2

include hl hr hd hs hf hsf in
theorem spelled_sideBySide :
    (sideBySide start final left right).spelled = left.spelled + right.spelled := by
  have hmoves : ∀ {x m y}, y ∈ (sideBySide start final left right).successors x m ↔ _ :=
    mem_successors_sideBySide hd
  ext w
  rw [Language.mem_add, mem_spelled, start_sideBySide,
    finalState_of_toList (toList_accepting_sideBySide hl)]
  refine ⟨fun h => ?_, fun h => ?_⟩
  · cases h with
    | here => exact absurd rfl hsf
    | epsilon ht hw =>
      have hpath := path_sideBySide hl hr hd hs hf hsf hw
      rcases (first_sideBySide hl hr hd hs ht).2 with rfl | rfl
      · exact Or.inl (hpath.1 hl.wellFormed.start_mem)
      · exact Or.inr (hpath.2 hr.wellFormed.start_mem)
    | symbol ht _ => cases (first_sideBySide hl hr hd hs ht).1
  · rcases h with h | h
    · exact Path.through (fun _ _ _ h => hmoves.2 (Or.inl h))
        (hmoves.2 (Or.inr (Or.inr ⟨rfl, Or.inl ⟨rfl, Or.inl rfl⟩⟩)))
        (hmoves.2 (Or.inr (Or.inr ⟨rfl, Or.inr ⟨rfl, Or.inl rfl⟩⟩))) h
    · exact Path.through (fun _ _ _ h => hmoves.2 (Or.inr (Or.inl h)))
        (hmoves.2 (Or.inr (Or.inr ⟨rfl, Or.inl ⟨rfl, Or.inr rfl⟩⟩)))
        (hmoves.2 (Or.inr (Or.inr ⟨rfl, Or.inr ⟨rfl, Or.inr rfl⟩⟩))) h

end SideBySide

/-! ## 5. A loop -/

section Looped

variable (ha : a.SingleFinal) (hs : start ∉ a.states) (hf : final ∉ a.states) (hsf : start ≠ final)

@[simp] theorem start_looped : (looped start final a).start = start := rfl

include ha in
theorem toList_accepting_looped : (looped start final a).accepting.toList = [final] := by
  refine toList_accepting_moved ?_
  simp only [accepting_connect, accepting_addState]
  exact ha.toList_accepting

include ha in
theorem singleFinal_looped : (looped start final a).SingleFinal :=
  have h := ha.wellFormed.addState.addState
  .of_toList h.connect.connect.connect.connect.mark.mark.startAt (toList_accepting_looped ha)

include ha in
theorem mem_states_looped :
    p ∈ (looped start final a).states ↔ p ∈ a.states ∨ p = start ∨ p = final := by
  have h1 : p = a.start → p ∈ a.states := fun e => e ▸ ha.wellFormed.start_mem
  have h2 : p = a.finalState → p ∈ a.states := fun e => e ▸ ha.finalState_mem
  simp only [looped, mem_states_startAt, mem_states_mark, mem_states_connect, mem_states_addState]
  grind

theorem mem_successors_looped : t ∈ (looped start final a).successors p l ↔
    t ∈ a.successors p l ∨ (l = .epsilon ∧ (p = start ∨ p = a.finalState) ∧
      (t = a.start ∨ t = final)) := by
  simp only [looped, successors_startAt, successors_mark, mem_successors_connect,
    successors_addState]
  grind

theorem append_mem_kstar {x : Language Symbol} {u v : Word} (hu : u ∈ x) (hv : v ∈ x∗) :
    u ++ v ∈ x∗ := by
  rw [← Language.one_add_self_mul_kstar_eq_kstar, Language.mem_add]
  exact Or.inr (Language.append_mem_mul hu hv)

include ha hf hsf in
/-- Nothing leads on from the end of the loop. -/
theorem path_final_looped (h : (looped start final a).Path final w q) : w = [] :=
  (h.eq_of_no_moves fun l => List.eq_nil_iff_forall_not_mem.2 fun t ht => by
    rcases mem_successors_looped.1 ht with h | ⟨_, h | h, _⟩
    · exact hf (mem_states_of_mem_successors h)
    · exact hsf h.symm
    · exact hf (h ▸ ha.finalState_mem)).1

include ha hs hf hsf in
/-- A path from inside the loop to its end goes to the end of the inner automaton, and round any
number of times. -/
theorem path_looped (h : (looped start final a).Path p w q) (hp : p ∈ a.states) (hq : q = final) :
    ∃ u v, a.Path p u a.finalState ∧ v ∈ a.spelled∗ ∧ u ++ v = w := by
  induction h with
  | here => exact absurd (hq ▸ hp) hf
  | epsilon ht hw ih =>
    rcases mem_successors_looped.1 ht with ht | ⟨_, rfl | rfl, rfl | rfl⟩
    · obtain ⟨u, v, hu, hv, rfl⟩ := ih (ha.wellFormed.mem_of_mem_successors ht) hq
      exact ⟨u, v, .epsilon ht hu, hv, rfl⟩
    · exact absurd hp hs
    · exact absurd hp hs
    · obtain ⟨u, v, hu, hv, rfl⟩ := ih ha.wellFormed.start_mem hq
      exact ⟨[], u ++ v, .here _, append_mem_kstar hu hv, rfl⟩
    · subst hq
      exact ⟨[], _, .here _, (path_final_looped ha hf hsf hw) ▸ Language.nil_mem_kstar _, rfl⟩
  | symbol ht _ ih =>
    rcases mem_successors_looped.1 ht with ht | ⟨e, _⟩
    · obtain ⟨u, v, hu, hv, rfl⟩ := ih (ha.wellFormed.mem_of_mem_successors ht) hq
      exact ⟨_ :: u, v, .symbol ht hu, hv, rfl⟩
    · cases e

/-- Pieces that the inner automaton spells lead round and round, and out at last. -/
theorem path_looped_of_pieces : ∀ (pieces : List Word) (p : StateName),
    p = start ∨ p = a.finalState → (∀ u ∈ pieces, u ∈ a.spelled) →
      (looped start final a).Path p pieces.flatten final
  | [], _, hp, _ => .singleEpsilon (mem_successors_looped.2 (Or.inr ⟨rfl, hp, Or.inr rfl⟩))
  | u :: pieces, _, hp, h => by
    have hin : (looped start final a).Path a.start u a.finalState :=
      Path.mono (fun _ _ _ h => mem_successors_looped.2 (Or.inl h)) (h u List.mem_cons_self)
    have hrest := path_looped_of_pieces pieces a.finalState (Or.inr rfl) fun v hv =>
      h v (List.mem_cons_of_mem u hv)
    exact .epsilon (mem_successors_looped.2 (Or.inr ⟨rfl, hp, Or.inl rfl⟩)) (hin.append hrest)

include ha hs hf hsf in
theorem spelled_looped : (looped start final a).spelled = a.spelled∗ := by
  ext w
  rw [mem_spelled, start_looped, finalState_of_toList (toList_accepting_looped ha)]
  refine ⟨fun h => ?_, fun h => ?_⟩
  · have first : ∀ {m t}, t ∈ (looped start final a).successors start m →
        m = .epsilon ∧ (t = a.start ∨ t = final) := by
      intro m t ht
      rcases mem_successors_looped.1 ht with h | ⟨hm, _, h⟩
      · exact absurd (mem_states_of_mem_successors h) hs
      · exact ⟨hm, h⟩
    cases h with
    | here => exact absurd rfl hsf
    | epsilon ht hw =>
      rcases (first ht).2 with rfl | rfl
      · obtain ⟨u, v, hu, hv, rfl⟩ :=
          path_looped ha hs hf hsf hw ha.wellFormed.start_mem rfl
        exact append_mem_kstar hu hv
      · rw [path_final_looped ha hf hsf hw]
        exact Language.nil_mem_kstar _
    | symbol ht _ => cases (first ht).1
  · obtain ⟨pieces, rfl, hp⟩ := Language.mem_kstar.1 h
    exact path_looped_of_pieces pieces _ (Or.inl rfl) hp

end Looped

end RegularLanguages.Automaton
