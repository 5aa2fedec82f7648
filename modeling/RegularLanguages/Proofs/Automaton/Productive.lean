import RegularLanguages.Proofs.Automaton.Powerset
import RegularLanguages.Proofs.Automaton.Thompson
import RegularLanguages.Regex.Simplification

/-!
# Automata in which every state is of use

From every state of the automaton of an expression something is recognized, unless `empty` occurs
in the expression, and determinization keeps this.

* `LeadsToFinal` -- every state leads to the accepting one; one lemma for each way of putting
  automata together, and `leadsToFinal_fromRegex`;
* `Productive` -- from every state some word is recognized;
* `productive_fromRegex`, `Productive.determinize` -- **so it is for the automaton of an expression
  without `empty`, and for its determinization**.
-/

namespace RegularLanguages.Automaton

variable {a left right : Automaton} {start final : StateName} {label : Label} {w : Word} {n : Nat}

/-! ## 1. Every state leads to the accepting one -/

/-- Every state leads to the accepting one. -/
def LeadsToFinal (a : Automaton) : Prop := ∀ p ∈ a.states, ∃ w, a.Path p w a.finalState

theorem leadsToFinal_segment : (segment start final (some label)).LeadsToFinal := by
  intro p hp
  rw [finalState_of_toList toList_accepting_segment]
  rcases mem_states_segment hp with rfl | rfl
  · have hmove : final ∈ (segment p final (some label)).successors p label :=
      mem_successors_segment.2 ⟨rfl, rfl, rfl⟩
    cases label with
    | epsilon => exact ⟨[], .singleEpsilon hmove⟩
    | symbol c => exact ⟨[c], .single hmove⟩
  · exact ⟨[], .here p⟩

/-- A part leads on to where its accepting state leads without reading. -/
theorem LeadsToFinal.exists_path {whole : Automaton} {p q : StateName} (h : a.LeadsToFinal)
    (hm : ∀ p l q, q ∈ a.successors p l → q ∈ whole.successors p l)
    (hlast : q ∈ whole.successors a.finalState .epsilon) (hp : p ∈ a.states) :
    ∃ w, whole.Path p w q := by
  obtain ⟨w, hw⟩ := h p hp
  exact ⟨w ++ [], (hw.mono hm).append (.singleEpsilon hlast)⟩

theorem LeadsToFinal.inSequence (hl : left.SingleFinal) (hr : right.SingleFinal)
    (hd : ∀ n ∈ left.states, n ∉ right.states) (hleft : left.LeadsToFinal)
    (hright : right.LeadsToFinal) : (Automaton.inSequence left right).LeadsToFinal := by
  intro p hp
  rw [finalState_of_toList (toList_accepting_inSequence hl)]
  have hmoves : ∀ {x m y}, y ∈ (Automaton.inSequence left right).successors x m ↔ _ :=
    mem_successors_inSequence hd
  have hinRight : ∀ q ∈ right.states,
      ∃ w, (Automaton.inSequence left right).Path q w right.finalState := fun q hq => by
    obtain ⟨w, hw⟩ := hright q hq
    exact ⟨w, hw.mono fun _ _ _ h => hmoves.2 (Or.inr (Or.inl h))⟩
  rcases (mem_states_inSequence hl hr).1 hp with hp | hp
  · obtain ⟨u, hu⟩ := hleft.exists_path (fun _ _ _ h => hmoves.2 (Or.inl h))
      (hmoves.2 (Or.inr (Or.inr ⟨rfl, rfl, rfl⟩))) hp
    obtain ⟨v, hv⟩ := hinRight right.start hr.wellFormed.start_mem
    exact ⟨u ++ v, hu.append hv⟩
  · exact hinRight p hp

theorem LeadsToFinal.sideBySide (hl : left.SingleFinal) (hr : right.SingleFinal)
    (hd : ∀ n ∈ left.states, n ∉ right.states) (hleft : left.LeadsToFinal)
    (hright : right.LeadsToFinal) :
    (Automaton.sideBySide start final left right).LeadsToFinal := by
  intro p hp
  rw [finalState_of_toList (toList_accepting_sideBySide hl)]
  have hmoves : ∀ {x m y}, y ∈ (Automaton.sideBySide start final left right).successors x m ↔ _ :=
    mem_successors_sideBySide hd
  have hinLeft : ∀ q ∈ left.states,
      ∃ w, (Automaton.sideBySide start final left right).Path q w final := fun q hq =>
    hleft.exists_path (fun _ _ _ h => hmoves.2 (Or.inl h))
      (hmoves.2 (Or.inr (Or.inr ⟨rfl, Or.inr ⟨rfl, Or.inl rfl⟩⟩))) hq
  rcases (mem_states_sideBySide hl hr).1 hp with hp | hp | rfl | rfl
  · exact hinLeft p hp
  · exact hright.exists_path (fun _ _ _ h => hmoves.2 (Or.inr (Or.inl h)))
      (hmoves.2 (Or.inr (Or.inr ⟨rfl, Or.inr ⟨rfl, Or.inr rfl⟩⟩))) hp
  · -- the new start leads into both sides, and one of them is enough
    obtain ⟨w, hw⟩ := hinLeft left.start hl.wellFormed.start_mem
    exact ⟨w, .epsilon (hmoves.2 (Or.inr (Or.inr ⟨rfl, Or.inl ⟨rfl, Or.inl rfl⟩⟩))) hw⟩
  · exact ⟨[], .here p⟩

theorem LeadsToFinal.looped (ha : a.SingleFinal) (h : a.LeadsToFinal) :
    (Automaton.looped start final a).LeadsToFinal := by
  intro p hp
  rw [finalState_of_toList (toList_accepting_looped ha)]
  rcases (mem_states_looped ha).1 hp with hp | rfl | rfl
  · exact h.exists_path (fun _ _ _ h => mem_successors_looped.2 (Or.inl h))
      (mem_successors_looped.2 (Or.inr ⟨rfl, Or.inr rfl, Or.inr rfl⟩)) hp
  · exact ⟨[], .singleEpsilon (mem_successors_looped.2 (Or.inr ⟨rfl, Or.inl rfl, Or.inr rfl⟩))⟩
  · exact ⟨[], .here p⟩

/-- **In the automaton of an expression without `empty` every state leads to the accepting one.** -/
theorem leadsToFinal_fromRegex : ∀ (e : Regex) (n : Nat), .empty ∉ e.subexpressions →
    (fromRegex e n).1.LeadsToFinal
  | .symbol c, n, _ => leadsToFinal_segment
  | .nil, n, _ => leadsToFinal_segment
  | .empty, n, h => absurd List.mem_cons_self h
  | .concat l r, n, h => by
    have hl := fragment_fromRegex l n
    have hr := fragment_fromRegex r (fromRegex l n).2
    rw [Regex.empty_mem_concat, not_or] at h
    exact .inSequence hl.singleFinal hr.singleFinal (hl.disjoint hr)
      (leadsToFinal_fromRegex l n h.1) (leadsToFinal_fromRegex r _ h.2)
  | .alt l r, n, h => by
    have hl := fragment_fromRegex l n
    have hr := fragment_fromRegex r (fromRegex l n).2
    rw [Regex.empty_mem_alt, not_or] at h
    exact .sideBySide hl.singleFinal hr.singleFinal (hl.disjoint hr)
      (leadsToFinal_fromRegex l n h.1) (leadsToFinal_fromRegex r _ h.2)
  | .star e, n, h => by
    rw [Regex.empty_mem_star] at h
    exact .looped (fragment_fromRegex e n).singleFinal (leadsToFinal_fromRegex e n h)

/-! ## 2. Something is recognized from every state -/

/-- From every state some word is recognized. -/
def Productive (a : Automaton) : Prop := ∀ p ∈ a.states, ∃ w, a.RecognizesFrom p w

theorem productive_fromRegex {e : Regex} (h : .empty ∉ e.subexpressions) :
    (fromRegex e n).1.Productive := by
  intro p hp
  obtain ⟨w, hw⟩ := leadsToFinal_fromRegex e n h p hp
  exact ⟨w, _, hw, (fragment_fromRegex e n).singleFinal.isAccepting_iff.2 rfl⟩

/-- **Determinization keeps this**: a set that is met has a member, and what is recognized from the
member is recognized from the set. -/
theorem Productive.determinize (h : a.Productive) (ha : a.WellFormed) :
    a.determinize.Productive := by
  intro n hn
  obtain ⟨s, hs, rfl⟩ := (mem_states_subsetAutomaton ha).1 hn
  obtain ⟨w, rfl, hw⟩ := (mem_subsets_iff ha).1 hs
  have hdet := deterministic_determinize ha
  have hrun : a.determinize.run? a.determinize.start w =
      some (a.setName a.initialSet (fun s _ => s.joined) (a.after a.initialSet w)) := by
    rw [Automaton.determinize, start_subsetAutomaton, run?_setName_iff ha (initial_mem_subsets ha)]
    exact ⟨hw, rfl⟩
  -- any member of the set will do: the word leads to it, and something is recognized from it
  obtain ⟨q, hq⟩ := ((met_iff_path ha).1 ((met_iff_mem_subsets ha).2 hs)).1
  have hpath : a.Path a.start w q := mem_after_initialSet_iff.1 hq
  obtain ⟨x, r, hr, hacc⟩ := h q (hpath.mem_states ha ha.start_mem)
  refine ⟨x, (recognizesFrom_iff_append hdet ((path_iff_run? hdet).2 hrun)).2 ?_⟩
  exact (recognizes_determinize_iff ha).2 ⟨r, hpath.append hr, hacc⟩

end RegularLanguages.Automaton
