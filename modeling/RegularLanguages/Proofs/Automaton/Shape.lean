import RegularLanguages.Proofs.Automaton.Thompson
import RegularLanguages.Regex.Preorder

/-!
# The shape of the automaton of an expression

That the automata of two expressions can be joined by single epsilon moves rests on a shape that all
of them have, and every way of joining them makes an automaton of this shape again.

* `HasFewMoves` -- a state has one move that reads a symbol, or two at most that read nothing;
* `Joinable` -- every state has few moves, none leads into the start and none out of the accepting
  state;
* `Joinable.inSequence`, `Joinable.sideBySide`, `Joinable.looped` -- joining keeps this;
* `joinable_fromRegex`, `mem_states_fromRegex_iff` -- **so the automaton of every expression has the
  shape, and its states are numbered on without a gap**;
* `fromRegex_shape` -- both, with how many numbers an expression uses up.
-/

namespace RegularLanguages.Automaton

variable {a b left right : Automaton} {p q t u start final : StateName} {k n m : Nat} {l : Label}
  {c : Symbol}

/-! ## 1. Few moves -/

/-- A state has exactly one move, which reads a symbol, or at most two moves, which read nothing. -/
def HasFewMoves (a : Automaton) (p : StateName) : Prop :=
  (∃ c t, a.edgesOf p = [(.symbol c, t)]) ∨
    ((a.edgesOf p).length ≤ 2 ∧ ∀ e ∈ a.edgesOf p, e.1 = .epsilon)

/-- No move of a state is listed twice. -/
theorem nodup_edgesOf (a : Automaton) (p : StateName) : (a.edgesOf p).Nodup := by
  unfold edgesOf
  split
  · rename_i s _
    exact s.transitions.nodup_flatMap_entries OrderedSet.nodup
  · exact List.nodup_nil

/-- Where the moves by label are the same, the lists of moves are the same up to order. -/
theorem edgesOf_perm (h : ∀ l q, q ∈ b.successors p l ↔ q ∈ a.successors p l) :
    (b.edgesOf p).Perm (a.edgesOf p) := by
  refine (List.perm_ext_iff_of_nodup (nodup_edgesOf b p) (nodup_edgesOf a p)).2 fun e => ?_
  obtain ⟨l, q⟩ := e
  rw [mem_edgesOf_iff, mem_edgesOf_iff, h]

theorem HasFewMoves.congr (ha : a.HasFewMoves p)
    (h : ∀ l q, q ∈ b.successors p l ↔ q ∈ a.successors p l) : b.HasFewMoves p := by
  have hperm := edgesOf_perm h
  rcases ha with ⟨c, t, e⟩ | ⟨hlength, hlabels⟩
  · rw [e] at hperm
    exact Or.inl ⟨c, t, List.perm_singleton.1 hperm⟩
  · refine Or.inr ⟨hperm.length_eq ▸ hlength, fun e he => ?_⟩
    exact hlabels e (hperm.mem_iff.1 he)

theorem hasFewMoves_of_symbol
    (h : ∀ l q, q ∈ a.successors p l ↔ l = .symbol c ∧ q = t) : a.HasFewMoves p := by
  have hperm : (a.edgesOf p).Perm [(.symbol c, t)] := by
    refine (List.perm_ext_iff_of_nodup (nodup_edgesOf a p) (List.nodup_singleton _)).2 fun e => ?_
    obtain ⟨l, q⟩ := e
    rw [mem_edgesOf_iff, h, List.mem_singleton, Prod.mk.injEq]
  exact Or.inl ⟨c, t, List.perm_singleton.1 hperm⟩

theorem hasFewMoves_of_epsilon
    (h : ∀ l q, q ∈ a.successors p l → l = .epsilon ∧ (q = t ∨ q = u)) : a.HasFewMoves p := by
  have hmoves : ∀ e ∈ a.edgesOf p, e.1 = .epsilon ∧ (e.2 = t ∨ e.2 = u) := fun e he =>
    h e.1 e.2 (mem_edgesOf_iff.1 he)
  have hsubset : a.edgesOf p ⊆ [(.epsilon, t), (.epsilon, u)] := by
    intro e he
    obtain ⟨l, q⟩ := e
    obtain ⟨rfl, rfl | rfl⟩ := hmoves _ he
    · exact List.mem_cons_self
    · exact List.mem_cons_of_mem _ List.mem_cons_self
  exact Or.inr ⟨(nodup_edgesOf a p).length_le_of_subset hsubset, fun e he => (hmoves e he).1⟩

/-! ## 2. Automata that can be joined -/

/-- What makes it safe to lead an epsilon move into the start of an automaton or out of its
accepting state. -/
structure Joinable (a : Automaton) : Prop where
  /-- The start does not accept. -/
  final_ne_start : a.finalState ≠ a.start
  /-- No move leads into the start. -/
  start_notMem : ∀ p l, a.start ∉ a.successors p l
  /-- No move leads out of the accepting state. -/
  final_notMem : ∀ l t, t ∉ a.successors a.finalState l
  /-- Every state has few moves. -/
  fewMoves : ∀ p, a.HasFewMoves p

theorem joinable_segment (label : Option Label) (h : start ≠ final) :
    (segment start final label).Joinable := by
  have hfinal : (segment start final label).finalState = final :=
    finalState_of_toList toList_accepting_segment
  refine ⟨?_, fun p l hs => ?_, fun l t ht => ?_, fun p => ?_⟩
  · rw [hfinal, start_segment]
    exact h.symm
  · rw [start_segment] at hs
    exact h (mem_successors_segment.1 hs).2.1
  · rw [hfinal] at ht
    exact h (mem_successors_segment.1 ht).1.symm
  · by_cases hp : p = start
    · rcases label with - | - | c
      · exact hasFewMoves_of_epsilon (t := final) (u := final) fun l q hq => by
          cases (mem_successors_segment.1 hq).2.2
      · exact hasFewMoves_of_epsilon (t := final) (u := final) fun l q hq => by
          obtain ⟨_, rfl, e⟩ := mem_successors_segment.1 hq
          exact ⟨(Option.some.inj e).symm, Or.inl rfl⟩
      · refine hasFewMoves_of_symbol (c := c) (t := final) fun l q => ?_
        rw [mem_successors_segment, Option.some.injEq]
        exact ⟨fun h => ⟨h.2.2.symm, h.2.1⟩, fun h => ⟨hp, h.2, h.1.symm⟩⟩
    · exact hasFewMoves_of_epsilon (t := final) (u := final) fun l q hq =>
        absurd (mem_successors_segment.1 hq).1 hp

section Joining

variable (hl : left.Joinable) (hr : right.Joinable) (sl : left.SingleFinal) (sr : right.SingleFinal)
  (hd : ∀ n ∈ left.states, n ∉ right.states)

include hl hr sl sr hd

theorem Joinable.inSequence : (left.inSequence right).Joinable := by
  have hmoves : ∀ {p l t}, t ∈ (left.inSequence right).successors p l ↔ _ :=
    mem_successors_inSequence hd
  have hstart := sl.wellFormed.start_mem
  have hfinal : (left.inSequence right).finalState = right.finalState :=
    finalState_of_toList (toList_accepting_inSequence sl)
  refine ⟨fun e => ?_, fun p l hs => ?_, fun l t ht => ?_, fun p => ?_⟩
  · rw [hfinal, start_inSequence] at e
    exact hd _ hstart (e ▸ sr.finalState_mem)
  · rw [start_inSequence] at hs
    rcases hmoves.1 hs with hs | hs | ⟨_, e, _⟩
    · exact hl.start_notMem p l hs
    · exact hd _ hstart (sr.wellFormed.mem_of_mem_successors hs)
    · exact hd _ hstart (e ▸ sr.wellFormed.start_mem)
  · rw [hfinal] at ht
    rcases hmoves.1 ht with ht | ht | ⟨e, _, _⟩
    · exact hd _ (mem_states_of_mem_successors ht) sr.finalState_mem
    · exact hr.final_notMem l t ht
    · exact hd _ sl.finalState_mem (e ▸ sr.finalState_mem)
  · by_cases hp : p = left.finalState
    · -- nothing led out of the accepting state of the first part, so there is only the new move
      refine hasFewMoves_of_epsilon (t := right.start) (u := right.start) fun l q hq => ?_
      rcases hmoves.1 hq with hq | hq | ⟨_, e, hm⟩
      · exact absurd (hp ▸ hq) (hl.final_notMem l q)
      · exact absurd (mem_states_of_mem_successors hq) (hd p (hp ▸ sl.finalState_mem))
      · exact ⟨hm, Or.inl e⟩
    · by_cases hleft : p ∈ left.states
      · refine (hl.fewMoves p).congr fun l q => ?_
        simp [hmoves, hp, successors_of_not_mem (hd p hleft)]
      · refine (hr.fewMoves p).congr fun l q => ?_
        simp [hmoves, hp, successors_of_not_mem hleft]

theorem Joinable.sideBySide (hs : start ∉ left.states ∧ start ∉ right.states)
    (hf : final ∉ left.states ∧ final ∉ right.states) (hsf : start ≠ final) :
    (Automaton.sideBySide start final left right).Joinable := by
  have hmoves : ∀ {p l t}, t ∈ (Automaton.sideBySide start final left right).successors p l ↔ _ :=
    mem_successors_sideBySide hd
  have hfinal : (Automaton.sideBySide start final left right).finalState = final :=
    finalState_of_toList (toList_accepting_sideBySide sl)
  refine ⟨fun e => ?_, fun p l h => ?_, fun l t ht => ?_, fun p => ?_⟩
  · rw [hfinal, start_sideBySide] at e
    exact hsf e.symm
  · rw [start_sideBySide] at h
    rcases hmoves.1 h with h | h | ⟨_, ⟨_, e | e⟩ | ⟨e, _⟩⟩
    · exact hs.1 (sl.wellFormed.mem_of_mem_successors h)
    · exact hs.2 (sr.wellFormed.mem_of_mem_successors h)
    · exact hs.1 (e ▸ sl.wellFormed.start_mem)
    · exact hs.2 (e ▸ sr.wellFormed.start_mem)
    · exact hsf e
  · rw [hfinal, successors_final_sideBySide sl sr hd hf hsf] at ht
    exact List.not_mem_nil ht
  · by_cases hp : p = start
    · refine hasFewMoves_of_epsilon (t := left.start) (u := right.start) fun l q hq => ?_
      exact first_sideBySide sl sr hd hs (hp ▸ hq)
    · by_cases hends : p = left.finalState ∨ p = right.finalState
      · refine hasFewMoves_of_epsilon (t := final) (u := final) fun l q hq => ?_
        rcases hmoves.1 hq with hq | hq | ⟨hm, ⟨e, _⟩ | ⟨e, _⟩⟩
        · rcases hends with rfl | rfl
          · exact absurd hq (hl.final_notMem l q)
          · exact absurd sr.finalState_mem (hd _ (mem_states_of_mem_successors hq))
        · rcases hends with rfl | rfl
          · exact absurd (mem_states_of_mem_successors hq) (hd _ sl.finalState_mem)
          · exact absurd hq (hr.final_notMem l q)
        · exact absurd e hp
        · exact ⟨hm, Or.inl e⟩
      · by_cases hleft : p ∈ left.states
        · refine (hl.fewMoves p).congr fun l q => ?_
          simp [hmoves, hp, hends, successors_of_not_mem (hd p hleft)]
        · refine (hr.fewMoves p).congr fun l q => ?_
          simp [hmoves, hp, hends, successors_of_not_mem hleft]

end Joining

theorem Joinable.looped (ha : a.Joinable) (sa : a.SingleFinal) (hs : start ∉ a.states)
    (hf : final ∉ a.states) (hsf : start ≠ final) :
    (Automaton.looped start final a).Joinable := by
  have hmoves : ∀ {p l t}, t ∈ (Automaton.looped start final a).successors p l ↔ _ :=
    mem_successors_looped
  have hfinal : (Automaton.looped start final a).finalState = final :=
    finalState_of_toList (toList_accepting_looped sa)
  refine ⟨fun e => ?_, fun p l h => ?_, fun l t ht => ?_, fun p => ?_⟩
  · rw [hfinal, start_looped] at e
    exact hsf e.symm
  · rw [start_looped] at h
    rcases hmoves.1 h with h | ⟨_, _, e | e⟩
    · exact hs (sa.wellFormed.mem_of_mem_successors h)
    · exact hs (e ▸ sa.wellFormed.start_mem)
    · exact hsf e
  · rw [hfinal] at ht
    rcases hmoves.1 ht with ht | ⟨_, e | e, _⟩
    · exact hf (mem_states_of_mem_successors ht)
    · exact hsf e.symm
    · exact hf (e ▸ sa.finalState_mem)
  · by_cases hends : p = start ∨ p = a.finalState
    · refine hasFewMoves_of_epsilon (t := a.start) (u := final) fun l q hq => ?_
      rcases hmoves.1 hq with hinner | ⟨hm, _, e⟩
      · rcases hends with rfl | rfl
        · exact absurd (mem_states_of_mem_successors hinner) hs
        · exact absurd hinner (ha.final_notMem l q)
      · exact ⟨hm, e⟩
    · refine (ha.fewMoves p).congr fun l q => ?_
      simp [hmoves, hends]

/-- **The automaton of every expression can be joined.** -/
theorem joinable_fromRegex : ∀ (e : Regex) (n : Nat), (fromRegex e n).1.Joinable
  | .symbol c, n => joinable_segment (some (.symbol c)) (firstNew_ne_secondNew n)
  | .nil, n => joinable_segment (some .epsilon) (firstNew_ne_secondNew n)
  | .empty, n => joinable_segment none (firstNew_ne_secondNew n)
  | .concat l r, n => by
    have hl := fragment_fromRegex l n
    have hr := fragment_fromRegex r (fromRegex l n).2
    exact (joinable_fromRegex l n).inSequence (joinable_fromRegex r _) hl.singleFinal
      hr.singleFinal (hl.disjoint hr)
  | .alt l r, n => by
    have hl := fragment_fromRegex l n
    have hr := fragment_fromRegex r (fromRegex l n).2
    exact (joinable_fromRegex l n).sideBySide (joinable_fromRegex r _) hl.singleFinal
      hr.singleFinal (hl.disjoint hr) ⟨hl.firstNew_not_mem hr.le, hr.firstNew_not_mem le_rfl⟩
      ⟨hl.secondNew_not_mem hr.le, hr.secondNew_not_mem le_rfl⟩ (firstNew_ne_secondNew _)
  | .star e, n => by
    have h := fragment_fromRegex e n
    exact (joinable_fromRegex e n).looped h.singleFinal (h.firstNew_not_mem le_rfl)
      (h.secondNew_not_mem le_rfl) (firstNew_ne_secondNew _)

/-! ## 3. The numbers of the states -/

/-- The number of nodes of an expression that are not concatenations. -/
def nodesButConcat (e : Regex) : Nat := e.preorder.countP fun t => t ≠ .operator .concat

/-- Two numbers are used up for each node but the concatenations. -/
theorem snd_fromRegex : ∀ (e : Regex) (n : Nat), (fromRegex e n).2 = n + 2 * nodesButConcat e
  | .symbol _, _ => rfl
  | .nil, _ => rfl
  | .empty, _ => rfl
  | .concat l r, n => by
    have hnodes : nodesButConcat (.concat l r) = nodesButConcat l + nodesButConcat r := by
      simp [nodesButConcat, Regex.preorder]
    rw [fromRegex, snd_fromRegex r, snd_fromRegex l, hnodes]
    omega
  | .alt l r, n => by
    have hnodes : nodesButConcat (.alt l r) = nodesButConcat l + nodesButConcat r + 1 := by
      simp [nodesButConcat, Regex.preorder]
    rw [fromRegex, snd_fromRegex r, snd_fromRegex l, hnodes]
    omega
  | .star e, n => by
    have hnodes : nodesButConcat (.star e) = nodesButConcat e + 1 := by
      simp [nodesButConcat, Regex.preorder]
    rw [fromRegex, snd_fromRegex e, hnodes]
    omega

theorem mem_states_segment_of_eq (label : Option Label) (h : p = start ∨ p = final) :
    p ∈ (segment start final label).states := by
  unfold segment
  cases label with
  | none => simpa [or_assoc] using h
  | some l => simpa [or_assoc] using h

/-- The two numbers behind `k` are those of the two new names. -/
theorem numberedState_eq_new (h : k < n) (h' : n ≤ k + 2) :
    numberedState n = firstNew k ∨ numberedState n = secondNew k := by
  rcases Nat.lt_or_eq_of_le (Nat.succ_le_of_lt h) with h | rfl
  · obtain rfl : n = k + 2 := by omega
    exact Or.inr rfl
  · exact Or.inl rfl

/-- Every number that is used up belongs to a state. -/
theorem numberedState_mem_fromRegex : ∀ (e : Regex) (n : Nat) {k : Nat}, n < k →
    k ≤ (fromRegex e n).2 → numberedState k ∈ (fromRegex e n).1.states
  | .symbol c, _, _, h, h' =>
    mem_states_segment_of_eq (some (.symbol c)) (numberedState_eq_new h h')
  | .nil, _, _, h, h' => mem_states_segment_of_eq (some .epsilon) (numberedState_eq_new h h')
  | .empty, _, _, h, h' => mem_states_segment_of_eq none (numberedState_eq_new h h')
  | .concat l r, n, k, h, h' => by
    have hl := (fragment_fromRegex l n).singleFinal
    have hr := (fragment_fromRegex r (fromRegex l n).2).singleFinal
    refine (mem_states_inSequence hl hr).2 ?_
    rcases Nat.lt_or_ge (fromRegex l n).2 k with hk | hk
    · exact Or.inr (numberedState_mem_fromRegex r _ hk h')
    · exact Or.inl (numberedState_mem_fromRegex l n h hk)
  | .alt l r, n, k, h, h' => by
    have hl := (fragment_fromRegex l n).singleFinal
    have hr := (fragment_fromRegex r (fromRegex l n).2).singleFinal
    refine (mem_states_sideBySide hl hr).2 ?_
    rcases Nat.lt_or_ge (fromRegex r (fromRegex l n).2).2 k with hnew | hk
    · exact Or.inr (Or.inr (numberedState_eq_new hnew h'))
    · rcases Nat.lt_or_ge (fromRegex l n).2 k with hright | hleft
      · exact Or.inr (Or.inl (numberedState_mem_fromRegex r _ hright hk))
      · exact Or.inl (numberedState_mem_fromRegex l n h hleft)
  | .star e, n, k, h, h' => by
    refine (mem_states_looped (fragment_fromRegex e n).singleFinal).2 ?_
    rcases Nat.lt_or_ge (fromRegex e n).2 k with hnew | hk
    · exact Or.inr (numberedState_eq_new hnew h')
    · exact Or.inl (numberedState_mem_fromRegex e n h hk)

/-- **The states are those of the numbers that are used up.** -/
theorem mem_states_fromRegex_iff (e : Regex) (n : Nat) :
    p ∈ (fromRegex e n).1.states ↔ ∃ k, n < k ∧ k ≤ (fromRegex e n).2 ∧ p = numberedState k := by
  refine ⟨(fragment_fromRegex e n).numbered p, fun h => ?_⟩
  obtain ⟨k, hn, hk, rfl⟩ := h
  exact numberedState_mem_fromRegex e n hn hk

theorem stateNames_fromRegex_perm (e : Regex) (n : Nat) : (fromRegex e n).1.stateNames.Perm
    ((List.range' (n + 1) (2 * nodesButConcat e)).map numberedState) := by
  have hnumbers : ((List.range' (n + 1) (2 * nodesButConcat e)).map numberedState).Nodup :=
    List.Nodup.map (fun _ _ => numberedState_injective) List.nodup_range'
  refine (List.perm_ext_iff_of_nodup (fromRegex e n).1.states.nodup hnumbers).2 fun p => ?_
  refine (mem_states_fromRegex_iff e n).trans ?_
  rw [snd_fromRegex, List.mem_map]
  refine exists_congr fun k => ?_
  rw [List.mem_range'_1, eq_comm, ← and_assoc]
  exact and_congr_left fun _ => by omega

/-- The automata that are built in turn have numbers above those that are used up. -/
theorem exists_number_of_mem_ofRegexes : ∀ {n : Nat} {es : List Regex}, ∀ a ∈ ofRegexes n es,
    ∀ p ∈ a.states, ∃ k, n < k ∧ p = numberedState k
  | n, e :: es, a, ha, p, hp => by
    rcases List.mem_cons.1 ha with rfl | ha
    · obtain ⟨k, hk, _, e⟩ := (fragment_fromRegex _ n).numbered p hp
      exact ⟨k, hk, e⟩
    · obtain ⟨k, hk, e⟩ := exists_number_of_mem_ofRegexes a ha p hp
      exact ⟨k, Nat.lt_of_le_of_lt (fragment_fromRegex _ n).le hk, e⟩

theorem pairwise_ofRegexes : ∀ (n : Nat) (es : List Regex),
    (ofRegexes n es).Pairwise fun a b => ∀ p ∈ a.states, p ∉ b.states
  | _, [] => .nil
  | n, e :: es => by
    refine .cons (fun b hb p hp hpb => ?_) (pairwise_ofRegexes (fromRegex e n).2 es)
    obtain ⟨k, hk, rfl⟩ := exists_number_of_mem_ofRegexes b hb p hpb
    exact (fragment_fromRegex e n).not_mem (Or.inr hk) hp

/-- **The shape of the automaton of an expression.** If `n` numbers are used up before it, then two
more are for each node that is not a concatenation, and the states are exactly those of these
numbers; automata that are built in turn share no state. There is one accepting state, which is not
the start, no move leads into the start and none out of the accepting state, and every state has one
move that reads a symbol and no other, or at most two moves that read nothing. -/
theorem fromRegex_shape (n : Nat) :
    (∀ e, (fromRegex e n).2 = n + 2 * nodesButConcat e ∧
      (fromRegex e n).1.stateNames.Perm
        ((List.range' (n + 1) (2 * nodesButConcat e)).map numberedState) ∧
      (∃ final, (fromRegex e n).1.accepting.toList = [final] ∧
        (∀ p, (fromRegex e n).1.isAccepting p = true ↔ p = final) ∧
        final ≠ (fromRegex e n).1.start ∧ (fromRegex e n).1.edgesOf final = []) ∧
      (∀ p, ∀ move ∈ (fromRegex e n).1.edgesOf p, move.2 ≠ (fromRegex e n).1.start) ∧
      ∀ p, (fromRegex e n).1.HasFewMoves p) ∧
    ∀ es, (ofRegexes n es).Pairwise fun a b => ∀ p ∈ a.states, p ∉ b.states := by
  refine ⟨fun e => ?_, pairwise_ofRegexes n⟩
  have hsingle := (fragment_fromRegex e n).singleFinal
  have hjoinable := joinable_fromRegex e n
  refine ⟨snd_fromRegex e n, stateNames_fromRegex_perm e n,
    ⟨(fromRegex e n).1.finalState, hsingle.toList_accepting, fun p => hsingle.isAccepting_iff,
      hjoinable.final_ne_start, ?_⟩, fun p move hmove => ?_, hjoinable.fewMoves⟩
  · refine List.eq_nil_iff_forall_not_mem.2 fun move hmove => ?_
    exact hjoinable.final_notMem move.1 move.2 (mem_edgesOf_iff.1 hmove)
  · intro e'
    exact hjoinable.start_notMem p move.1 (e' ▸ mem_edgesOf_iff.1 hmove)

end RegularLanguages.Automaton
