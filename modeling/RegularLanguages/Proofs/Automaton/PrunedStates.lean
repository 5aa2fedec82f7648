import RegularLanguages.Proofs.Automaton.Idempotence

/-!
# The states that pruning leaves

The reachable part is built anew from the rows of the states that are kept. While a row is added,
the targets of its moves are created without moves of their own, and their rows come later or not
at all. That nothing is lost or mixed up in this is seen state by state.

* `State.withRow` -- a state with the mark and the moves of a row, and `withRow_row`: **the row of a
  sound state makes a bare state into that state**, order included;
* `stateAt` -- the state of a name, bare as long as it is not there, and
  `stateAt_foldl_addRow`: a table fills each state from the rows of its name;
* `state?_ofRows` -- where no name has two rows, each row makes one state;
* `reachable_exact` -- **pruning leaves the accessible states as they are, and nothing else**.
-/

namespace RegularLanguages

/-! ## 1. Moves of one state -/

namespace State

variable {s : State} {n : StateName}

/-- Moves with one more target on a label. -/
def addTarget (m : OrderedMap Label (OrderedSet StateName)) (e : Label × StateName) :
    OrderedMap Label (OrderedSet StateName) :=
  m.insert e.1 (((m.get? e.1).getD ∅).insert e.2)

theorem foldl_addEdge (es : List (Label × StateName)) (s : State) :
    es.foldl (fun s e => s.addEdge e.1 e.2) s =
      { s with transitions := es.foldl addTarget s.transitions } := by
  induction es generalizing s with
  | nil => rfl
  | cons e es ih => exact ih (s.addEdge e.1 e.2)

/-- Once a label has a target, further ones join it. -/
theorem foldl_addTarget_insert (m : OrderedMap Label (OrderedSet StateName)) (l : Label)
    (names : List StateName) (known : OrderedSet StateName) :
    (names.map (l, ·)).foldl addTarget (m.insert l known) = m.insert l (known.append names) := by
  induction names generalizing known with
  | nil => rfl
  | cons t names ih =>
    rw [List.map_cons, List.foldl_cons, addTarget, OrderedMap.get?_insert, if_pos rfl,
      Option.getD_some, OrderedMap.insert_insert, ih, OrderedSet.append_cons]

/-- The targets of a new label are stored under it in their order. -/
theorem foldl_addTarget_targets {m : OrderedMap Label (OrderedSet StateName)} {l : Label}
    {targets : OrderedSet StateName} (hl : l ∉ m) (hne : targets.toList ≠ []) :
    (targets.toList.map (l, ·)).foldl addTarget m = m.insert l targets := by
  obtain ⟨t, names, hnames⟩ := List.exists_cons_of_ne_nil hne
  have hfirst : addTarget m (l, t) = m.insert l ((∅ : OrderedSet StateName).insert t) := by
    rw [addTarget, OrderedMap.get?_eq_none_iff.2 hl, Option.getD_none]
  have hall : ((∅ : OrderedSet StateName).insert t).append names = targets := by
    rw [← OrderedSet.append_cons, ← hnames]
    exact OrderedSet.ofList_toList targets
  rw [hnames, List.map_cons, List.foldl_cons, hfirst, foldl_addTarget_insert, hall]

/-- Entries with new labels, none of them without a target, come last, in their order. -/
theorem entries_foldl_addTarget {es : List (Label × OrderedSet StateName)}
    (hn : (es.map Prod.fst).Nodup) (hne : ∀ e ∈ es, e.2.toList ≠ [])
    {m : OrderedMap Label (OrderedSet StateName)} (hd : ∀ e ∈ es, e.1 ∉ m) :
    ((es.flatMap fun e => e.2.toList.map (e.1, ·)).foldl addTarget m).entries =
      m.entries ++ es := by
  induction es generalizing m with
  | nil => exact (List.append_nil m.entries).symm
  | cons e es ih =>
    obtain ⟨he, hes⟩ := List.nodup_cons.1 hn
    have hnew : e.1 ∉ m := hd e List.mem_cons_self
    have hrest : ∀ f ∈ es, f.1 ∉ m.insert e.1 e.2 := by
      intro f hf h
      rcases OrderedMap.mem_insert.1 h with h | h
      · exact hd f (List.mem_cons_of_mem e hf) h
      · exact he (h ▸ List.mem_map_of_mem hf)
    rw [List.flatMap_cons, List.foldl_append,
      foldl_addTarget_targets hnew (hne e List.mem_cons_self),
      ih hes (fun f hf => hne f (List.mem_cons_of_mem e hf)) hrest,
      OrderedMap.entries_insert_of_not_mem hnew, List.append_assoc]
    rfl

/-- A state with the mark and the moves of a row added. -/
def withRow (s : State) (r : Automaton.Row) : State :=
  r.edges.foldl (fun s e => s.addEdge e.1 e.2)
    (if r.accepting then { s with accepting := true } else s)

/-- **The row of a sound state makes a bare state into that state.** -/
theorem withRow_row (hs : s.Sound n) : (ofName n).withRow (s.row id) = s := by
  have hentries := entries_foldl_addTarget s.transitions.nodup hs.targets_ne_nil
    (m := ∅) fun e _ => List.not_mem_nil
  have htransitions : s.edges.foldl addTarget ∅ = s.transitions :=
    OrderedMap.ext_entries hentries
  have hedges : (s.row id).edges = s.edges := List.map_id s.edges
  have hname : s.name = n := hs.name_eq
  rw [withRow, hedges, foldl_addEdge]
  cases s with
  | mk name accepting transitions =>
    cases accepting <;> simp_all [row, ofName]

end State

namespace Automaton

variable {a : Automaton} {n p q : StateName} {l : Label} {r : Row} {rows : List Row}

/-! ## 2. The state of a name -/

/-- The state of a name, bare as long as it is not there. -/
def stateAt (a : Automaton) (n : StateName) : State := (a.state? n).getD (.ofName n)

theorem state?_eq_some_stateAt (hn : n ∈ a.states) : a.state? n = some (a.stateAt n) := by
  obtain ⟨s, hs⟩ := OrderedMap.mem_iff_exists_get?.1 hn
  have hstate : a.state? n = some s := hs
  rw [stateAt, hstate, Option.getD_some]

@[simp] theorem stateAt_ofStart : (ofStart p).stateAt n = .ofName n := by
  rw [stateAt, state?_ofStart]
  by_cases e : n = p
  · rw [if_pos e, e, Option.getD_some]
  · rw [if_neg e, Option.getD_none]

@[simp] theorem stateAt_addSymbols {cs : List Symbol} :
    (a.addSymbols cs).stateAt n = a.stateAt n := rfl

/-- **Creating a state cannot be seen in the states.** -/
@[simp] theorem stateAt_addState : (a.addState p).stateAt n = a.stateAt n := by
  rw [stateAt, state?_addState]
  by_cases h : n = p ∧ p ∉ a.states
  · rw [if_pos h, Option.getD_some, stateAt, state?_eq_none_iff.2 (h.1 ▸ h.2), Option.getD_none,
      h.1]
  · rw [if_neg h, stateAt]

theorem stateAt_mark {flag : Bool} : (a.mark p flag).stateAt n =
    if n = p then { a.stateAt n with accepting := flag } else a.stateAt n := by
  rw [← @stateAt_addState a n p, stateAt, state?_mark]
  by_cases e : n = p
  · have hn : n ∈ (a.addState n).states := mem_states_addState.2 (Or.inr rfl)
    subst e
    rw [if_pos rfl, if_pos rfl, state?_eq_some_stateAt hn]
    rfl
  · rw [if_neg e, if_neg e]
    rfl

theorem stateAt_connect : (a.connect p q l).stateAt n =
    if n = p then (a.stateAt n).addEdge l q else a.stateAt n := by
  have hstate : ((a.addState p).addState q).stateAt n = a.stateAt n := by simp
  rw [← hstate, stateAt, state?_connect]
  by_cases e : n = p
  · have hn : n ∈ ((a.addState n).addState q).states := by simp
    subst e
    rw [if_pos rfl, if_pos rfl, state?_eq_some_stateAt hn]
    rfl
  · rw [if_neg e, if_neg e]
    rfl

/-! ## 3. The states of a table -/

theorem stateAt_addEdges {es : List (Label × StateName)} : (a.addEdges p es).stateAt n =
    if n = p then es.foldl (fun s e => s.addEdge e.1 e.2) (a.stateAt n) else a.stateAt n := by
  rw [addEdges]
  induction es generalizing a with
  | nil => exact (ite_self _).symm
  | cons e es ih =>
    rw [List.foldl_cons, ih, stateAt_connect]
    by_cases h : n = p
    · rw [if_pos h, if_pos h, if_pos h, List.foldl_cons]
    · rw [if_neg h, if_neg h, if_neg h]

theorem stateAt_markRow : (a.markRow r).stateAt n =
    if n = r.name ∧ r.accepting = true then { a.stateAt n with accepting := true }
    else a.stateAt n := by
  unfold markRow
  by_cases hr : r.accepting = true
  · rw [if_pos hr, stateAt_mark, stateAt_addState]
    simp only [hr, and_true]
  · rw [if_neg hr, stateAt_addState, if_neg fun h => hr h.2]

/-- A row adds its mark and its moves to the state of its name and changes no other state. -/
theorem stateAt_addRow : (a.addRow r).stateAt n =
    if n = r.name then (a.stateAt n).withRow r else a.stateAt n := by
  rw [addRow_eq, stateAt_addEdges, stateAt_markRow, State.withRow]
  by_cases h : n = r.name
  · simp only [h, true_and, if_true]
  · simp only [h, false_and, if_false]

theorem stateAt_foldl_addRow_of_not_mem (h : n ∉ rows.map Row.name) :
    (rows.foldl addRow a).stateAt n = a.stateAt n := by
  induction rows generalizing a with
  | nil => rfl
  | cons r rows ih =>
    obtain ⟨hr, hrows⟩ := not_or.1 fun h' => h (List.mem_cons.2 h')
    rw [List.foldl_cons, ih hrows, stateAt_addRow, if_neg hr]

/-- **Where no name has two rows, each row makes one state**, whether this was created before as
the target of a move or not. -/
theorem state?_ofRows {start : StateName} {alphabet : List Symbol}
    (hn : (rows.map Row.name).Nodup) (hr : r ∈ rows) :
    (ofRows start alphabet rows).state? r.name = some ((State.ofName r.name).withRow r) := by
  have hmem : r.name ∈ (ofRows start alphabet rows).states :=
    mem_states_ofRows.2 (Or.inr ⟨r, hr, Or.inl rfl⟩)
  obtain ⟨before, behind, rfl⟩ := List.append_of_mem hr
  rw [List.map_append, List.map_cons, List.nodup_append] at hn
  obtain ⟨-, hbehind, hd⟩ := hn
  have hbefore : r.name ∉ before.map Row.name := fun h =>
    hd r.name h r.name List.mem_cons_self rfl
  rw [state?_eq_some_stateAt hmem, ofRows, List.foldl_append, List.foldl_cons,
    stateAt_foldl_addRow_of_not_mem (List.nodup_cons.1 hbehind).1, stateAt_addRow, if_pos rfl,
    stateAt_foldl_addRow_of_not_mem hbefore, stateAt_addSymbols, stateAt_ofStart]

/-! ## 4. Pruning -/

theorem WellFormed.map_name_values (ha : a.WellFormed) :
    a.states.values.map State.name = a.stateNames := by
  rw [OrderedMap.values, stateNames, OrderedMap.keys, List.map_map]
  exact List.map_congr_left fun e he => ha.name_eq e.1 e.2 (OrderedMap.mem_entries_iff.1 he)

/-- **A selection leaves the selected states as they are**, unless it renames their targets. -/
theorem state?_selection (ha : a.WellFormed) {keep : StateName → Prop} [DecidablePred keep]
    (hp : p ∈ a.states) (hkeep : keep p) : (a.selection keep id).state? p = a.state? p := by
  obtain ⟨s, hs, rfl⟩ := ha.exists_state hp
  have hnames : (((a.states.values.filter fun s => keep s.name).map (State.row · id)).map
      Row.name).Nodup := by
    have hsub : ((a.states.values.filter fun s => keep s.name).map State.name).Sublist
        a.stateNames := by
      rw [← ha.map_name_values]
      exact List.filter_sublist.map State.name
    rw [List.map_map]
    exact a.states.nodup.sublist hsub
  have hrow : s.row id ∈ (a.states.values.filter fun s => keep s.name).map (State.row · id) :=
    (mem_selected_rows_iff ha).2 ⟨s, hs, hkeep, rfl⟩
  have hstate : (a.selection keep id).state? s.name = some ((State.ofName s.name).withRow
      (s.row id)) := state?_ofRows hnames hrow
  rw [hs, hstate, State.withRow_row (ha.sound hs)]

/-- What is left is left as it was. -/
theorem state?_reachable (ha : a.WellFormed) (hp : a.Accessible p) :
    a.reachable.state? p = a.state? p :=
  state?_selection ha (hp.mem_states ha) (mem_reachableStates_iff.2 hp)

/-- **Pruning is exact**: it leaves the states that paths from the start lead to, whatever the
labels, each with its mark and all its moves as it was, and nothing else. The start and the words
that are recognized stay the same, and pruning again changes nothing. -/
theorem reachable_exact (ha : a.WellFormed) :
    (∀ p, p ∈ a.reachable.states ↔ a.Accessible p) ∧
      (∀ p, a.Accessible p → a.reachable.state? p = a.state? p) ∧
      a.reachable.start = a.start ∧ (∀ w, a.reachable.Recognizes w ↔ a.Recognizes w) ∧
      a.reachable.reachable ≈ a.reachable :=
  ⟨fun _ => mem_states_reachable ha, fun _ => state?_reachable ha, start_reachable,
    fun _ => recognizes_reachable ha,
    reachable_equiv wellFormed_reachable fun _ => accessible_reachable ha⟩

/-- An automaton with a state behind an epsilon move only, and one to which nothing leads. -/
def straying : Automaton :=
  ofRows "p" ['x'] [⟨"p", false, [(.epsilon, "r"), (.symbol 'x', "p")]⟩,
    ⟨"q", true, [(.symbol 'x', "r")]⟩, ⟨"r", true, [(.symbol 'x', "p"), (.symbol 'x', "r")]⟩]

theorem reachable_exact_straying : straying.WellFormed ∧ straying.Accessible "r" ∧
    "r" ∈ straying.reachable.states ∧ "q" ∉ straying.reachable.states ∧
      straying.reachable.state? "r" = straying.state? "r" ∧
      straying.reachable.Recognizes ['x'] ∧ straying.reachable.reachable ≈ straying.reachable := by
  have ha : straying.WellFormed := wellFormed_ofRows
  have hmove : "r" ∈ straying.successors "p" .epsilon := by decide
  have haccessible : straying.Accessible "r" := accessible_start.step hmove
  have hword : straying.Recognizes ['x'] :=
    ⟨"r", .epsilon hmove (.single (by decide)), by decide⟩
  obtain ⟨hstates, hsame, -, hwords, hagain⟩ := reachable_exact ha
  exact ⟨ha, haccessible, (hstates "r").2 haccessible, by decide, hsame "r" haccessible,
    (hwords ['x']).2 hword, hagain⟩

end Automaton

end RegularLanguages
