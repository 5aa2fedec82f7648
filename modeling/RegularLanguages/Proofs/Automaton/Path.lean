import RegularLanguages.Automaton.Equivalence
import RegularLanguages.Proofs.Automaton.WellFormed
import RegularLanguages.Proofs.Ordered.Set

/-!
# Paths and runs

* `Path.append`, `Path.mono`, `Path.confined` -- paths compose, and they exist in every automaton
  that has the moves they take;
* `Deterministic` -- no epsilon moves and at most one target on a symbol, said of the moves, and
  `isDeterministic_iff`, which says that the check decides it;
* `path_iff_run?` -- the paths of a deterministic automaton are its runs;
* `accepts_iff_recognizes` -- **reading a word by following first targets decides the language of a
  deterministic automaton**.
-/

namespace RegularLanguages.Automaton

variable {a b : Automaton} {p q r : StateName} {u v w : Word} {c : Symbol}

/-! ## 1. Paths -/

theorem Path.append (h : a.Path p u q) (h' : a.Path q v r) : a.Path p (u ++ v) r := by
  induction h with
  | here => exact h'
  | epsilon hm _ ih => exact .epsilon hm (ih h')
  | symbol hm _ ih => exact .symbol hm (ih h')

theorem Path.single (h : q ∈ a.successors p (.symbol c)) : a.Path p [c] q := .symbol h (.here q)

theorem Path.singleEpsilon (h : q ∈ a.successors p .epsilon) : a.Path p [] q := .epsilon h (.here q)

/-- A path stays inside every set that its start is in and no move leaves; only the moves from
there matter to it. -/
theorem Path.confined (inside : StateName → Prop)
    (hm : ∀ p l q, inside p → q ∈ a.successors p l → inside q ∧ q ∈ b.successors p l)
    (h : a.Path p w q) (hp : inside p) : inside q ∧ b.Path p w q := by
  induction h with
  | here p => exact ⟨hp, .here p⟩
  | epsilon hs _ ih =>
    have hq := hm _ _ _ hp hs
    exact ⟨(ih hq.1).1, .epsilon hq.2 (ih hq.1).2⟩
  | symbol hs _ ih =>
    have hq := hm _ _ _ hp hs
    exact ⟨(ih hq.1).1, .symbol hq.2 (ih hq.1).2⟩

theorem Path.mono (hm : ∀ p l q, q ∈ a.successors p l → q ∈ b.successors p l)
    (h : a.Path p w q) : b.Path p w q :=
  (h.confined (fun _ => True) (fun p l q _ hs => ⟨trivial, hm p l q hs⟩) trivial).2

/-- The states of a well-formed automaton are closed under paths. -/
theorem Path.mem_states (ha : a.WellFormed) (h : a.Path p w q) (hp : p ∈ a.states) :
    q ∈ a.states :=
  (h.confined (· ∈ a.states) (fun _ _ _ _ hs => ⟨ha.mem_of_mem_successors hs, hs⟩) hp).1

/-- A word is recognized from states only. -/
theorem RecognizesFrom.mem_states (h : a.RecognizesFrom p w) : p ∈ a.states := by
  obtain ⟨q, hpath, hacc⟩ := h
  cases hpath with
  | here => exact mem_states_of_isAccepting hacc
  | epsilon hs _ => exact mem_states_of_mem_successors hs
  | symbol hs _ => exact mem_states_of_mem_successors hs

/-- From a state without moves a path leads nowhere. -/
theorem Path.eq_of_no_moves (h : a.Path p w q) (hp : ∀ l, a.successors p l = []) :
    w = [] ∧ q = p := by
  cases h with
  | here => exact ⟨rfl, rfl⟩
  | epsilon hs _ => rw [hp] at hs; exact absurd hs List.not_mem_nil
  | symbol hs _ => rw [hp] at hs; exact absurd hs List.not_mem_nil

/-- The first symbol of a word is read by one move, behind epsilon moves. -/
theorem path_cons_iff : a.Path p (c :: w) r ↔
    ∃ q q', a.Path p [] q ∧ q' ∈ a.successors q (.symbol c) ∧ a.Path q' w r := by
  refine ⟨fun h => ?_, fun h => ?_⟩
  · generalize e : c :: w = v at h
    induction h with
    | here => cases e
    | epsilon hs _ ih =>
      obtain ⟨q, q', hq, hc, hw⟩ := ih e
      exact ⟨q, q', .epsilon hs hq, hc, hw⟩
    | symbol hs hw => cases e; exact ⟨_, _, .here _, hs, hw⟩
  · obtain ⟨q, q', hq, hc, hw⟩ := h
    exact hq.append (.symbol hc hw)

/-- A path for two words passes through a state between them. -/
theorem path_append_iff : a.Path p (u ++ v) r ↔ ∃ q, a.Path p u q ∧ a.Path q v r := by
  refine ⟨fun h => ?_, fun ⟨q, hu, hv⟩ => hu.append hv⟩
  generalize e : u ++ v = w at h
  induction h generalizing u with
  | here p =>
    obtain ⟨rfl, rfl⟩ := List.append_eq_nil_iff.1 e
    exact ⟨p, .here p, .here p⟩
  | epsilon hs _ ih =>
    obtain ⟨q, hu, hv⟩ := ih e
    exact ⟨q, .epsilon hs hu, hv⟩
  | @symbol p _ _ d w hs hw ih =>
    match u, e with
    | [], e =>
      obtain rfl : v = d :: w := e
      exact ⟨p, .here p, .symbol hs hw⟩
    | x :: u, e =>
      obtain ⟨rfl, e'⟩ := List.cons.inj e
      obtain ⟨q, hu, hv⟩ := ih e'
      exact ⟨q, .symbol hs hu, hv⟩

/-! ## 2. Deterministic automata -/

/-- No state has an epsilon move or two targets on one symbol. -/
structure Deterministic (a : Automaton) : Prop where
  /-- Every move reads a symbol. -/
  epsilonFree : a.EpsilonFree
  /-- A state and a symbol leave no choice. -/
  unique : ∀ {p c q r}, q ∈ a.successors p (.symbol c) → r ∈ a.successors p (.symbol c) → q = r

theorem isDeterministic_iff_entries : a.isDeterministic = true ↔
    ∀ n s, a.state? n = some s → ∀ l ts, s.transitions.get? l = some ts →
      l ≠ .epsilon ∧ ts.size ≤ 1 := by
  simp only [isDeterministic, List.all_eq_true, Bool.and_eq_true, decide_eq_true_eq]
  constructor
  · intro h n s hs l ts ht
    exact h s (OrderedMap.mem_values_iff.2 ⟨n, hs⟩) (l, ts) (OrderedMap.mem_entries_iff.2 ht)
  · intro h s hs h' ht
    obtain ⟨l, ts⟩ := h'
    obtain ⟨n, hn⟩ := OrderedMap.mem_values_iff.1 hs
    exact h n s hn l ts (OrderedMap.mem_entries_iff.1 ht)

theorem mem_successors_iff_entry {l : Label} : q ∈ a.successors p l ↔
    ∃ s ts, a.state? p = some s ∧ s.transitions.get? l = some ts ∧ q ∈ ts := by
  refine ⟨fun h => ?_, fun h => ?_⟩
  · obtain ⟨s, hs⟩ := OrderedMap.mem_iff_exists_get?.1 (mem_states_of_mem_successors h)
    rw [successors_of_state? hs, State.mem_targets_iff] at h
    obtain ⟨ts, ht, hq⟩ := h
    exact ⟨s, ts, hs, ht, hq⟩
  · obtain ⟨s, ts, hs, ht, hq⟩ := h
    rw [successors_of_state? hs]
    exact State.mem_targets_iff.2 ⟨ts, ht, hq⟩

/-- **The check of the stored moves decides determinism**, since no label is stored in vain. -/
theorem isDeterministic_iff (ha : a.WellFormed) : a.isDeterministic = true ↔ a.Deterministic := by
  rw [isDeterministic_iff_entries]
  constructor
  · refine fun h => ⟨fun p => List.eq_nil_iff_forall_not_mem.2 fun q hq => ?_, fun hq hr => ?_⟩
    · obtain ⟨s, ts, hs, ht, _⟩ := mem_successors_iff_entry.1 hq
      exact (h p s hs _ ts ht).1 rfl
    · obtain ⟨s, ts, hs, ht, hq⟩ := mem_successors_iff_entry.1 hq
      obtain ⟨s', ts', hs', ht', hr⟩ := mem_successors_iff_entry.1 hr
      cases hs.symm.trans hs'
      cases ht.symm.trans ht'
      exact OrderedSet.eq_of_mem_of_size_le_one (h _ s hs _ ts ht).2 hq hr
  · intro h n s hs l ts ht
    have hmem : ∀ q ∈ ts, q ∈ a.successors n l := fun q hq =>
      mem_successors_iff_entry.2 ⟨s, ts, hs, ht, hq⟩
    cases l with
    | epsilon =>
      have hne := ha.targets_ne_nil n s hs _ (OrderedMap.mem_entries_iff.2 ht)
      obtain ⟨q, hq⟩ := List.exists_mem_of_ne_nil ts.toList hne
      have hq' := hmem q hq
      rw [h.epsilonFree n] at hq'
      exact absurd hq' List.not_mem_nil
    | symbol c =>
      refine ⟨nofun, OrderedSet.size_le_one_of_unique fun q hq r hr => ?_⟩
      exact h.unique (hmem q hq) (hmem r hr)

/-! ## 3. Runs -/

theorem step?_eq_some_iff (ha : a.Deterministic) :
    a.step? p c = some q ↔ q ∈ a.successors p (.symbol c) := by
  refine ⟨List.mem_of_head?, fun hq => ?_⟩
  unfold step?
  cases hh : a.successors p (.symbol c) with
  | nil => rw [hh] at hq; exact absurd hq List.not_mem_nil
  | cons r rs =>
    have hr : r ∈ a.successors p (.symbol c) := hh ▸ List.mem_cons_self
    rw [List.head?_cons, ha.unique hq hr]

@[simp] theorem run?_nil : a.run? p [] = some p := rfl

theorem run?_cons : a.run? p (c :: w) = (a.step? p c).bind fun q => a.run? q w := by
  rw [run?]
  cases a.step? p c <;> rfl

theorem run?_append : a.run? p (u ++ v) = (a.run? p u).bind fun q => a.run? q v := by
  induction u generalizing p with
  | nil => rfl
  | cons c u ih =>
    rw [List.cons_append, run?_cons, run?_cons, Option.bind_assoc]
    simp only [ih]

theorem run?_singleton : a.run? p [c] = a.step? p c := by
  rw [run?_cons]
  cases a.step? p c <;> rfl

theorem run?_concat : a.run? p (u ++ [c]) = (a.run? p u).bind fun q => a.step? q c := by
  simp only [run?_append, run?_singleton]

/-- The paths of a deterministic automaton are its runs. -/
theorem path_iff_run? (ha : a.Deterministic) : a.Path p w q ↔ a.run? p w = some q := by
  refine ⟨fun h => ?_, fun h => ?_⟩
  · induction h with
    | here => rfl
    | epsilon hs _ _ => rw [ha.epsilonFree] at hs; exact absurd hs List.not_mem_nil
    | symbol hs _ ih => rw [run?_cons, (step?_eq_some_iff ha).2 hs]; exact ih
  · induction w generalizing p with
    | nil =>
      obtain rfl := Option.some.inj h
      exact .here p
    | cons c w ih =>
      rw [run?_cons, Option.bind_eq_some_iff] at h
      obtain ⟨r, hr, hw⟩ := h
      exact .symbol ((step?_eq_some_iff ha).1 hr) (ih hw)

/-- What is recognized from the end of a path is what is recognized behind its word. -/
theorem recognizesFrom_iff_append (ha : a.Deterministic) (h : a.Path p u q) :
    a.RecognizesFrom q v ↔ a.RecognizesFrom p (u ++ v) := by
  refine ⟨fun h => ?_, fun h => ?_⟩
  · obtain ⟨r, hr, hacc⟩ := h
    exact ⟨r, h.append hr, hacc⟩
  · obtain ⟨r, hr, hacc⟩ := h
    obtain ⟨q', hu, hv⟩ := path_append_iff.1 hr
    have e : some q = some q' := ((path_iff_run? ha).1 h).symm.trans ((path_iff_run? ha).1 hu)
    cases e
    exact ⟨r, hv, hacc⟩

theorem accepts_iff_run? : a.accepts w = true ↔
    ∃ q, a.run? a.start w = some q ∧ a.isAccepting q = true := by
  unfold accepts
  cases a.run? a.start w <;> simp

/-- **Following first targets decides the language of a deterministic automaton.** -/
theorem accepts_iff_recognizes (ha : a.Deterministic) : a.accepts w = true ↔ a.Recognizes w := by
  rw [accepts_iff_run?]
  simp only [Recognizes, RecognizesFrom, path_iff_run? ha]

end RegularLanguages.Automaton
