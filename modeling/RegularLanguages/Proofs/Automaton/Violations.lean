import Mathlib.Data.List.Dedup
import Mathlib.Data.Prod.Basic
import RegularLanguages.Proofs.Automaton.Description
import RegularLanguages.Proofs.Checking

/-!
# What is wrong with a description

A description is checked part by part. Everything that can be wrong with it is listed here in the
order in which it counts; what is reported is the head of that list.

* `Description.violations` -- all that is wrong with a description, in order;
* `ofDescription_eq_settle` -- **the first violation is reported**, and without one the automaton is
  built; `ofDescription_eq_ok_iff` says that of the valid descriptions;
* `Description.Materializes` -- an automaton has the parts of a description and no more, each once;
* `ofDescription_exact` -- when a description is accepted, what comes out of it, and what is
  reported if it is not.
-/

namespace RegularLanguages.Automaton

variable {d : Description} {a : Automaton} {n p q : StateName} {l : Label}

/-! ## 1. Violations -/

namespace Description

/-- A complaint about each of the names that is not declared. -/
def undeclared (d : Description) (names : List StateName) : List Error :=
  (names.filter fun n => n ∉ d.states).map .unknownState

/-- What is wrong with a single transition: its symbol counts first, then the source, then the
target. -/
def transitionViolations (d : Description) (t : StateName × Symbol × StateName) : List Error :=
  (if t.2.1 = epsilonSymbol ∨ t.2.1 ∈ d.alphabet then [] else [.undeclaredSymbol t.2.1]) ++
    d.undeclared [t.1, t.2.2]

/-- All that is wrong with a description: its start, its alphabet, its accepting states, its
transitions symbol by symbol. -/
def violations (d : Description) : List Error :=
  d.undeclared [d.start] ++
    (if epsilonSymbol ∈ d.alphabet then [.undeclaredSymbol epsilonSymbol] else []) ++
    d.undeclared d.accepting ++ d.singleTransitions.flatMap d.transitionViolations

theorem undeclared_cons (n : StateName) (ns : List StateName) :
    d.undeclared (n :: ns) = d.undeclared [n] ++ d.undeclared ns := by
  unfold undeclared
  by_cases h : n ∈ d.states <;> simp [h]

theorem undeclared_eq_nil_iff {names : List StateName} :
    d.undeclared names = [] ↔ ∀ n ∈ names, n ∈ d.states := by
  simp [undeclared]

theorem undeclared_eq_flatMap (names : List StateName) :
    d.undeclared names = names.flatMap fun n => d.undeclared [n] := by
  induction names with
  | nil => rfl
  | cons n names ih => rw [undeclared_cons, ih, List.flatMap_cons]

theorem transitionViolations_eq_nil_iff {t : StateName × Symbol × StateName} :
    d.transitionViolations t = [] ↔ d.Declares t := by
  have hsymbol : (if t.2.1 = epsilonSymbol ∨ t.2.1 ∈ d.alphabet then []
      else [Error.undeclaredSymbol t.2.1]) = [] ↔ t.2.1 = epsilonSymbol ∨ t.2.1 ∈ d.alphabet := by
    split <;> simp_all
  rw [transitionViolations, List.append_eq_nil_iff, undeclared_eq_nil_iff, hsymbol,
    List.forall_mem_cons, List.forall_mem_singleton, Declares]

/-- Nothing is wrong with a description iff it is valid. -/
theorem violations_eq_nil_iff : d.violations = [] ↔ d.Valid := by
  rw [violations, List.append_eq_nil_iff, List.append_eq_nil_iff, List.append_eq_nil_iff,
    undeclared_eq_nil_iff, undeclared_eq_nil_iff, List.flatMap_eq_nil_iff]
  constructor
  · rintro ⟨⟨⟨hstart, hepsilon⟩, haccepting⟩, htransitions⟩
    refine ⟨hstart _ List.mem_cons_self, fun h => ?_, haccepting, fun t ht => ?_⟩
    · rw [if_pos h] at hepsilon
      cases hepsilon
    · exact transitionViolations_eq_nil_iff.1 (htransitions t ht)
  · intro h
    refine ⟨⟨⟨fun n hn => ?_, if_neg h.epsilon_not_mem⟩, h.accepting_mem⟩, fun t ht => ?_⟩
    · rw [List.mem_singleton.1 hn]
      exact h.start_mem
    · exact transitionViolations_eq_nil_iff.2 (h.declares t ht)

end Description

/-! ## 2. Every check reports its violations -/

/-- The states that a description declares are those of an automaton under construction. -/
def HasStatesOf (d : Description) (a : Automaton) : Prop := ∀ n, n ∈ a.states ↔ n ∈ d.states

/-- One accepting state. -/
theorem setAccepting_eq_settle (ha : HasStatesOf d a) (n : StateName) :
    a.setAccepting n true = settle (d.undeclared [n]) (a.mark n true) := by
  unfold setAccepting Description.undeclared
  by_cases h : n ∈ d.states <;> simp [ha n, h, settle]

theorem HasStatesOf.mark (ha : HasStatesOf d a) (h : d.undeclared [n] = []) :
    HasStatesOf d (a.mark n true) := by
  intro m
  rw [mem_states_mark, ha m]
  refine ⟨fun hm => hm.elim id fun e => ?_, Or.inl⟩
  exact Description.undeclared_eq_nil_iff.1 h m (e ▸ List.mem_cons_self)

/-- One transition on one symbol. -/
theorem addDescribed_eq_settle (ha : HasStatesOf d a) (t : StateName × Symbol × StateName) :
    addDescribed d a t =
      settle (d.transitionViolations t) (a.connect t.1 t.2.2 (.ofDescribed t.2.1)) := by
  obtain ⟨p, c, q⟩ := t
  have hends : ∀ l, a.addTransition p q l = settle (d.undeclared [p, q]) (a.connect p q l) := by
    intro l
    unfold addTransition Description.undeclared
    by_cases hp : p ∈ d.states <;> by_cases hq : q ∈ d.states <;> simp [ha p, ha q, hp, hq, settle]
  unfold addDescribed Description.transitionViolations Description.label? Label.ofDescribed
  by_cases hepsilon : c = epsilonSymbol
  · simp [hepsilon, hends]
  · by_cases hc : c ∈ d.alphabet
    · simp [hepsilon, hc, hends]
    · simp [hepsilon, hc, settle]

theorem HasStatesOf.connect {t : StateName × Symbol × StateName} (ha : HasStatesOf d a)
    (h : d.transitionViolations t = []) : HasStatesOf d (a.connect t.1 t.2.2 l) := by
  intro m
  obtain ⟨-, hsource, htarget⟩ := Description.transitionViolations_eq_nil_iff.1 h
  rw [mem_states_connect, ha m]
  refine ⟨fun hm => ?_, Or.inl⟩
  rcases hm with hm | rfl | rfl
  · exact hm
  · exact hsource
  · exact htarget

/-- **What is reported is the first violation.** A description without one is built. -/
theorem ofDescription_eq_settle (d : Description) :
    ofDescription d = settle d.violations d.build := by
  unfold ofDescription Description.violations
  by_cases hstart : d.start ∈ d.states
  · by_cases hepsilon : epsilonSymbol ∈ d.alphabet
    · simp [hstart, hepsilon, Description.undeclared, settle]
    · have hbare : HasStatesOf d d.bare := fun n => mem_states_bare hstart
      have hmarks : d.accepting.foldlM (fun a n => a.setAccepting n true) d.bare =
          settle (d.undeclared d.accepting) d.marked := by
        rw [Description.undeclared_eq_flatMap]
        exact foldlM_eq_settle (HasStatesOf d) (fun a n ha => setAccepting_eq_settle ha n)
          (fun a n ha => ha.mark) hbare
      have hmoves (h : d.undeclared d.accepting = []) :
          d.singleTransitions.foldlM (addDescribed d) d.marked =
            settle (d.singleTransitions.flatMap d.transitionViolations) d.build := by
        have hmarked : HasStatesOf d d.marked := fun n =>
          mem_states_marked hstart (Description.undeclared_eq_nil_iff.1 h)
        rw [Description.build, connectAll, Description.moves, List.foldl_map]
        exact foldlM_eq_settle (HasStatesOf d) (fun a t ha => addDescribed_eq_settle ha t)
          (fun a t ha => ha.connect) hmarked
      have hstartNil : d.undeclared [d.start] = [] := by simp [Description.undeclared, hstart]
      rw [if_neg (not_not_intro hstart), if_neg hepsilon, if_neg hepsilon, hstartNil,
        List.nil_append, List.nil_append]
      exact (congrArg (· >>= _) hmarks).trans (settle_bind hmoves)
  · simp [hstart, Description.undeclared, settle]

/-- **The valid descriptions describe an automaton**, the one that is built without checks. -/
theorem ofDescription_eq_ok_iff : ofDescription d = .ok a ↔ d.Valid ∧ a = d.build := by
  rw [ofDescription_eq_settle, settle_eq_ok_iff, Description.violations_eq_nil_iff]

/-! ## 3. Each part once -/

/-- The moves of an automaton, each with its source and its target. -/
def moves (a : Automaton) : List (StateName × StateName × Label) :=
  a.states.entries.flatMap fun e => (e.2.edges.map Prod.swap).map (e.1, ·)

theorem mem_moves : (p, q, l) ∈ a.moves ↔ q ∈ a.successors p l := by
  rw [moves, List.mem_flatMap]
  constructor
  · rintro ⟨⟨n, s⟩, hs, hmem⟩
    obtain ⟨m, hm, e⟩ := List.mem_map.1 hmem
    cases e
    obtain ⟨⟨k, t⟩, hedge, e⟩ := List.mem_map.1 hm
    cases e
    rw [successors_of_state? (OrderedMap.mem_entries_iff.1 hs)]
    exact State.mem_edges_iff.1 hedge
  · intro hq
    obtain ⟨s, hs⟩ := OrderedMap.mem_iff_exists_get?.1 (mem_states_of_mem_successors hq)
    rw [successors_of_state? hs, ← State.mem_edges_iff] at hq
    exact ⟨(p, s), OrderedMap.mem_entries_iff.2 hs,
      List.mem_map.2 ⟨(q, l), List.mem_map.2 ⟨(l, q), hq, rfl⟩, rfl⟩⟩

theorem nodup_moves (a : Automaton) : a.moves.Nodup :=
  a.states.nodup_flatMap_entries fun s =>
    (s.transitions.nodup_flatMap_entries OrderedSet.nodup).map Prod.swap_injective

/-- An automaton has the parts of a description and no others, each of them once. -/
structure Description.Materializes (d : Description) (a : Automaton) : Prop where
  /-- The parts fit together. -/
  wellFormed : a.WellFormed
  start_eq : a.start = d.start
  states_perm : a.stateNames.Perm d.states.dedup
  accepting_perm : a.accepting.toList.Perm d.accepting.dedup
  /-- The states that the description names as accepting are marked, and no others. -/
  isAccepting_iff : ∀ n, a.isAccepting n = true ↔ n ∈ d.accepting
  alphabet_perm : a.alphabet.toList.Perm d.alphabet.dedup
  /-- The stand-in of epsilon is read as epsilon. -/
  moves_perm : a.moves.Perm d.moves.dedup

/-- A list without repetitions is another one without its own, if it has the same members. -/
theorem perm_dedup {α : Type} [DecidableEq α] {xs ys : List α} (hn : xs.Nodup)
    (h : ∀ x, x ∈ xs ↔ x ∈ ys) : xs.Perm ys.dedup :=
  (List.perm_ext_iff_of_nodup hn (List.nodup_dedup ys)).2 fun x => (h x).trans List.mem_dedup.symm

/-- The automaton of a valid description has its parts. -/
theorem materializes_build (h : d.Valid) : d.Materializes d.build where
  wellFormed := wellFormed_build
  start_eq := start_build
  states_perm := perm_dedup d.build.states.nodup fun n => mem_states_build h
  accepting_perm := perm_dedup d.build.accepting.nodup fun n =>
    (wellFormed_build.mem_accepting_iff n).trans isAccepting_build
  isAccepting_iff n := isAccepting_build
  alphabet_perm := by
    refine perm_dedup d.build.alphabet.nodup fun c => ?_
    rw [alphabet_build h]
    exact OrderedSet.mem_ofList
  moves_perm := by
    refine perm_dedup (nodup_moves _) fun m => ?_
    obtain ⟨p, q, l⟩ := m
    rw [mem_moves, mem_successors_build, mem_moves_iff]

/-! ## 4. Exactness -/

theorem mem_singleTransitions_iff {c : Symbol} : (p, c, q) ∈ d.singleTransitions ↔
    ∃ cs, (p, cs, q) ∈ d.transitions ∧ c ∈ cs := by
  rw [Description.singleTransitions, List.mem_flatMap]
  constructor
  · rintro ⟨⟨p', cs, q'⟩, ht, hc⟩
    obtain ⟨c', hc', e⟩ := List.mem_map.1 hc
    cases e
    exact ⟨cs, ht, hc'⟩
  · rintro ⟨cs, ht, hc⟩
    exact ⟨(p, cs, q), ht, List.mem_map.2 ⟨c, hc, rfl⟩⟩

/-- Where every transition reads something, each of them is checked, and not only its symbols. -/
theorem valid_iff (h : ∀ t ∈ d.transitions, t.2.1 ≠ []) : d.Valid ↔
    d.start ∈ d.states ∧ (∀ n ∈ d.accepting, n ∈ d.states) ∧
      (∀ t ∈ d.transitions, t.1 ∈ d.states ∧ t.2.2 ∈ d.states) ∧ epsilonSymbol ∉ d.alphabet ∧
      ∀ t ∈ d.transitions, ∀ c ∈ t.2.1, c ≠ epsilonSymbol → c ∈ d.alphabet := by
  constructor
  · intro hv
    have hdeclares : ∀ t ∈ d.transitions, ∀ c ∈ t.2.1, d.Declares (t.1, c, t.2.2) :=
      fun t ht _ hc => hv.declares _ (mem_singleTransitions_iff.2 ⟨t.2.1, ht, hc⟩)
    refine ⟨hv.start_mem, hv.accepting_mem, fun t ht => ?_, hv.epsilon_not_mem, fun t ht c hc => ?_⟩
    · obtain ⟨c, hc⟩ := List.exists_mem_of_ne_nil _ (h t ht)
      exact (hdeclares t ht c hc).2
    · exact (hdeclares t ht c hc).1.resolve_left
  · rintro ⟨hstart, haccepting, hends, hepsilon, hsymbols⟩
    refine ⟨hstart, hepsilon, haccepting, ?_⟩
    rintro ⟨p, c, q⟩ ht
    obtain ⟨cs, htransition, hc⟩ := mem_singleTransitions_iff.1 ht
    exact ⟨or_iff_not_imp_left.2 (hsymbols _ htransition c hc), hends _ htransition⟩

/-- **A description is accepted iff all that it mentions is declared**, and U+0000 is not. What
comes out has the parts of the description and no others, each once; what is reported otherwise is
the first violation. -/
theorem ofDescription_exact (h : ∀ t ∈ d.transitions, t.2.1 ≠ []) :
    ((∃ a, ofDescription d = .ok a) ↔
      d.start ∈ d.states ∧ (∀ n ∈ d.accepting, n ∈ d.states) ∧
        (∀ t ∈ d.transitions, t.1 ∈ d.states ∧ t.2.2 ∈ d.states) ∧ epsilonSymbol ∉ d.alphabet ∧
        ∀ t ∈ d.transitions, ∀ c ∈ t.2.1, c ≠ epsilonSymbol → c ∈ d.alphabet) ∧
      (∀ a, ofDescription d = .ok a → d.Materializes a) ∧
      ∀ e, ofDescription d = .error e ↔ d.violations.head? = some e := by
  refine ⟨?_, fun a ha => ?_, fun e => ?_⟩
  · rw [← valid_iff h]
    exact ⟨fun ⟨_, ha⟩ => (ofDescription_eq_ok_iff.1 ha).1,
      fun hv => ⟨d.build, ofDescription_eq_ok_iff.2 ⟨hv, rfl⟩⟩⟩
  · obtain ⟨hv, rfl⟩ := ofDescription_eq_ok_iff.1 ha
    exact materializes_build hv
  · rw [ofDescription_eq_settle, settle_eq_error_iff]

/-- A description that names a state, a symbol and moves twice, and has an epsilon move. -/
def repetitive : Description where
  states := ["p", "q", "p"]
  start := "q"
  accepting := ["p", "p"]
  transitions := [("p", ['x', '\x00', 'x'], "q"), ("q", ['x'], "p"), ("p", ['x'], "q")]
  alphabet := ['x', 'y', 'x']

/-- The same with an undeclared symbol on a transition to an unknown state. -/
def faulty : Description :=
  { repetitive with transitions := repetitive.transitions ++ [("p", ['x', 'z'], "r")] }

theorem ofDescription_exact_repetitive :
    (∀ t ∈ repetitive.transitions, t.2.1 ≠ []) ∧ (∀ t ∈ faulty.transitions, t.2.1 ≠ []) ∧
      (∃ a, ofDescription repetitive = .ok a ∧ repetitive.Materializes a ∧
        a.moves.Perm [("p", "q", .symbol 'x'), ("p", "q", .epsilon), ("q", "p", .symbol 'x')]) ∧
      ofDescription faulty = .error (.unknownState "r") := by
  have h : ∀ t ∈ repetitive.transitions, t.2.1 ≠ [] := by decide
  have h' : ∀ t ∈ faulty.transitions, t.2.1 ≠ [] := by decide
  obtain ⟨haccepted, hparts, -⟩ := ofDescription_exact h
  obtain ⟨-, -, hreported⟩ := ofDescription_exact h'
  obtain ⟨a, ha⟩ := haccepted.2 (by simp [repetitive, epsilonSymbol])
  refine ⟨h, h', ⟨a, ha, hparts a ha, ?_⟩, (hreported _).2 (by decide)⟩
  refine (hparts a ha).moves_perm.trans ?_
  decide

end RegularLanguages.Automaton
