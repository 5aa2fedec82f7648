import RegularLanguages.Proofs.Alphabets

/-!
# Reading derived automata back

An automaton that was read from a description is changed by constructions, one after the other, and
the result is printed. Its text is read back as the same automaton if all names of its states are
read as words. Joining and numbering keep this. A reversal adds the state `start`, which is a word;
but if there is a state `start` already, the new one gets primes behind it, and a prime is the quote
that ends a word.

* `ReadsBack` -- the text of an automaton is a description of the automaton;
* `readsBack_iff` -- **it is if all names can be written**;
* `KeptByNaming.derive` -- what naming keeps is kept by any number of constructions;
* `derived_reads_back` -- **derived automata are read back unless a name has a quote in it, which
  takes the reversal of an automaton with a state `start`**.
-/

namespace RegularLanguages.Automaton

open Source (IsName)

variable {a b : Automaton} {n : StateName} {ts us : List Transformation}

/-! ## 1. Texts that are read back -/

/-- Whether the text of an automaton is read as a description, which stands for the automaton up to
order. -/
def ReadsBack (a : Automaton) : Prop :=
  ∃ d b, Description.parse a.render = .ok d ∧ ofDescription d = .ok b ∧ b ≈ a

/-- **A text is read back if and only if all names of states can be written.** -/
theorem readsBack_iff (ha : a.WellFormed) (he : epsilonSymbol ∉ a.alphabet) :
    a.ReadsBack ↔ ∀ n ∈ a.states, IsName n := by
  constructor
  · rintro ⟨d, b, hd, hb, hba⟩ n hn
    exact (printable_of_parse hd hb).isName n ((mem_states_of_equiv hba).2 hn)
  · intro hnames
    have hspell : a.Spellable := ⟨ha, hnames⟩
    obtain ⟨b, hb, hba⟩ := ofDescription_description ha he
    exact ⟨a.description, b, hspell.parse_render_ok, hb, hba⟩

/-! ## 2. Names with a quote -/

theorem quote_not_mem_of_isName (hn : IsName n) : '\'' ∉ n.toList := fun h =>
  absurd (hn.not_endsWord h) (by decide)

/-- Whether a name can be written unless it has a quote in it. -/
def IsNameUnlessQuoted (n : StateName) : Prop := '\'' ∉ n.toList → IsName n

/-- The characters of names are characters of the joined name. -/
theorem mem_joined {c : Char} {ns : List StateName} (hn : n ∈ ns) (hc : c ∈ n.toList) :
    c ∈ (",".intercalate ns).toList := by
  induction ns with
  | nil => exact absurd hn List.not_mem_nil
  | cons m ns ih =>
    cases ns with
    | nil =>
      rw [List.mem_singleton.1 hn] at hc
      rwa [String.intercalate_singleton]
    | cons k ns =>
      rw [String.intercalate_cons_cons, String.toList_append, String.toList_append]
      rcases List.mem_cons.1 hn with rfl | hn
      · exact List.mem_append_left _ (List.mem_append_left _ hc)
      · exact List.mem_append_right _ (ih hn)

theorem keptByNaming_isNameUnlessQuoted : KeptByNaming IsNameUnlessQuoted where
  joined ns hne h hquote := IsName.joined (fun n hn =>
    h n hn fun hmem => hquote (mem_joined hn hmem)) hne
  numbered n h i hquote := by
    refine (h fun hmem => hquote ?_).numbered i
    rw [String.append_assoc, String.toList_append]
    exact List.mem_append_left _ hmem
  counted i _ := keptByNaming_isName.counted i

/-- The start of a reversal has a quote in its name if the name `start` is taken. -/
theorem quote_mem_start_reverse_iff :
    '\'' ∈ a.reverse.start.toList ↔ "start" ∈ a.states := by
  rw [start_reverse]
  refine ⟨fun h => ?_, quote_mem_freshName⟩
  by_contra hstart
  rw [freshName_of_not_mem hstart] at h
  exact absurd h (by decide)

theorem isNameUnlessQuoted_start_reverse : IsNameUnlessQuoted a.reverse.start := by
  intro hquote
  rw [start_reverse, freshName_of_not_mem (mt quote_mem_start_reverse_iff.2 hquote)]
  exact ⟨rfl, by decide⟩

/-! ## 3. Constructions in a row -/

/-- **What naming keeps is kept by any number of constructions**, if the fresh names of the
reversals among them have it. -/
theorem KeptByNaming.derive {P : StateName → Prop} (hP : KeptByNaming P) (ha : a.WellFormed)
    (h : ∀ n ∈ a.states, P n)
    (hfresh : ∀ us, us ++ [.reverse] <+: ts → P (a.derive us).reverse.start) :
    ∀ n ∈ (a.derive ts).states, P n := by
  induction ts using List.reverseRecOn with
  | nil => exact h
  | append_singleton ts t ih =>
    have hbefore := ih fun us hus => hfresh us (hus.trans (List.prefix_append ts [t]))
    rw [derive_concat]
    refine hP.applyTransformation (ha.derive ts) hbefore t fun ht => hfresh ts ?_
    rw [ht]

/-- The alphabet is carried along, so only the names of a derived automaton matter. -/
theorem Printable.readsBack_derive_iff_isName (ha : a.Printable) :
    (a.derive ts).ReadsBack ↔ ∀ n ∈ (a.derive ts).states, IsName n :=
  readsBack_iff (ha.wellFormed.derive ts) (alphabet_derive ha.wellFormed ts ▸ ha.epsilon_not_mem)

/-- The names of a derived automaton can be written unless there are quotes in them. -/
theorem Printable.readsBack_derive_iff (ha : a.Printable) :
    (a.derive ts).ReadsBack ↔ ∀ n ∈ (a.derive ts).states, '\'' ∉ n.toList := by
  rw [ha.readsBack_derive_iff_isName]
  refine ⟨fun h n hn => quote_not_mem_of_isName (h n hn), fun h n hn => ?_⟩
  exact keptByNaming_isNameUnlessQuoted.derive ha.wellFormed (fun n hn _ => ha.isName n hn)
    (fun _ _ => isNameUnlessQuoted_start_reverse) n hn (h n hn)

/-- **Without the reversal of an automaton that has a state `start`, all that is derived is read
back**, and such a reversal is not. -/
theorem Printable.forall_readsBack_iff (ha : a.Printable) :
    (∀ us, us <+: ts → (a.derive us).ReadsBack) ↔
      ∀ us, us ++ [.reverse] <+: ts → "start" ∉ (a.derive us).states := by
  constructor
  · intro h us hus hstart
    have hreads := ha.readsBack_derive_iff.1 (h _ hus)
    rw [derive_concat] at hreads
    exact hreads _ wellFormed_reverse.start_mem (quote_mem_start_reverse_iff.2 hstart)
  · intro h us hus
    rw [ha.readsBack_derive_iff_isName]
    -- the fresh name has no quote, because the name `start` is free
    refine keptByNaming_isName.derive ha.wellFormed ha.isName fun vs hvs => ?_
    refine isNameUnlessQuoted_start_reverse fun hquote => ?_
    exact h vs (hvs.trans hus) (quote_mem_start_reverse_iff.1 hquote)

/-- **Derived automata are read back, unless a name has a quote in it.** Take an automaton that was
read from a description, and any sequence of constructions. The text of what they make is read as
the automaton that they make, up to order, if and only if no name of its states has a quote in it.
This is so at every step, if and only if no step reverses an automaton with a state `start`: then
the new start gets a name with primes, while all the other names are words. -/
theorem derived_reads_back {text : String} {d : Description} (hd : Description.parse text = .ok d)
    (ha : ofDescription d = .ok a) (ts : List Transformation) :
    ((a.derive ts).ReadsBack ↔ ∀ n ∈ (a.derive ts).states, '\'' ∉ n.toList) ∧
      ((∀ us, us <+: ts → (a.derive us).ReadsBack) ↔
        ∀ us, us ++ [.reverse] <+: ts → "start" ∉ (a.derive us).states) :=
  have hprintable := printable_of_parse hd ha
  ⟨hprintable.readsBack_derive_iff, hprintable.forall_readsBack_iff⟩

/-- The text of an automaton with a state `start`. -/
def startToGoalText : String :=
  "dfa states start goal end; initial start accept goal end;
  transitions start 'x --> goal end; alphabet 'x end;"

def startToGoal : Description :=
  ⟨["start", "goal"], "start", ["goal"], [("start", ['x'], "goal")], ['x']⟩

theorem parse_startToGoalText : Description.parse startToGoalText = .ok startToGoal := by
  decide +kernel

theorem ofDescription_startToGoal : ofDescription startToGoal = .ok startToGoal.build := by
  decide +kernel

/-- With its states numbered, the automaton can be reversed. -/
theorem derived_reads_back_startToGoal : Description.parse startToGoalText = .ok startToGoal ∧
    ofDescription startToGoal = .ok startToGoal.build ∧
      (startToGoal.build.derive [.determinizeFromEntry, .reverse]).ReadsBack := by
  refine ⟨parse_startToGoalText, ofDescription_startToGoal, ?_⟩
  refine (derived_reads_back parse_startToGoalText ofDescription_startToGoal _).1.2 fun n hn => ?_
  have hkeys : (startToGoal.build.derive [.determinizeFromEntry, .reverse]).states.keys =
      ["start", "d0", "d1"] := by decide +kernel
  rw [OrderedMap.mem_def, hkeys] at hn
  revert n
  decide

/-- Reversed as it is, it is not read back. -/
theorem not_readsBack_reverse_startToGoal :
    Description.parse startToGoalText = .ok startToGoal ∧
      ofDescription startToGoal = .ok startToGoal.build ∧
        (startToGoal.build.derive [.reverse]).start = "start'" ∧
          ¬ (startToGoal.build.derive [.reverse]).ReadsBack := by
  have ha : startToGoal.build.Printable :=
    printable_of_parse parse_startToGoalText ofDescription_startToGoal
  have hstart : (startToGoal.build.derive [.reverse]).start = "start'" := by decide +kernel
  refine ⟨parse_startToGoalText, ofDescription_startToGoal, hstart, fun h => ?_⟩
  have hquote := ha.readsBack_derive_iff.1 h _ (ha.wellFormed.derive [.reverse]).start_mem
  rw [hstart] at hquote
  exact absurd hquote (by decide)

end RegularLanguages.Automaton
