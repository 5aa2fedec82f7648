import RegularLanguages.Proofs.Automaton.Idempotence
import RegularLanguages.Proofs.Automaton.Subsets
import RegularLanguages.Proofs.CommandLine.Arguments
import RegularLanguages.Proofs.Pipeline
import RegularLanguages.Proofs.Printability

/-!
# Verdicts of the command line

Words are checked against the automaton that a file describes, and the automaton that the program
prints when it minimizes can be put into a file again.

* `Prints` -- a command can be stated, and prints a text however it is stated;
* `Verdicts` -- the words that `check` accepts for a file are those of a language;
* `loadDeterministic_spec` -- what is loaded can be printed, is deterministic, and accepts the words
  that the description recognizes;
* `verdicts_of_load` -- `check` decides the language of the description;
* `check_minimize` -- **minimizing keeps the verdicts**, through what is printed;
* `determinization_prunes` -- **a second determinization can be left out**: it changes no automaton
  by more than what cannot be reached, and no verdict.
-/

namespace RegularLanguages

variable {files : String → FileContent} {file : String} {words : List String} {a b : Automaton}
  {c : Command} {text : String} {accepted : Word → Prop}

/-! ## 1. What a command prints -/

/-- A command can be stated, and prints a text however it is stated. -/
def Prints (files : String → FileContent) (c : Command) (text : String) : Prop :=
  (∃ args, Command.parse? args = some c) ∧
    ∀ args, Command.parse? args = some c → execute files args = .printed text

theorem prints_of_run (hc : ∃ args, Command.parse? args = some c) (h : c.run files = .ok text) :
    Prints files c text := by
  refine ⟨hc, fun args hargs => ?_⟩
  simp only [execute, hargs, h]

/-! ## 2. What is loaded -/

/-- **What is loaded** can be printed, is deterministic, and accepts the words that the description
recognizes. -/
theorem loadDeterministic_spec {content : FileContent} (h : Automaton.load content = .ok a) :
    ∃ b, Command.loadDeterministic content = .ok b ∧ b.Printable ∧ b.Deterministic ∧
      ∀ w, b.accepts w = true ↔ a.Recognizes w := by
  have ha : a.Printable := Automaton.printable_of_load h
  have hload : Command.loadDeterministic content =
      .ok (if a.isDeterministic then a else a.determinize) :=
    bind_eq_ok_iff.2 ⟨a, h, rfl⟩
  refine ⟨_, hload, ?_⟩
  split
  · rename_i hd
    have hd := (Automaton.isDeterministic_iff ha.wellFormed).1 hd
    exact ⟨ha, hd, fun w => Automaton.accepts_iff_recognizes hd⟩
  · exact ⟨ha.determinize, Automaton.deterministic_determinize ha.wellFormed,
      fun w => Automaton.accepts_determinize_iff ha.wellFormed⟩

/-! ## 3. Checking words -/

/-- A line that gives the verdict on a word: whether it is accepted. -/
def VerdictLine (accepted : Word → Prop) (w line : String) : Prop :=
  (accepted w.toList ∧ line = w ++ "\taccept\n") ∨
    (¬ accepted w.toList ∧ line = w ++ "\treject\n")

/-- Checking words against a file prints one verdict for each of them. -/
def Verdicts (files : String → FileContent) (file : String) (accepted : Word → Prop) : Prop :=
  ∀ words, ∃ lines, Prints files (.check file words) (String.join lines) ∧
    List.Forall₂ (VerdictLine accepted) words lines

/-- The line that is printed for a word. -/
def verdictOf (a : Automaton) (w : String) : String :=
  w ++ "\t" ++ (if a.accepts w.toList then "accept" else "reject") ++ "\n"

theorem verdicts_eq (a : Automaton) (words : List String) :
    Command.verdicts a words = String.join (words.map (verdictOf a)) := rfl

theorem verdictLine_verdictOf (haccepts : ∀ w, a.accepts w = true ↔ accepted w) (w : String) :
    VerdictLine accepted w (verdictOf a w) := by
  unfold verdictOf
  by_cases h : a.accepts w.toList = true
  · refine Or.inl ⟨(haccepts _).1 h, ?_⟩
    rw [if_pos h, String.append_assoc, String.append_assoc]
    rfl
  · refine Or.inr ⟨fun hw => h ((haccepts _).2 hw), ?_⟩
    rw [if_neg h, String.append_assoc, String.append_assoc]
    rfl

/-- **Checking words decides the language that a file describes.** -/
theorem verdicts_of_load (hfile : file ≠ "") (h : Automaton.load (files file) = .ok a) :
    Verdicts files file a.Recognizes := by
  obtain ⟨b, hb, _, _, haccepts⟩ := loadDeterministic_spec h
  intro words
  have hrun : Command.run files (.check file words) = .ok (Command.verdicts b words) :=
    bind_eq_ok_iff.2 ⟨b, hb, rfl⟩
  rw [verdicts_eq] at hrun
  refine ⟨words.map (verdictOf b), prints_of_run (exists_parse?_check hfile words) hrun, ?_⟩
  rw [List.forall₂_map_right_iff, List.forall₂_same]
  exact fun w _ => verdictLine_verdictOf haccepts w

/-! ## 4. Minimizing -/

/-- **Minimizing keeps the verdicts.** Checking words against a file with a description prints which
of them the automaton described recognizes. Minimizing prints a text that can be loaded as a
deterministic automaton, and checking words against a file with this text prints the same. -/
theorem check_minimize (hfile : file ≠ "") (h : Automaton.load (files file) = .ok a)
    (strategy : Strategy) : Verdicts files file a.Recognizes ∧
      ∃ text b, Prints files (.minimize file strategy) text ∧
        Automaton.load (some text.toUTF8) = .ok b ∧ b.isDeterministic = true ∧
        ∀ (files' : String → FileContent) (file' : String), file' ≠ "" →
          files' file' = some text.toUTF8 → Verdicts files' file' a.Recognizes := by
  refine ⟨verdicts_of_load hfile h, ?_⟩
  obtain ⟨m, hm, hprintable, hdet, haccepts⟩ := loadDeterministic_spec h
  obtain ⟨b, hb, hequiv⟩ := Automaton.load_render (hprintable.minimize strategy)
  have hminimal := Automaton.deterministic_minimize hprintable.wellFormed hdet strategy
  have hbdet : b.isDeterministic = true :=
    (Automaton.isDeterministic_iff (Automaton.printable_of_load hb).wellFormed).2
      (Automaton.deterministic_of_equiv hequiv hminimal)
  have hlanguage : b.Recognizes = a.Recognizes := by
    funext w
    refine propext ?_
    calc b.Recognizes w
      _ ↔ (m.minimize strategy).Recognizes w := Automaton.sameLanguage_of_equiv hequiv w
      _ ↔ (m.minimize strategy).accepts w = true := (Automaton.accepts_iff_recognizes hminimal).symm
      _ ↔ m.Recognizes w := Automaton.accepts_minimize_iff hprintable.wellFormed hdet strategy
      _ ↔ m.accepts w = true := (Automaton.accepts_iff_recognizes hdet).symm
      _ ↔ a.Recognizes w := haccepts w
  have hrun : Command.run files (.minimize file strategy) =
      .ok ((m.minimize strategy).render ++ "\n") := bind_eq_ok_iff.2 ⟨m, hm, rfl⟩
  refine ⟨_, b, prints_of_run (exists_parse?_minimize hfile strategy) hrun, hb, hbdet,
    fun files' file' hfile' hcontent => ?_⟩
  rw [← hlanguage]
  exact verdicts_of_load hfile' (hcontent ▸ hb)

/-- A description with an epsilon move, and with a state whose name is that of a set of others. -/
def clashingText : String :=
  "nfa states p q p,q end initial p accept q end transitions p 'a --> p p 'a '\\0 --> q " ++
    "p 'b --> p,q end alphabet 'a 'b end"

/-- The automaton that it describes. -/
def clashingNames : Automaton :=
  .ofRows "p" ['a', 'b']
    [⟨"p", false, [(.symbol 'a', "p"), (.symbol 'a', "q"), (.epsilon, "q"), (.symbol 'b', "p,q")]⟩,
      ⟨"q", true, []⟩, ⟨"p,q", false, []⟩]

theorem check_minimize_clashing :
    Automaton.load (some clashingText.toUTF8) = .ok clashingNames ∧
      Verdicts (fun _ => some clashingText.toUTF8) "a" clashingNames.Recognizes ∧
        ∃ text b, Prints (fun _ => some clashingText.toUTF8) (.minimize "a" .partition) text ∧
          Automaton.load (some text.toUTF8) = .ok b ∧ b.isDeterministic = true ∧
          ∀ (files' : String → FileContent) (file' : String), file' ≠ "" →
            files' file' = some text.toUTF8 →
              Verdicts files' file' clashingNames.Recognizes := by
  have hparse : Automaton.Description.parse clashingText =
      .ok ⟨["p", "q", "p,q"], "p", ["q"], [("p", ['a'], "p"), ("p", ['a', epsilonSymbol], "q"),
        ("p", ['b'], "p,q")], ['a', 'b']⟩ := by decide +kernel
  have hload : Automaton.load (some clashingText.toUTF8) = .ok clashingNames :=
    Automaton.load_eq_ok_iff.2 ⟨_, _, Automaton.readText_toUTF8 _, hparse, by decide +kernel⟩
  exact ⟨hload, @check_minimize (fun _ => some clashingText.toUTF8) "a" clashingNames (by decide)
    hload .partition⟩

/-! ## 5. Determinizing what is loaded -/

theorem verdicts_congr (h : ∀ w, a.accepts w = b.accepts w) (words : List String) :
    Command.verdicts a words = Command.verdicts b words := by
  simp only [Command.verdicts, h]

/-- Checking prints what it would if every automaton were determinized. -/
theorem run_check_eq : Command.run files (.check file words) =
    (Automaton.load (files file)).map fun a => Command.verdicts a.determinize words := by
  cases h : Automaton.load (files file) with
  | error failure =>
    simp only [Command.run, Command.loadDeterministic, h]
    rfl
  | ok a =>
    obtain ⟨b, hb, _, _, haccepts⟩ := loadDeterministic_spec h
    have ha : a.WellFormed := (Automaton.printable_of_load h).wellFormed
    have hverdicts : Command.verdicts b words = Command.verdicts a.determinize words := by
      refine verdicts_congr (fun w => ?_) words
      rw [Bool.eq_iff_iff, haccepts, Automaton.accepts_determinize_iff ha]
    simp only [Command.run, hb]
    exact congrArg Except.ok hverdicts

/-- **Determinizing a deterministic automaton only prunes it**, with all names kept. So determinizing
twice is no more than determinizing once, and checking words can leave a deterministic automaton as
it is: it prints the same verdicts as if every automaton were determinized. -/
theorem determinization_prunes :
    (∀ a : Automaton, a.WellFormed → a.isDeterministic = true → a.determinize ≈ a.reachable) ∧
      (∀ a : Automaton, a.WellFormed → a.determinize.determinize ≈ a.determinize) ∧
      ∀ (files : String → FileContent) (file : String) (words : List String),
        Command.run files (.check file words) =
          (Automaton.load (files file)).map fun a => Command.verdicts a.determinize words :=
  ⟨fun _ ha hd => Automaton.determinize_equiv_reachable ha ((Automaton.isDeterministic_iff ha).1 hd),
    fun _ ha => Automaton.determinize_determinize_equiv ha, fun _ _ _ => run_check_eq⟩

/-- A deterministic automaton with a state that cannot be reached, and with a state whose name is
that of a set of others. -/
def unreachableNames : Automaton :=
  .ofRows "p,q" ['a', 'b']
    [⟨"p,q", false, [(.symbol 'b', "q"), (.symbol 'a', "p")]⟩, ⟨"p", true, [(.symbol 'a', "p,q")]⟩,
      ⟨"q", false, []⟩, ⟨"r", true, [(.symbol 'b', "p")]⟩]

example : unreachableNames.determinize.stateNames = ["p,q", "p", "q"] ∧
    unreachableNames.reachable.stateNames = ["p,q", "q", "p"] := by decide

theorem determinization_prunes_unreachable : unreachableNames.WellFormed ∧
    unreachableNames.isDeterministic = true ∧
    unreachableNames.determinize ≈ unreachableNames.reachable ∧
    unreachableNames.determinize.determinize ≈ unreachableNames.determinize ∧
    ¬ unreachableNames.determinize ≈ unreachableNames := by
  have ha : unreachableNames.WellFormed := Automaton.wellFormed_ofRows
  have hd : unreachableNames.isDeterministic = true := by decide
  exact ⟨ha, hd, determinization_prunes.1 _ ha hd, determinization_prunes.2.1 _ ha, by decide⟩

end RegularLanguages
