import RegularLanguages.Proofs.Alphabets
import RegularLanguages.Proofs.CommandLine.Verdicts
import RegularLanguages.Proofs.Source.RegexText

/-!
# Printed expressions

The program prints an expression for the language of the automaton in a file, with a line end behind
it. What is printed can be read again as an expression for the words that `check` accepts, with one
exception: if it ends with the symbol carriage return, this is taken for a part of the line's end.

* `alphabet_loadDeterministic` -- what is loaded keeps the alphabet of the description;
* `printed_expression_exact` -- **what is printed is read back as an expression for the verdicts**,
  unless it ends with a carriage return and a line feed.
-/

namespace RegularLanguages

variable {files : String → FileContent} {file : String} {a : Automaton}

/-- What is loaded keeps the alphabet of the description. -/
theorem alphabet_loadDeterministic {content : FileContent} {b : Automaton}
    (h : Automaton.load content = .ok a) (hb : Command.loadDeterministic content = .ok b) :
    b.alphabet = a.alphabet := by
  obtain ⟨a', ha', hpure⟩ := bind_eq_ok_iff.1 hb
  cases h.symm.trans ha'
  cases hpure
  split
  · rfl
  · exact Automaton.alphabet_determinize

/-- **What is printed is an expression for the verdicts.** Checking words against a file with a
description prints which of them the automaton described recognizes. The expression of the file,
simplified or not, is printed with a line end behind it. If this text does not end with a carriage
return and a line feed, it is read as an expression that matches the same words. If it does, the
carriage return is a symbol that is lost, and the text is refused because of the lone quote before
it. It does not unless the alphabet has a carriage return. -/
theorem printed_expression_exact (hfile : file ≠ "") (h : Automaton.load (files file) = .ok a)
    (simplify : Bool) : Verdicts files file a.Recognizes ∧
      ∃ text, Prints files (.toRegex file simplify) text ∧
        (¬ "\r\n".toList <:+ text.toList →
          ∃ e, Regex.parse text = .ok e ∧ ∀ w, e.accepts w = true ↔ a.Recognizes w) ∧
        ("\r\n".toList <:+ text.toList →
          Regex.parse text = .error (.unexpected 1 .loneQuote .symbolAfterQuote)) ∧
        ('\r' ∉ a.alphabet → ¬ "\r\n".toList <:+ text.toList) := by
  refine ⟨verdicts_of_load hfile h, ?_⟩
  obtain ⟨b, hb, hprintable, hdet, haccepts⟩ := loadDeterministic_spec h
  let e := b.decompile { simplify := simplify }
  have hrun : Command.run files (.toRegex file simplify) = .ok (e.render ++ "\n") :=
    bind_eq_ok_iff.2 ⟨b, hb, rfl⟩
  refine ⟨_, prints_of_run (exists_parse?_toRegex hfile simplify) hrun, fun hline => ?_,
    fun hline => ?_, fun hreturn hline => ?_⟩
  all_goals rw [Regex.return_suffix_iff] at hline
  · refine ⟨e, (Regex.parse_render_line e).trans (if_neg hline), fun w => ?_⟩
    rw [Automaton.accepts_decompile_iff hprintable.wellFormed hdet.epsilonFree,
      ← Automaton.accepts_iff_recognizes hdet, haccepts]
  · exact (Regex.parse_render_line e).trans (if_pos hline)
  · have hsymbol := b.leaves_decompile_subset _ (Regex.mem_leaves_of_getLast? hline)
    rw [alphabet_loadDeterministic h hb] at hsymbol
    exact hreturn hsymbol

/-- A description whose symbols are a space and the sign that begins comments. -/
def blankText : String :=
  "dfa states p q end initial p accept q end transitions p '  --> p p '# --> q end alphabet '  '# end"

/-- The automaton that it describes. -/
def blankSymbols : Automaton :=
  .ofRows "p" [' ', '#'] [⟨"p", false, [(.symbol ' ', "p"), (.symbol '#', "q")]⟩, ⟨"q", true, []⟩]

theorem printed_expression_exact_blankSymbols :
    Automaton.load (some blankText.toUTF8) = .ok blankSymbols ∧
      ∃ text e, Prints (fun _ => some blankText.toUTF8) (.toRegex "a" false) text ∧
        Regex.parse text = .ok e ∧ ∀ w, e.accepts w = true ↔ blankSymbols.Recognizes w := by
  have hparse : Automaton.Description.parse blankText =
      .ok ⟨["p", "q"], "p", ["q"], [("p", [' '], "p"), ("p", ['#'], "q")], [' ', '#']⟩ := by
    decide +kernel
  have hload : Automaton.load (some blankText.toUTF8) = .ok blankSymbols :=
    Automaton.load_eq_ok_iff.2 ⟨_, _, Automaton.readText_toUTF8 _, hparse, by decide +kernel⟩
  obtain ⟨_, text, hprints, hread, _, hline⟩ := @printed_expression_exact
    (fun _ => some blankText.toUTF8) "a" blankSymbols (by decide) hload false
  obtain ⟨e, he, haccepts⟩ := hread (hline (by decide))
  exact ⟨hload, text, e, hprints, he, haccepts⟩

/-- A description whose only symbol is a carriage return. -/
def returnText : String :=
  "dfa states p q end initial p accept q end transitions p '\r --> q end alphabet '\r end"

def returnSymbol : Automaton :=
  .ofRows "p" ['\r'] [⟨"p", false, [(.symbol '\r', "q")]⟩, ⟨"q", true, []⟩]

/-- Its expression is that symbol alone, and what is printed is not read back. -/
theorem not_parse_printed_returnSymbol :
    Automaton.load (some returnText.toUTF8) = .ok returnSymbol ∧
      Prints (fun _ => some returnText.toUTF8) (.toRegex "a" true) "'\r\n" ∧
        Regex.parse "'\r\n" = .error (.unexpected 1 .loneQuote .symbolAfterQuote) := by
  have hparse : Automaton.Description.parse returnText =
      .ok ⟨["p", "q"], "p", ["q"], [("p", ['\r'], "q")], ['\r']⟩ := by decide +kernel
  have hload : Automaton.load (some returnText.toUTF8) = .ok returnSymbol :=
    Automaton.load_eq_ok_iff.2 ⟨_, _, Automaton.readText_toUTF8 _, hparse, by decide +kernel⟩
  have hdet : returnSymbol.isDeterministic = true := by decide
  have hrender : (returnSymbol.decompile {}).render = "'\r" := by decide +kernel
  have hrun : Command.run (fun _ => some returnText.toUTF8) (.toRegex "a" true) =
      .ok "'\r\n" := by
    refine bind_eq_ok_iff.2 ⟨returnSymbol, bind_eq_ok_iff.2 ⟨returnSymbol, hload, ?_⟩, ?_⟩
    · rw [if_pos hdet]
      rfl
    · rw [hrender]
      rfl
  exact ⟨hload, prints_of_run (exists_parse?_toRegex (by decide) true) hrun, by decide +kernel⟩

end RegularLanguages
