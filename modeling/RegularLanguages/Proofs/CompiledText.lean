import RegularLanguages.Proofs.Pipeline
import RegularLanguages.Proofs.Printability

/-!
# Reading compiled automata back

The automaton of an expression is over the symbols of the expression, and its states have names made
of a letter and a number, joined and numbered. So its text is always a description. It stands for
the automaton, unless the expression has the one symbol that no description may declare.

* `Regex.alphabet_compile` -- the alphabet of the automaton of an expression;
* `Regex.spellable_compile` -- its text is a description;
* `Regex.read_back_compile` -- **reading the text yields the automaton again**, or is refused because
  of the stand-in of epsilon.
-/

namespace RegularLanguages

open Source (IsName)

variable {e : Regex}

namespace Regex

/-! ## 1. Automata of expressions -/

/-- **The alphabet of the automaton of an expression** consists of the symbols of the expression, in
order of first occurrence. -/
theorem alphabet_compile (options : Options) : (e.compile options).alphabet = e.symbols := by
  have hdeterminize : (Automaton.ofRegex e).determinize.alphabet = e.symbols :=
    Automaton.alphabet_determinize.trans (Automaton.alphabet_fromRegex e 0)
  unfold compile
  split
  · rw [Automaton.alphabet_minimize Automaton.wellFormed_determinize, hdeterminize]
  · exact hdeterminize

theorem spellable_fromRegex (n : Nat) : (Automaton.fromRegex e n).1.Spellable where
  wellFormed := Automaton.wellFormed_fromRegex e n
  isName p hp := by
    obtain ⟨k, _, _, rfl⟩ := (Automaton.fragment_fromRegex e n).numbered p hp
    have hs : IsName "s" := ⟨rfl, by decide⟩
    exact hs.counted k

/-- **Its text is a description**, whatever the options. -/
theorem spellable_compile (options : Options) : (e.compile options).Spellable := by
  have hdeterminize : (Automaton.ofRegex e).determinize.Spellable :=
    (spellable_fromRegex 0).determinize
  unfold compile
  split
  · exact hdeterminize.minimize options.strategy
  · exact hdeterminize

theorem parse_render_compile (options : Options) :
    Automaton.Description.parse (e.compile options).render = .ok (e.compile options).description :=
  (spellable_compile options).parse_render_ok

/-! ## 2. Reading the text back -/

/-- A description that declares the stand-in of epsilon is refused for that. -/
theorem ofDescription_compile_eq_error (he : epsilonSymbol ∈ e.symbols) (options : Options) :
    Automaton.ofDescription (e.compile options).description =
      .error (.undeclaredSymbol epsilonSymbol) := by
  have hstart : (e.compile options).start ∈ (e.compile options).stateNames :=
    (wellFormed_compile options).start_mem
  rw [← alphabet_compile options] at he
  exact (if_neg (not_not_intro hstart)).trans (if_pos he)

/-- **The text of the automaton of an expression is always read as a description.** This stands for
the automaton again, up to order, if the stand-in of epsilon is no symbol of the expression; else it
is refused because its alphabet declares the stand-in. -/
theorem read_back_compile (e : Regex) (options : Options) :
    ∃ d, Automaton.Description.parse (e.compile options).render = .ok d ∧
      (epsilonSymbol ∉ e.symbols →
        ∃ a, Automaton.ofDescription d = .ok a ∧ a ≈ e.compile options) ∧
      (epsilonSymbol ∈ e.symbols →
        Automaton.ofDescription d = .error (.undeclaredSymbol epsilonSymbol)) := by
  refine ⟨_, parse_render_compile options, fun he => ?_, fun he =>
    ofDescription_compile_eq_error he options⟩
  rw [← alphabet_compile options] at he
  exact Automaton.ofDescription_description (wellFormed_compile options) he

/-- An expression over symbols that descriptions are made of, and one that is spelled by an escape.
-/
def punctuation : Regex :=
  .concat (.symbol '\n') (.star (.alt (.symbol ';') (.alt (.symbol '\'') (.symbol '#'))))

theorem read_back_compile_punctuation : epsilonSymbol ∉ punctuation.symbols ∧
    ∃ d a, Automaton.Description.parse (punctuation.compile ⟨.reversal, true, true⟩).render = .ok d ∧
      Automaton.ofDescription d = .ok a ∧ a ≈ punctuation.compile ⟨.reversal, true, true⟩ := by
  have he : epsilonSymbol ∉ punctuation.symbols := by
    rw [mem_symbols]
    decide
  obtain ⟨d, hd, h, _⟩ := read_back_compile punctuation ⟨.reversal, true, true⟩
  obtain ⟨a, ha, hequiv⟩ := h he
  exact ⟨he, d, a, hd, ha, hequiv⟩

/-- The automaton of the stand-in of epsilon is not read back. -/
theorem not_read_back_compile :
    ¬ ∃ d a, Automaton.Description.parse ((symbol epsilonSymbol).compile {}).render = .ok d ∧
      Automaton.ofDescription d = .ok a ∧ a ≈ (symbol epsilonSymbol).compile {} := by
  rintro ⟨d, a, hd, ha, -⟩
  cases hd.symm.trans (parse_render_compile (e := symbol epsilonSymbol) {})
  have he : epsilonSymbol ∈ (symbol epsilonSymbol).symbols := mem_symbols.2 List.mem_cons_self
  cases ha.symm.trans (ofDescription_compile_eq_error he {})

end Regex

end RegularLanguages
