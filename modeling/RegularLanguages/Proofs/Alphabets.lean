import RegularLanguages.Proofs.CompiledText
import RegularLanguages.Proofs.Automaton.Elimination
import RegularLanguages.Proofs.History
import RegularLanguages.Proofs.Regex.Symbols

/-!
# Alphabets

An alphabet is carried along: the automaton of an expression is over the symbols of the expression,
the constructions that make an automaton from an automaton keep its alphabet in its order, and the
expression of an automaton uses no other symbols.

* `alphabet_applyTransformation`, `alphabet_derive` -- constructions keep the alphabet;
* `leaves_decompile_subset` -- **the expression of an automaton keeps to its alphabet**;
* `alphabets_carried` -- **the alphabets of expressions and automata are carried along unchanged**.
-/

namespace RegularLanguages

namespace Automaton

variable {a : Automaton}

/-! ## 1. Constructions -/

/-- **Every construction keeps the alphabet**, with its order. -/
theorem alphabet_applyTransformation (ha : a.WellFormed) (t : Transformation) :
    (t.apply a).alphabet = a.alphabet := by
  cases t with
  | determinize => exact alphabet_determinize
  | reachable => exact alphabet_reachable ha
  | reverse => exact alphabet_reverse ha
  | determinizeFromEntry => exact alphabet_subsetAutomaton
  | partitionRefinement => exact alphabet_partitionRefinement ha
  | doubleReversal => exact alphabet_doubleReversal ha

theorem alphabet_derive (ha : a.WellFormed) (ts : List Transformation) :
    (a.derive ts).alphabet = a.alphabet := by
  induction ts using List.reverseRecOn with
  | nil => rfl
  | append_singleton ts t ih =>
    rw [derive_concat, alphabet_applyTransformation (ha.derive ts), ih]

/-! ## 2. From automata to expressions -/

/-- **The expression of an automaton keeps to the alphabet of the automaton.** -/
theorem leaves_decompile_subset (a : Automaton) (options : Options) :
    (a.decompile options).leaves ⊆ a.alphabet.toList := by
  unfold decompile
  split
  · exact List.Subset.trans (Regex.leaves_simplify_subset a.toRegexRaw) a.leaves_toRegexRaw_subset
  · exact a.leaves_toRegexRaw_subset

/-! ## 3. All alphabets -/

/-- **Alphabets are carried along unchanged.** Whatever the options, the alphabet of the automaton of
an expression is the sequence of the symbols of the expression: its leaves from left to right, first
occurrences only. Every construction that makes an automaton from a well-formed one leaves the
alphabet as it is, whether all of its symbols are still read or not. -/
theorem alphabets_carried :
    (∀ (e : Regex) (options : Options), (e.compile options).alphabet = e.symbols ∧
      e.symbols.toList = e.leaves.eraseDups) ∧
      ∀ a : Automaton, a.WellFormed → ∀ t : Transformation, (t.apply a).alphabet = a.alphabet :=
  ⟨fun e options => ⟨Regex.alphabet_compile options, Regex.toList_symbols e⟩,
    fun _ ha t => alphabet_applyTransformation ha t⟩

/-- An automaton with a symbol that only an unreachable state reads, and one that none reads. -/
def idleSymbols : Automaton :=
  ofRows "p" ['c', 'b', 'a'] [⟨"p", true, [(.symbol 'a', "p")]⟩, ⟨"q", false, [(.symbol 'b', "p")]⟩]

theorem alphabets_carried_idleSymbols : idleSymbols.WellFormed ∧
    idleSymbols.doubleReversal.alphabet.toList = ['c', 'b', 'a'] ∧
      idleSymbols.doubleReversal.transitionCount = 1 := by
  have ha : idleSymbols.WellFormed := wellFormed_ofRows
  have hkeep := alphabets_carried.2 idleSymbols ha .doubleReversal
  have hsymbols : idleSymbols.alphabet.toList = ['c', 'b', 'a'] := by decide
  exact ⟨ha, (congrArg OrderedSet.toList hkeep).trans hsymbols, by decide +kernel⟩

end Automaton

end RegularLanguages
