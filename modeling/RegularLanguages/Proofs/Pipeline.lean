import RegularLanguages.Pipeline
import RegularLanguages.Proofs.Automaton.LinearSystem
import RegularLanguages.Proofs.Automaton.Thompson
import RegularLanguages.Proofs.Minimization.DoubleReversal
import RegularLanguages.Proofs.Minimization.Quotient

/-!
# Translations are exact

* `deterministic_minimize`, `accepts_minimize_iff` -- both strategies of minimization keep what a
  deterministic automaton accepts;
* `compile_exact` -- **the automaton of an expression is deterministic and accepts the words that
  the matcher accepts**, whatever the options;
* `decompile_exact` -- **the expression of an automaton without epsilon moves matches the words that
  the automaton recognizes**, whatever the options.
-/

namespace RegularLanguages

variable {a : Automaton} {e : Regex} {w : Word}

/-! ## 1. Minimization -/

namespace Automaton

theorem wellFormed_minimize (s : Strategy) : (a.minimize s).WellFormed := by
  cases s with
  | partition => exact wellFormed_partitionRefinement
  | reversal => exact wellFormed_doubleReversal

theorem deterministic_minimize (ha : a.WellFormed) (hd : a.Deterministic) (s : Strategy) :
    (a.minimize s).Deterministic := by
  cases s with
  | partition => exact deterministic_partitionRefinement ha hd
  | reversal => exact deterministic_doubleReversal

/-- **Either strategy keeps what is accepted.** -/
theorem accepts_minimize_iff (ha : a.WellFormed) (hd : a.Deterministic) (s : Strategy) :
    (a.minimize s).accepts w = true ↔ a.Recognizes w := by
  cases s with
  | partition => exact accepts_partitionRefinement_iff ha hd
  | reversal => exact accepts_doubleReversal_iff ha

end Automaton

/-! ## 2. From expressions to automata -/

namespace Regex

theorem wellFormed_compile (options : Options) : (e.compile options).WellFormed := by
  unfold compile
  split
  · exact Automaton.wellFormed_minimize options.strategy
  · exact Automaton.wellFormed_determinize

theorem deterministic_compile (options : Options) : (e.compile options).Deterministic := by
  have hd : (Automaton.ofRegex e).determinize.Deterministic :=
    Automaton.deterministic_determinize (Automaton.wellFormed_fromRegex e 0)
  unfold compile
  split
  · exact Automaton.deterministic_minimize Automaton.wellFormed_determinize hd options.strategy
  · exact hd

theorem accepts_compile_iff (options : Options) :
    (e.compile options).accepts w = true ↔ w ∈ e.language := by
  have ha : (Automaton.ofRegex e).WellFormed := Automaton.wellFormed_fromRegex e 0
  have hd : (Automaton.ofRegex e).determinize.Deterministic :=
    Automaton.deterministic_determinize ha
  have hlanguage : (Automaton.ofRegex e).Recognizes w ↔ w ∈ e.language :=
    Automaton.recognizes_fromRegex_iff e 0
  rw [← hlanguage, compile]
  split
  · rw [Automaton.accepts_minimize_iff Automaton.wellFormed_determinize hd,
      Automaton.recognizes_determinize_iff ha]
  · exact Automaton.accepts_determinize_iff ha

/-- **Compilation is exact**: whatever the options, the automaton of an expression is deterministic
and accepts the words that the matcher accepts. -/
theorem compile_exact (e : Regex) (options : Options) :
    (e.compile options).isDeterministic = true ∧
      ∀ w, (e.compile options).accepts w = e.accepts w := by
  refine ⟨?_, fun w => ?_⟩
  · exact (Automaton.isDeterministic_iff (wellFormed_compile options)).2
      (deterministic_compile options)
  · rw [Bool.eq_iff_iff, accepts_compile_iff, accepts_iff]

end Regex

/-! ## 3. From automata to expressions -/

namespace Automaton

theorem language_decompile (ha : a.WellFormed) (he : a.EpsilonFree) (options : Options) :
    (a.decompile options).language = a.languageFrom a.start := by
  unfold decompile
  split
  · rw [toRegex, Regex.language_simplify, language_toRegexRaw ha he]
  · exact language_toRegexRaw ha he

theorem accepts_decompile_iff (ha : a.WellFormed) (he : a.EpsilonFree) (options : Options) :
    (a.decompile options).accepts w = true ↔ a.Recognizes w := by
  rw [Regex.accepts_iff, language_decompile ha he]
  exact Iff.rfl

/-- **Decompilation is exact**: whatever the options, the expression of an automaton without
epsilon moves matches the words that the automaton recognizes, which are those that it accepts if
it is deterministic. -/
theorem decompile_exact (ha : a.WellFormed) (options : Options) :
    (a.EpsilonFree → ∀ w, (a.decompile options).accepts w = true ↔ a.Recognizes w) ∧
      (a.isDeterministic = true → ∀ w, (a.decompile options).accepts w = a.accepts w) := by
  refine ⟨fun he w => accepts_decompile_iff ha he options, fun hd w => ?_⟩
  have hdet := (isDeterministic_iff ha).1 hd
  rw [Bool.eq_iff_iff, accepts_decompile_iff ha hdet.epsilonFree, accepts_iff_recognizes hdet]

/-- An automaton whose first state has two targets on its only symbol. -/
def forked : Automaton :=
  ofRows "p" ['x'] [⟨"p", false, [(.symbol 'x', "p"), (.symbol 'x', "q")]⟩, ⟨"q", true, []⟩]

theorem decompile_exact_forked : forked.WellFormed ∧ forked.EpsilonFree ∧
    (forked.decompile {}).accepts ['x', 'x'] = true ∧
      forked.determinize.isDeterministic = true ∧
        (forked.determinize.decompile {}).accepts ['x'] = forked.determinize.accepts ['x'] := by
  have ha : forked.WellFormed := wellFormed_ofRows
  have he : forked.EpsilonFree := fun p => by
    refine List.eq_nil_iff_forall_not_mem.2 fun q hq => ?_
    simp [forked, mem_successors_ofRows] at hq
  have hword : forked.Recognizes ['x', 'x'] :=
    ⟨"q", .symbol (by decide : "p" ∈ forked.successors "p" (.symbol 'x'))
      (.single (by decide)), by decide⟩
  have hd : forked.determinize.isDeterministic = true :=
    (isDeterministic_iff wellFormed_determinize).2 (deterministic_determinize ha)
  exact ⟨ha, he, ((decompile_exact ha {}).1 he ['x', 'x']).2 hword, hd,
    (decompile_exact wellFormed_determinize {}).2 hd ['x']⟩

end Automaton

end RegularLanguages
