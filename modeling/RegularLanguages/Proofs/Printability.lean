import RegularLanguages.Files
import RegularLanguages.Pipeline
import RegularLanguages.Proofs.Automaton.Printing
import RegularLanguages.Proofs.Automaton.StateNames

/-!
# Which automata can be printed

An automaton that was loaded can be printed, and so can those that are made from it: their alphabet
is the same, and the names of their states are old ones, joined or numbered ones, or made of a
letter and a number.

* `printable_of_parse` -- an automaton whose description was read;
* `keptByNaming_isName` -- **names made from names that can be written can be written**;
* `Spellable.determinize`, `Spellable.minimize` -- so the automata made from it have such names;
* `alphabet_determinize`, `alphabet_minimize` -- their alphabets;
* `Printable.determinize`, `Printable.minimize` -- **automata made from it can be printed**;
* `load_render` -- **a printed automaton can be loaded**, and is the same up to order.
-/

namespace RegularLanguages.Automaton

open Source (IsName)

variable {a b : Automaton} {d : Description}

/-! ## 1. Automata that were read -/

/-- An automaton whose description was read can be printed. -/
theorem printable_of_parse {text : String} (hd : Description.parse text = .ok d)
    (ha : ofDescription d = .ok a) : a.Printable := by
  obtain ⟨located, hread, hd⟩ := bind_eq_ok_iff.1 hd
  obtain ⟨hvalid, rfl⟩ := ofDescription_eq_ok_iff.1 ha
  refine ⟨wellFormed_build, ?_, fun n hn => ?_⟩
  · rw [alphabet_build hvalid, OrderedSet.mem_ofList]
    exact hvalid.epsilon_not_mem
  · obtain ⟨hne, hmem⟩ := Source.AutomatonText.state_read hd ((mem_states_build hvalid).1 hn)
    obtain ⟨t, ht, e⟩ := List.mem_map.1 hmem
    exact ⟨e ▸ Source.isWritable_of_mem_tokenize hread t ht, hne⟩

/-! ## 2. Automata that are made -/

/-- **Joined, numbered and counted names can be written**, if they are made from such names. -/
theorem keptByNaming_isName : KeptByNaming IsName where
  joined _ hne h := IsName.joined h hne
  numbered _ hn i := hn.numbered i
  counted i := by
    have hd : IsName "d" := ⟨rfl, by decide⟩
    exact hd.counted i

theorem Spellable.determinize (ha : a.Spellable) : a.determinize.Spellable :=
  ⟨wellFormed_determinize, keptByNaming_isName.determinize ha.wellFormed ha.isName⟩

/-- Either strategy takes states over or numbers them. -/
theorem Spellable.minimize (ha : a.Spellable) (strategy : Strategy) :
    (a.minimize strategy).Spellable := by
  cases strategy with
  | partition =>
    exact ⟨wellFormed_partitionRefinement, fun n hn =>
      ha.isName n (mem_states_of_mem_partitionRefinement ha.wellFormed hn)⟩
  | reversal => exact ⟨wellFormed_doubleReversal, keptByNaming_isName.doubleReversal⟩

/-! ## 3. Alphabets -/

theorem alphabet_determinize : a.determinize.alphabet = a.alphabet := alphabet_subsetAutomaton

theorem alphabet_quotient {classes : List (List StateName)} (ha : a.WellFormed) :
    (a.quotient classes).alphabet = a.alphabet := by
  rw [quotient_eq, alphabet_selection ha]

theorem alphabet_partitionRefinement (ha : a.WellFormed) :
    a.partitionRefinement.alphabet = a.alphabet := by
  rw [partitionRefinement, alphabet_quotient wellFormed_reachable, alphabet_reachable ha]

theorem alphabet_doubleReversal (ha : a.WellFormed) : a.doubleReversal.alphabet = a.alphabet := by
  rw [doubleReversal, alphabet_reverseDeterminized wellFormed_reverseDeterminized,
    alphabet_reverseDeterminized ha]

/-- **Either strategy keeps the alphabet.** -/
theorem alphabet_minimize (ha : a.WellFormed) (strategy : Strategy) :
    (a.minimize strategy).alphabet = a.alphabet := by
  cases strategy with
  | partition => exact alphabet_partitionRefinement ha
  | reversal => exact alphabet_doubleReversal ha

theorem Printable.of_alphabet (ha : a.Printable) (hb : b.Spellable)
    (h : b.alphabet = a.alphabet) : b.Printable :=
  ⟨hb.wellFormed, h ▸ ha.epsilon_not_mem, hb.isName⟩

/-- **The deterministic automaton can be printed.** -/
theorem Printable.determinize (ha : a.Printable) : a.determinize.Printable :=
  ha.of_alphabet ha.spellable.determinize alphabet_determinize

/-- **The minimized automaton can be printed**, whatever the strategy. -/
theorem Printable.minimize (ha : a.Printable) (strategy : Strategy) :
    (a.minimize strategy).Printable :=
  ha.of_alphabet (ha.spellable.minimize strategy) (alphabet_minimize ha.wellFormed strategy)

/-! ## 4. Files -/

/-- The text in a file that was written as UTF-8. -/
theorem readText_toUTF8 (text : String) : readText (some text.toUTF8) = .ok text := by
  have hread : String.fromUTF8? text.toUTF8 = some text := dif_pos text.isValidUTF8
  rw [readText, hread]

/-- An automaton was loaded if a text was read and describes it. -/
theorem load_eq_ok_iff {content : FileContent} : load content = .ok a ↔
    ∃ text d, readText content = .ok text ∧ Description.parse text = .ok d ∧
      ofDescription d = .ok a := by
  rw [load, bind_eq_ok_iff]
  refine exists_congr fun text => ?_
  rw [bind_eq_ok_iff, ← exists_and_left]
  simp only [mapError_eq_ok_iff]

theorem printable_of_load {content : FileContent} (h : load content = .ok a) : a.Printable := by
  obtain ⟨text, d, _, hd, ha⟩ := load_eq_ok_iff.1 h
  exact printable_of_parse hd ha

/-- **A printed automaton can be loaded**, with a line feed behind it or not. -/
theorem load_render (ha : a.Printable) :
    ∃ b, load (some (a.render ++ "\n").toUTF8) = .ok b ∧ b ≈ a := by
  obtain ⟨b, hb, hba⟩ := ofDescription_description ha.wellFormed ha.epsilon_not_mem
  have hclosed : Source.Closes "\n".toList := Source.closes_cons rfl
  have hparse := parse_render_append ha hclosed (Source.yields_nil.blank rfl)
  exact ⟨b, load_eq_ok_iff.2 ⟨_, _, readText_toUTF8 _, hparse, hb⟩, hba⟩

end RegularLanguages.Automaton
