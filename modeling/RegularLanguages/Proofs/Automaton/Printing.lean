import RegularLanguages.Automaton.Description
import RegularLanguages.Proofs.Automaton.Equivalence
import RegularLanguages.Proofs.Automaton.Violations
import RegularLanguages.Proofs.Source.AutomatonText
import RegularLanguages.Proofs.Source.Names
import RegularLanguages.Proofs.Source.Tokenization

/-!
# Printed automata are read back

* `Automaton.description` -- the description that an automaton is printed as;
* `Spellable` -- a well-formed automaton with names that can be written;
* `Printable` -- one without the symbol that stands for epsilon;
* `yields_render` -- the printed text yields the tokens of that description;
* `ofDescription_description` -- that description stands for the automaton itself, up to order;
* `render_read_back` -- **reading undoes printing**.
-/

namespace RegularLanguages

open Source (Token Yields Writes)

/-! ## 1. The description of an automaton -/

/-- The moves of a state as a description lists them, gathered by target. -/
def State.transitionList (s : State) : List (StateName × List Symbol × StateName) :=
  s.labelsByTarget.map fun e => (s.name, e.2.map Label.described, e.1)

/-- A target is listed with the labels that lead to it. -/
theorem State.mem_labelsByTarget_iff {s : State} {t : StateName} {l : Label} :
    (∃ ls, (t, ls) ∈ s.labelsByTarget ∧ l ∈ ls) ↔ t ∈ s.targets l := by
  rw [← State.mem_edges_iff,
    ← (flatMap_groupBy_perm (Prod.snd : Label × StateName → StateName) s.edges).mem_iff,
    List.mem_flatMap]
  constructor
  · rintro ⟨ls, hls, hl⟩
    obtain ⟨⟨u, g⟩, hg, e⟩ := List.mem_map.1 hls
    cases e
    obtain ⟨⟨m, v⟩, hv, rfl⟩ := List.mem_map.1 hl
    obtain ⟨_, rfl⟩ := mem_keys_groupBy hg
    have hkey : v = u := by simpa using (List.mem_filter.1 hv).2
    exact ⟨_, hg, hkey ▸ hv⟩
  · rintro ⟨⟨u, g⟩, hg, hmem⟩
    obtain ⟨_, rfl⟩ := mem_keys_groupBy hg
    have hkey : t = u := by simpa using (List.mem_filter.1 hmem).2
    exact ⟨_, List.mem_map.2 ⟨_, hg, Prod.ext hkey.symm rfl⟩, List.mem_map.2 ⟨_, hmem, rfl⟩⟩

theorem State.labels_ne_nil {s : State} {t : StateName} {ls : List Label}
    (h : (t, ls) ∈ s.labelsByTarget) : ls ≠ [] := by
  obtain ⟨⟨u, g⟩, hg, e⟩ := List.mem_map.1 h
  cases e
  exact fun hnil => ne_nil_of_mem_groupBy hg (List.map_eq_nil_iff.1 hnil)

namespace Automaton

variable {a b : Automaton} {n p q t : StateName} {l : Label} {c : Symbol}

/-- The description that an automaton is printed as. -/
def description (a : Automaton) : Description where
  states := a.stateNames
  start := a.start
  accepting := a.accepting.toList
  transitions := a.states.values.flatMap State.transitionList
  alphabet := a.alphabet.toList

/-- Whether the text of an automaton is a description. -/
structure Spellable (a : Automaton) : Prop where
  /-- The parts fit together. -/
  wellFormed : a.WellFormed
  /-- The states have names that can be written. -/
  isName : ∀ n ∈ a.states, Source.IsName n

/-- Whether an automaton can be written down, so that its description stands for it. -/
structure Printable (a : Automaton) : Prop where
  /-- The parts fit together. -/
  wellFormed : a.WellFormed
  /-- The stand-in of epsilon is no symbol. -/
  epsilon_not_mem : epsilonSymbol ∉ a.alphabet
  /-- The states have names that can be written. -/
  isName : ∀ n ∈ a.states, Source.IsName n

theorem Printable.spellable (ha : a.Printable) : a.Spellable := ⟨ha.wellFormed, ha.isName⟩

theorem mem_transitions_description (ha : a.WellFormed)
    {tr : StateName × List Symbol × StateName} (h : tr ∈ a.description.transitions) :
    tr.1 ∈ a.states ∧ tr.2.1 ≠ [] ∧ tr.2.2 ∈ a.states := by
  obtain ⟨s, hs, htr⟩ := List.mem_flatMap.1 h
  obtain ⟨⟨t, ls⟩, he, rfl⟩ := List.mem_map.1 htr
  obtain ⟨m, hm⟩ := List.exists_mem_of_ne_nil ls (State.labels_ne_nil he)
  have hstate := ha.mem_values_iff.1 hs
  have hmove : t ∈ a.successors s.name m := by
    rw [successors_of_state? hstate]
    exact State.mem_labelsByTarget_iff.1 ⟨ls, he, hm⟩
  exact ⟨mem_states_of_mem_successors hmove, mt List.map_eq_nil_iff.1 (State.labels_ne_nil he),
    ha.mem_of_mem_successors hmove⟩

/-- The single transitions of the description are the moves. -/
theorem mem_singleTransitions_description (ha : a.WellFormed) :
    (p, c, q) ∈ a.description.singleTransitions ↔ ∃ l, q ∈ a.successors p l ∧ c = l.described := by
  simp only [Description.singleTransitions, List.mem_flatMap, description]
  constructor
  · rintro ⟨tr, ⟨s, hs, htr⟩, hc⟩
    obtain ⟨⟨t, ls⟩, he, rfl⟩ := List.mem_map.1 htr
    obtain ⟨d, hd, e⟩ := List.mem_map.1 hc
    cases e
    obtain ⟨l, hl, rfl⟩ := List.mem_map.1 hd
    refine ⟨l, ?_, rfl⟩
    rw [successors_of_state? (ha.mem_values_iff.1 hs)]
    exact State.mem_labelsByTarget_iff.1 ⟨ls, he, hl⟩
  · rintro ⟨l, hq, rfl⟩
    obtain ⟨s, hs, rfl⟩ := ha.exists_state (mem_states_of_mem_successors hq)
    rw [successors_of_state? hs] at hq
    obtain ⟨ls, he, hl⟩ := State.mem_labelsByTarget_iff.2 hq
    exact ⟨_, ⟨s, ha.mem_values_iff.2 hs, List.mem_map.2 ⟨_, he, rfl⟩⟩,
      List.mem_map.2 ⟨_, List.mem_map.2 ⟨l, hl, rfl⟩, rfl⟩⟩

theorem valid_description (ha : a.WellFormed) (he : epsilonSymbol ∉ a.alphabet) :
    a.description.Valid where
  start_mem := ha.start_mem
  epsilon_not_mem := he
  accepting_mem _ hn := mem_states_of_isAccepting ((ha.mem_accepting_iff _).1 hn)
  declares t ht := by
    obtain ⟨l, hq, hc⟩ := (mem_singleTransitions_description ha).1 ht
    refine ⟨?_, mem_states_of_mem_successors hq, ha.mem_of_mem_successors hq⟩
    cases l with
    | epsilon => exact Or.inl hc
    | symbol x => exact Or.inr (hc ▸ ha.mem_alphabet hq)

/-- **The description of an automaton stands for the automaton itself**, up to order. -/
theorem ofDescription_description (ha : a.WellFormed) (he : epsilonSymbol ∉ a.alphabet) :
    ∃ b, ofDescription a.description = .ok b ∧ b ≈ a := by
  have hvalid := valid_description ha he
  refine ⟨_, ofDescription_eq_ok_iff.2 ⟨hvalid, rfl⟩, ?_⟩
  refine equiv_of_views wellFormed_build ha start_build (fun c => ?_) (fun n => ?_) (fun n => ?_)
    fun n l t => ?_
  · rw [alphabet_build hvalid, OrderedSet.mem_ofList]
    exact Iff.rfl
  · exact mem_states_build hvalid
  · rw [Bool.eq_iff_iff, isAccepting_build]
    exact ha.mem_accepting_iff n
  · rw [mem_successors_build]
    constructor
    · rintro ⟨c, hc, rfl⟩
      obtain ⟨l, ht, rfl⟩ := (mem_singleTransitions_description ha).1 hc
      rwa [Label.ofDescribed_described fun e => he (ha.mem_alphabet (e ▸ ht))]
    · intro ht
      refine ⟨l.described, (mem_singleTransitions_description ha).2 ⟨l, ht, rfl⟩, ?_⟩
      exact (Label.ofDescribed_described fun e => he (ha.mem_alphabet (e ▸ ht))).symm

/-! ## 2. The tokens of the text -/

/-- A list of spellings with spaces between them, and one behind, is read as these tokens. -/
theorem writes_spaced {t : Token} {ts : List Token} (ht : t.IsWritable)
    (hts : ∀ u ∈ ts, u.IsWritable) :
    Writes (t.spelling ++ spaced (ts.map Token.spelling) ++ " ") (t :: ts) := by
  induction ts generalizing t with
  | nil =>
    have hnone : t.spelling ++ spaced [] = t.spelling := String.append_empty
    rw [List.map_nil, hnone]
    exact Source.writes_token ht
  | cons u ts ih =>
    have hspaced : t.spelling ++ spaced ((u :: ts).map Token.spelling) ++ " " =
        t.spelling ++ " " ++ (u.spelling ++ spaced (ts.map Token.spelling) ++ " ") := by
      simp only [spaced, List.map_cons, String.join_cons, String.append_assoc]
    rw [hspaced]
    exact (Source.writes_token ht).append
      (ih (hts u List.mem_cons_self) fun v hv => hts v (List.mem_cons_of_mem u hv))

theorem spelling_eq_symbol (l : Label) : l.spelling = (Token.symbol l.described).spelling := by
  cases l <;> rfl

theorem isWritable_symbols (cs : List Symbol) : ∀ u ∈ cs.map Token.symbol, u.IsWritable := by
  intro u hu
  obtain ⟨c, _, rfl⟩ := List.mem_map.1 hu
  trivial

/-- The tokens of a section that lists names. -/
theorem writes_names {w : String} {ns : List StateName} (hw : (Token.word w).IsWritable)
    (hns : ∀ n ∈ ns, Source.IsName n) : Writes (w ++ spaced ns ++ " end;\n")
      (.word w :: ns.map Token.word ++ [.word "end", .semicolon]) := by
  have hwords : ∀ u ∈ ns.map Token.word, u.IsWritable := fun u hu => by
    obtain ⟨n, hn, rfl⟩ := List.mem_map.1 hu
    exact (hns n hn).isWritable
  have hspell : (ns.map Token.word).map Token.spelling = ns := by
    rw [List.map_map]
    exact List.map_id ns
  have hspaced := writes_spaced (t := .word w) hw hwords
  have hend : " end;\n" = " " ++ "end;\n" := rfl
  rw [hspell] at hspaced
  rw [hend, ← String.append_assoc]
  exact hspaced.append Source.writes_endOfSection

/-- The tokens of the section that lists symbols, which comes last. -/
theorem yields_symbols (cs : List Symbol) {s : List Char} (hs : Source.Closes s)
    (h : Yields s []) :
    Yields (("alphabet" ++ spaced (cs.map Symbol.spelling) ++ " end;").toList ++ s)
      (.word "alphabet" :: cs.map Token.symbol ++ [.word "end", .semicolon]) := by
  have hspell : cs.map Symbol.spelling = (cs.map Token.symbol).map Token.spelling := by
    rw [List.map_map]
    rfl
  have hend : " end;" = " " ++ "end;" := rfl
  rw [hspell, hend, ← String.append_assoc, String.toList_append, List.append_assoc]
  exact writes_spaced (t := .word "alphabet") rfl (isWritable_symbols cs) _ _ (h.endOfSection hs)

/-- The tokens of the line of one transition. -/
theorem writes_renderTransition {labels : List Label} (hp : (Token.word p).IsWritable)
    (hq : (Token.word q).IsWritable) : Writes (renderTransition p q labels)
      (Source.transitionTokens (p, labels.map Label.described, q)) := by
  have hindent : Writes "  " [] := fun _ _ h => (h.blank rfl).blank rfl
  have hlabels : labels.map Label.spelling =
      ((labels.map Label.described).map Token.symbol).map Token.spelling := by
    rw [List.map_map, List.map_map]
    exact List.map_congr_left fun l _ => spelling_eq_symbol l
  have hspace : " --> " = " " ++ (Token.arrow.spelling ++ " ") := rfl
  have htext : renderTransition p q labels =
      "  " ++ ((p ++ spaced (labels.map Label.spelling) ++ " ") ++
        ((Token.arrow.spelling ++ " ") ++ (q ++ "\n"))) := by
    simp only [renderTransition, hspace, String.append_assoc]
  rw [htext, hlabels]
  have hsource := writes_spaced (t := .word p) hp (isWritable_symbols (labels.map Label.described))
  have harrow := Source.writes_token (t := .arrow) trivial
  exact hindent.append (hsource.append (harrow.append (Source.writes_line hq)))

theorem writes_renderState {s : State} (hs : s ∈ a.states.values) (ha : a.Spellable) :
    Writes (renderState s) (s.transitionList.flatMap Source.transitionTokens) := by
  rw [State.transitionList, List.flatMap_map]
  refine Source.writes_join fun e he => ?_
  have htr : (s.name, e.2.map Label.described, e.1) ∈ a.description.transitions :=
    List.mem_flatMap.2 ⟨s, hs, List.mem_map.2 ⟨e, he, rfl⟩⟩
  obtain ⟨hsource, _, htarget⟩ := mem_transitions_description ha.wellFormed htr
  exact writes_renderTransition (ha.isName _ hsource).isWritable (ha.isName _ htarget).isWritable

/-- The tokens of all transitions. -/
theorem writes_moves (ha : a.Spellable) : Writes (String.join (a.states.values.map renderState))
    (a.description.transitions.flatMap Source.transitionTokens) := by
  rw [description, List.flatMap_assoc]
  exact Source.writes_join fun s hs => writes_renderState hs ha

theorem isWritable_kind (a : Automaton) : (Token.word a.kind).IsWritable := by
  unfold kind
  split <;> rfl

/-- The end of a section, as it is printed. -/
def printedEnd : List Token := [.word "end", .semicolon]

/-- The tokens that an automaton is printed as. -/
def printedTokens (a : Automaton) : List Token :=
  [.word a.kind, .word "states"] ++ a.description.states.map Token.word ++ printedEnd ++
    [.word "initial", .word a.description.start, .word "accept"] ++
    a.description.accepting.map Token.word ++ printedEnd ++ [.word "transitions"] ++
    a.description.transitions.flatMap Source.transitionTokens ++ printedEnd ++
    [.word "alphabet"] ++ a.description.alphabet.map Token.symbol ++ printedEnd

/-- They are the tokens of its description. -/
theorem grammar_printedTokens (ha : a.Spellable) :
    Source.AutomatonGrammar a.printedTokens a.description := by
  refine .intro ?_ (fun h => (ha.isName _ h).ne_end rfl) (fun h => ?_) (fun tr htr => ?_)
    .semicolon .semicolon .semicolon .semicolon
  · unfold kind
    split
    · exact Or.inl rfl
    · exact Or.inr rfl
  · have hmem := mem_states_of_isAccepting ((ha.wellFormed.mem_accepting_iff _).1 h)
    exact (ha.isName _ hmem).ne_end rfl
  · obtain ⟨hsource, hne, _⟩ := mem_transitions_description ha.wellFormed htr
    exact ⟨(ha.isName _ hsource).ne_end, hne⟩

/-- **The text of an automaton yields these tokens**, whatever closes it. -/
theorem yields_render (ha : a.Spellable) {s : List Char} (hs : Source.Closes s)
    (h : Yields s []) : Yields (a.render.toList ++ s) a.printedTokens := by
  have hkind : Writes (a.kind ++ "\n") [.word a.kind] := Source.writes_line (isWritable_kind a)
  have hstates := writes_names (w := "states") rfl fun n (hn : n ∈ a.stateNames) => ha.isName n hn
  have hinitial : Writes ("initial " ++ a.start ++ "\n") [.word "initial", .word a.start] := by
    rw [String.append_assoc]
    exact (Source.writes_token (t := .word "initial") rfl).append
      (Source.writes_line (ha.isName _ ha.wellFormed.start_mem).isWritable)
  have haccept := writes_names (w := "accept") rfl fun n (hn : n ∈ a.accepting.toList) =>
    ha.isName n (mem_states_of_isAccepting ((ha.wellFormed.mem_accepting_iff n).1 hn))
  have htransitions : Writes "transitions\n" [.word "transitions"] :=
    Source.writes_line (w := "transitions") rfl
  have hall := hkind.append (hstates.append (hinitial.append (haccept.append (htransitions.append
    ((writes_moves ha).append Source.writes_endOfSection))))) _ _
      (yields_symbols a.alphabet.toList hs h)
  -- only the nesting of the pieces differs
  convert hall using 1
  · rw [← List.append_assoc, ← String.toList_append]
    unfold render
    simp only [String.append_assoc]
  · simp only [printedTokens, printedEnd, description, List.append_assoc, List.cons_append,
      List.nil_append]

/-! ## 3. Reading undoes printing -/

/-- A text that yields the tokens of a description is read as it, on whatever lines they stand. -/
theorem parse_eq_ok_of_yields {text : String} {ts : List Token} {d : Description}
    (h : Yields text.toList ts) (hts : Source.AutomatonGrammar ts d) :
    Description.parse text = .ok d := by
  obtain ⟨located, hread, rfl⟩ := h 1
  exact bind_eq_ok_iff.2 ⟨located, hread, Source.AutomatonText.read_eq_ok_of_grammar hts⟩

theorem Spellable.parse_render_append (ha : a.Spellable) {text : String}
    (hs : Source.Closes text.toList) (h : Yields text.toList []) :
    Description.parse (a.render ++ text) = .ok a.description := by
  refine parse_eq_ok_of_yields ?_ (grammar_printedTokens ha)
  rw [String.toList_append]
  exact yields_render ha hs h

/-- The text of an automaton is read as its description. -/
theorem Spellable.parse_render_ok (ha : a.Spellable) :
    Description.parse a.render = .ok a.description := by
  have hparse : Description.parse (a.render ++ "") = .ok a.description :=
    ha.parse_render_append Source.closes_nil Source.yields_nil
  rwa [String.append_empty] at hparse

theorem parse_render_append (ha : a.Printable) {text : String} (hs : Source.Closes text.toList)
    (h : Yields text.toList []) : Description.parse (a.render ++ text) = .ok a.description :=
  ha.spellable.parse_render_append hs h

/-- **Reading undoes printing**: if the stand-in of epsilon is no symbol, and every name of a state
is read as one word that is not `end`, then the text of an automaton is read as a description, which
stands for the automaton up to order. -/
theorem render_read_back (ha : a.WellFormed) (he : epsilonSymbol ∉ a.alphabet)
    (hn : ∀ n ∈ a.states, n ≠ "end" ∧
      (Source.tokenize n).map (List.map Source.Located.token) = .ok [.word n]) :
    ∃ d b, Description.parse a.render = .ok d ∧ ofDescription d = .ok b ∧ b ≈ a := by
  have hprintable : a.Printable :=
    ⟨ha, he, fun n h => ⟨Source.isWritable_of_tokens_eq (hn n h).2, (hn n h).1⟩⟩
  have hparse : Description.parse (a.render ++ "") = .ok a.description :=
    parse_render_append hprintable Source.closes_nil Source.yields_nil
  rw [String.append_empty] at hparse
  obtain ⟨b, hb, hba⟩ := ofDescription_description ha he
  exact ⟨a.description, b, hparse, hb, hba⟩

/-- An automaton with an epsilon move, odd names, and symbols that descriptions are made of. -/
def oddlySpelled : Automaton :=
  ofRows "s#1" ['\r', '\n', ' ', '\'', '\\', '#', ';']
    [⟨"s#1", false, [(.symbol '\r', "-->x"), (.symbol ' ', "s#1"), (.epsilon, "-->x")]⟩,
      ⟨"-->x", true, [(.symbol '\'', "s#1"), (.symbol '\n', "s#1"), (.symbol ';', "-->x")]⟩]

theorem render_read_back_oddlySpelled : oddlySpelled.WellFormed ∧
    epsilonSymbol ∉ oddlySpelled.alphabet ∧
      (∀ n ∈ oddlySpelled.states, n ≠ "end" ∧
        (Source.tokenize n).map (List.map Source.Located.token) = .ok [.word n]) ∧
        ∃ d b, Description.parse oddlySpelled.render = .ok d ∧ ofDescription d = .ok b ∧
          b ≈ oddlySpelled := by
  have ha : oddlySpelled.WellFormed := wellFormed_ofRows
  have he : epsilonSymbol ∉ oddlySpelled.alphabet := by decide
  have hn : ∀ n ∈ oddlySpelled.states, n ≠ "end" ∧
      (Source.tokenize n).map (List.map Source.Located.token) = .ok [.word n] := by
    intro n hn
    have hkeys : oddlySpelled.states.keys = ["s#1", "-->x"] := by decide
    rw [OrderedMap.mem_def, hkeys] at hn
    rcases List.mem_pair.1 hn with rfl | rfl
    · exact ⟨by decide, rfl⟩
    · exact ⟨by decide, rfl⟩
  exact ⟨ha, he, hn, render_read_back ha he hn⟩

end Automaton

end RegularLanguages
