import RegularLanguages.Proofs.Source.AutomatonText

/-!
# Descriptions of automata and their grammar

What the reader of descriptions takes is a description, section by section, and at every place it
can be brought to an end. So it accepts the descriptions and no other tokens, and complains about
the first token with which no description goes on.

* `Move` -- all moves of the reader, one rule for each;
* `grammar_of_completes` -- **tokens that bring the reader to its end are a description**;
* `decides_grammar` -- the reader follows the grammar and never gets stuck;
* `parse_follows_automatonGrammar` -- when a text is a description, of what, and what is reported if
  it is none.
-/

namespace RegularLanguages.Source.AutomatonText

open Automaton (Description)

variable {p q : Progress} {place next : Place} {t : Token} {ts : List Token} {d r : Description}

/-! ## 1. Moves -/

/-- The moves of the reader, the optional semicolons aside. -/
inductive Move : Place → Description → Token → Progress → Prop where
  | kind {d : Description} {w : String} (h : w = "dfa" ∨ w = "nfa") :
    Move .kind d (.word w) ⟨.statesKeyword, false, d⟩
  | statesKeyword {d : Description} :
    Move .statesKeyword d (.word "states") ⟨.stateNames, false, d⟩
  | stateName {d : Description} {w : String} (h : w ≠ "end") :
    Move .stateNames d (.word w) ⟨.stateNames, false, { d with states := d.states ++ [w] }⟩
  | stateNamesEnd {d : Description} :
    Move .stateNames d (.word "end") ⟨.initialKeyword, true, d⟩
  | initialKeyword {d : Description} :
    Move .initialKeyword d (.word "initial") ⟨.initialName, false, d⟩
  | initialName {d : Description} {w : String} :
    Move .initialName d (.word w) ⟨.acceptKeyword, false, { d with start := w }⟩
  | acceptKeyword {d : Description} :
    Move .acceptKeyword d (.word "accept") ⟨.acceptNames, false, d⟩
  | acceptName {d : Description} {w : String} (h : w ≠ "end") :
    Move .acceptNames d (.word w) ⟨.acceptNames, false, { d with accepting := d.accepting ++ [w] }⟩
  | acceptNamesEnd {d : Description} :
    Move .acceptNames d (.word "end") ⟨.transitionsKeyword, true, d⟩
  | transitionsKeyword {d : Description} :
    Move .transitionsKeyword d (.word "transitions") ⟨.transition, false, d⟩
  | source {d : Description} {w : String} (h : w ≠ "end") :
    Move .transition d (.word w) ⟨.firstSymbol w, false, d⟩
  | transitionsEnd {d : Description} :
    Move .transition d (.word "end") ⟨.alphabetKeyword, true, d⟩
  | firstSymbol {d : Description} {source : StateName} {c : Symbol} :
    Move (.firstSymbol source) d (.symbol c) ⟨.symbols source [c], false, d⟩
  | symbol {d : Description} {source : StateName} {cs : List Symbol} {c : Symbol} :
    Move (.symbols source cs) d (.symbol c) ⟨.symbols source (cs ++ [c]), false, d⟩
  | arrow {d : Description} {source : StateName} {cs : List Symbol} :
    Move (.symbols source cs) d .arrow ⟨.target source cs, false, d⟩
  | target {d : Description} {source : StateName} {cs : List Symbol} {w : String} :
    Move (.target source cs) d (.word w)
      ⟨.transition, false, { d with transitions := d.transitions ++ [(source, cs, w)] }⟩
  | alphabetKeyword {d : Description} :
    Move .alphabetKeyword d (.word "alphabet") ⟨.alphabetSymbols, false, d⟩
  | alphabetSymbol {d : Description} {c : Symbol} :
    Move .alphabetSymbols d (.symbol c)
      ⟨.alphabetSymbols, false, { d with alphabet := d.alphabet ++ [c] }⟩
  | alphabetEnd {d : Description} :
    Move .alphabetSymbols d (.word "end") ⟨.done, true, d⟩

theorem move_of_advance (h : advance place d t = some q) : Move place d t q := by
  unfold advance at h
  split at h <;> try split at h
  all_goals cases h
  all_goals subst_vars; constructor
  all_goals assumption

theorem exists_move (h : reader.Completes ⟨place, false, d⟩ ts r) (hplace : place ≠ .done) :
    ∃ t us q, ts = t :: us ∧ Move place d t q ∧ reader.Completes q us r := by
  cases ts with
  | nil => exact absurd h (by simp [Reader.Completes, reader, hplace])
  | cons t us =>
    obtain ⟨q, hq, h⟩ := h
    exact ⟨t, us, q, rfl, move_of_advance hq, h⟩

theorem optional_semicolon (place : Place) (d : Description) :
    reader.Optional ⟨place, true, d⟩ ⟨place, false, d⟩ where
  semicolon := rfl
  no_second := by cases place <;> rfl
  other t ht := by simp [reader, Progress.next?, ht]
  result := rfl

/-! ## 2. Sections -/

/-- A section that lists tokens of one kind. -/
theorem exists_listing {α : Type} (list : List α → Description) (f : α → Token) (ok : α → Prop)
    (h : reader.Completes ⟨place, false, list []⟩ ts r) (hplace : place ≠ .done)
    (hmove : ∀ xs t q, Move place (list xs) t q → t = .word "end" ∧ q = ⟨next, true, list xs⟩ ∨
      ∃ x, ok x ∧ t = f x ∧ q = ⟨place, false, list (xs ++ [x])⟩) :
    ∃ l e us, (∀ x ∈ l, ok x) ∧ IsEnd e ∧ ts = l.map f ++ (e ++ us) ∧
      reader.Completes ⟨next, false, list l⟩ us r := by
  have hsection := Reader.exists_section (fun xs => (⟨place, false, list xs⟩ : Progress)) ok h
    (fun x _ => List.cons_ne_nil (f x) []) (fun xs => optional_semicolon next (list xs)) ?_
  · simpa only [List.map_eq_flatMap] using hsection
  · intro xs ts hts
    obtain ⟨t, us, q, rfl, hq, hus⟩ := exists_move hts hplace
    rcases hmove xs t q hq with ⟨rfl, rfl⟩ | ⟨x, hx, rfl, rfl⟩
    · exact Or.inl ⟨us, rfl, hus⟩
    · exact Or.inr ⟨x, us, hx, rfl, hus⟩

theorem exists_stateNames (hd : d.states = [])
    (h : reader.Completes ⟨.stateNames, false, d⟩ ts r) : ∃ ns e us, (∀ n ∈ ns, n ≠ "end") ∧
      IsEnd e ∧ ts = ns.map .word ++ (e ++ us) ∧
        reader.Completes ⟨.initialKeyword, false, { d with states := ns }⟩ us r := by
  obtain ⟨_, _, _, _, _⟩ := d
  cases hd
  refine exists_listing (fun ns => ⟨ns, _, _, _, _⟩) .word (· ≠ "end") h nofun ?_
  intro ns t q hmove
  cases hmove with
  | stateNamesEnd => exact Or.inl ⟨rfl, rfl⟩
  | stateName hw => exact Or.inr ⟨_, hw, rfl, rfl⟩

theorem exists_acceptNames (hd : d.accepting = [])
    (h : reader.Completes ⟨.acceptNames, false, d⟩ ts r) : ∃ ns e us, (∀ n ∈ ns, n ≠ "end") ∧
      IsEnd e ∧ ts = ns.map .word ++ (e ++ us) ∧
        reader.Completes ⟨.transitionsKeyword, false, { d with accepting := ns }⟩ us r := by
  obtain ⟨_, _, _, _, _⟩ := d
  cases hd
  refine exists_listing (fun ns => ⟨_, _, ns, _, _⟩) .word (· ≠ "end") h nofun ?_
  intro ns t q hmove
  cases hmove with
  | acceptNamesEnd => exact Or.inl ⟨rfl, rfl⟩
  | acceptName hw => exact Or.inr ⟨_, hw, rfl, rfl⟩

theorem exists_alphabetSymbols (hd : d.alphabet = [])
    (h : reader.Completes ⟨.alphabetSymbols, false, d⟩ ts r) : ∃ cs e us, (∀ c ∈ cs, True) ∧
      IsEnd e ∧ ts = cs.map .symbol ++ (e ++ us) ∧
        reader.Completes ⟨.done, false, { d with alphabet := cs }⟩ us r := by
  obtain ⟨_, _, _, _, _⟩ := d
  cases hd
  refine exists_listing (fun cs => ⟨_, _, _, _, cs⟩) .symbol (fun _ => True) h nofun ?_
  intro cs t q hmove
  cases hmove with
  | alphabetEnd => exact Or.inl ⟨rfl, rfl⟩
  | alphabetSymbol => exact Or.inr ⟨_, trivial, rfl, rfl⟩

/-- The symbols of a transition, behind those that were read, and the arrow. -/
theorem exists_symbols {source : StateName} {cs : List Symbol}
    (h : reader.Completes ⟨.symbols source cs, false, d⟩ ts r) :
    ∃ cs' us, ts = cs'.map .symbol ++ .arrow :: us ∧
      reader.Completes ⟨.target source (cs ++ cs'), false, d⟩ us r := by
  have hstep : ∀ cs ts, reader.Completes ⟨.symbols source cs, false, d⟩ ts r →
      (∃ us, ts = .arrow :: us ∧ reader.Completes ⟨.target source cs, false, d⟩ us r) ∨
        ∃ c us, True ∧ ts = [Token.symbol c] ++ us ∧
          reader.Completes ⟨.symbols source (cs ++ [c]), false, d⟩ us r := by
    intro cs ts hts
    obtain ⟨t, us, q, rfl, hmove, hus⟩ := exists_move hts nofun
    cases hmove with
    | arrow => exact Or.inl ⟨us, rfl, hus⟩
    | symbol => exact Or.inr ⟨_, us, trivial, rfl, hus⟩
  obtain ⟨cs', vs, -, rfl, us, rfl, hus⟩ :=
    Reader.exists_repetition (fun _ => True) (fun c _ => List.cons_ne_nil (Token.symbol c) [])
      hstep h
  exact ⟨cs', us, by rw [List.map_eq_flatMap], hus⟩

theorem exists_transitions (hd : d.transitions = [])
    (h : reader.Completes ⟨.transition, false, d⟩ ts r) :
    ∃ trs e us, (∀ tr ∈ trs, tr.1 ≠ "end" ∧ tr.2.1 ≠ []) ∧ IsEnd e ∧
      ts = trs.flatMap transitionTokens ++ (e ++ us) ∧
      reader.Completes ⟨.alphabetKeyword, false, { d with transitions := trs }⟩ us r := by
  have hstep : ∀ trs ts, reader.Completes ⟨.transition, false, { d with transitions := trs }⟩ ts r →
      (∃ us, ts = .word "end" :: us ∧
        reader.Completes ⟨.alphabetKeyword, true, { d with transitions := trs }⟩ us r) ∨
      ∃ tr us, (tr.1 ≠ "end" ∧ tr.2.1 ≠ []) ∧ ts = transitionTokens tr ++ us ∧
        reader.Completes ⟨.transition, false, { d with transitions := trs ++ [tr] }⟩ us r := by
    intro trs ts hts
    obtain ⟨t, us, q, rfl, hmove, hus⟩ := exists_move hts nofun
    cases hmove with
    | transitionsEnd => exact Or.inl ⟨us, rfl, hus⟩
    | @source _ source hsource =>
      obtain ⟨t, vs, q, rfl, hmove, hvs⟩ := exists_move hus nofun
      cases hmove with
      | @firstSymbol _ _ c =>
        obtain ⟨cs, ws, rfl, hws⟩ := exists_symbols hvs
        obtain ⟨t, zs, q, rfl, hmove, hzs⟩ := exists_move hws nofun
        cases hmove with
        | @target _ _ _ target =>
          refine Or.inr ⟨(source, c :: cs, target), zs, ⟨hsource, List.cons_ne_nil c cs⟩, ?_, hzs⟩
          simp [transitionTokens]
  have h' : reader.Completes ⟨.transition, false, { d with transitions := [] }⟩ ts r := by
    rwa [← hd]
  exact Reader.exists_section
    (fun trs => (⟨.transition, false, { d with transitions := trs }⟩ : Progress)) _ h'
    (fun tr _ => List.cons_ne_nil (Token.word tr.1) _)
    (fun trs => optional_semicolon .alphabetKeyword { d with transitions := trs }) hstep

/-! ## 3. The whole description -/

theorem exists_opening (h : reader.Completes .start ts r) : ∃ kind us,
    (kind = "dfa" ∨ kind = "nfa") ∧ ts = [.word kind, .word "states"] ++ us ∧
      reader.Completes ⟨.stateNames, false, ⟨[], "", [], [], []⟩⟩ us r := by
  obtain ⟨t, us, q, rfl, hmove, hus⟩ := exists_move h nofun
  cases hmove with
  | @kind _ kind hkind =>
    obtain ⟨t, vs, q, rfl, hmove, hvs⟩ := exists_move hus nofun
    cases hmove
    exact ⟨kind, vs, hkind, rfl, hvs⟩

theorem exists_initial (h : reader.Completes ⟨.initialKeyword, false, d⟩ ts r) : ∃ n us,
    ts = [.word "initial", .word n, .word "accept"] ++ us ∧
      reader.Completes ⟨.acceptNames, false, { d with start := n }⟩ us r := by
  obtain ⟨t, us, q, rfl, hmove, hus⟩ := exists_move h nofun
  cases hmove
  obtain ⟨t, vs, q, rfl, hmove, hvs⟩ := exists_move hus nofun
  cases hmove with
  | @initialName _ n =>
    obtain ⟨t, ws, q, rfl, hmove, hws⟩ := exists_move hvs nofun
    cases hmove
    exact ⟨n, ws, rfl, hws⟩

theorem eq_of_completes_done (h : reader.Completes ⟨.done, false, d⟩ ts r) : ts = [] ∧ r = d := by
  cases ts with
  | nil => exact ⟨rfl, (Option.some.inj h).symm⟩
  | cons t ts =>
    obtain ⟨q, hq, -⟩ := h
    have hadvance : advance .done d t = some q := hq
    cases move_of_advance hadvance

/-- **Tokens that bring the reader to its end are a description.** -/
theorem grammar_of_completes (h : reader.Completes .start ts r) : AutomatonGrammar ts r := by
  obtain ⟨kind, us₁, hkind, hts, h₁⟩ := exists_opening h
  obtain ⟨states, e₁, us₂, hstates, he₁, rfl, h₂⟩ := exists_stateNames rfl h₁
  obtain ⟨start, us₃, rfl, h₃⟩ := exists_initial h₂
  obtain ⟨accepting, e₂, us₄, haccepting, he₂, rfl, h₄⟩ := exists_acceptNames rfl h₃
  obtain ⟨t, us₅, q, rfl, hmove, h₅⟩ := exists_move h₄ nofun
  cases hmove
  obtain ⟨transitions, e₃, us₆, hsources, he₃, rfl, h₆⟩ := exists_transitions rfl h₅
  obtain ⟨t, us₇, q, rfl, hmove, h₇⟩ := exists_move h₆ nofun
  cases hmove
  obtain ⟨alphabet, e₄, us₈, -, he₄, rfl, h₈⟩ := exists_alphabetSymbols rfl h₇
  obtain ⟨rfl, rfl⟩ := eq_of_completes_done h₈
  have hgrammar := AutomatonGrammar.intro (d := ⟨states, start, accepting, transitions, alphabet⟩)
    hkind (fun hmem => hstates _ hmem rfl) (fun hmem => haccepting _ hmem rfl) hsources
    he₁ he₂ he₃ he₄
  simpa [hts] using hgrammar

theorem grammar_iff_completes : AutomatonGrammar ts d ↔ reader.Completes .start ts d := by
  refine ⟨fun h => ?_, grammar_of_completes⟩
  obtain ⟨b, hlead⟩ := leads_of_grammar h
  exact Reader.completes_iff.2 ⟨_, hlead, rfl⟩

/-! ## 4. From every place to the end -/

/-- How many tokens there are at least from a place to the end. -/
def Place.toGo : Place → Nat
  | .kind => 11
  | .statesKeyword => 10
  | .stateNames => 9
  | .initialKeyword => 8
  | .initialName => 7
  | .acceptKeyword => 6
  | .acceptNames => 5
  | .transitionsKeyword => 4
  | .transition => 3
  | .firstSymbol _ => 6
  | .symbols _ _ => 5
  | .target _ _ => 4
  | .alphabetKeyword => 2
  | .alphabetSymbols => 1
  | .done => 0

/-- A token that goes on towards the end. -/
def Place.onward : Place → Token
  | .kind => .word "dfa"
  | .statesKeyword => .word "states"
  | .initialKeyword => .word "initial"
  | .initialName => .word "s"
  | .acceptKeyword => .word "accept"
  | .transitionsKeyword => .word "transitions"
  | .firstSymbol _ => .symbol 'a'
  | .symbols _ _ => .arrow
  | .target source _ => .word source
  | .alphabetKeyword => .word "alphabet"
  | .stateNames | .acceptNames | .transition | .alphabetSymbols | .done => .word "end"

theorem exists_nearer (p : Progress) : (∃ d, reader.result p = some d) ∨
    ∃ t q, reader.next p t = some q ∧ q.place.toGo < p.place.toGo := by
  obtain ⟨place, b, d⟩ := p
  by_cases hplace : place = .done
  · exact Or.inl ⟨d, if_pos hplace⟩
  · refine Or.inr ⟨place.onward, ?_⟩
    cases place <;> cases b
    case done.false | done.true => exact absurd rfl hplace
    all_goals exact ⟨_, rfl, Nat.lt_succ_self _⟩

/-- **The reader decides the grammar.** -/
theorem decides_grammar : reader.Decides AutomatonGrammar where
  grammar_iff _ _ := grammar_iff_completes
  live := Reader.live_of_nearer (fun p => p.place.toGo) exists_nearer

/-- **Reading the tokens of a text**: they are a description, and then it is the one that is read;
or they are unfinished, and the end is complained about; or there is a first token with which no
description goes on, and the complaint is about this one, on its line. -/
theorem parse_follows_automatonGrammar {text : String} {located : List Located}
    (h : tokenize text = .ok located) :
    (∀ d, Description.parse text = .ok d ↔ AutomatonGrammar (located.map Located.token) d) ∧
    ((∃ x, Description.parse text = .error (.unexpectedEnd x)) ↔
      Unfinished AutomatonGrammar (located.map Located.token)) ∧
    (∀ line found, (∃ x, Description.parse text = .error (.unexpected line found x)) ↔
      ∃ before t, BreaksOff AutomatonGrammar located before t ∧
        line = t.line ∧ found = .token t.token) ∧
    ((∃ d, AutomatonGrammar (located.map Located.token) d) ∨
      Unfinished AutomatonGrammar (located.map Located.token) ∨
      ∃ before t, BreaksOff AutomatonGrammar located before t) := by
  have hparse : Description.parse text = reader.read located := by
    rw [Description.parse, h, ← read_eq]
    rfl
  rw [hparse]
  refine ⟨fun d => decides_grammar.read_eq_ok_iff,
    decides_grammar.read_unexpectedEnd_iff (fun _ _ _ => nofun), fun line found => ?_,
    decides_grammar.cases_of_tokens located⟩
  refine decides_grammar.read_complaint_iff (fun x => .unexpected line found x)
    (fun _ t => line = t.line ∧ found = .token t.token) (fun _ _ => nofun) fun ts t p _ => ?_
  simp [reader, Located.unexpected, eq_comm]

/-- A description whose only transition lacks its arrow. -/
def arrowlessText : String := "dfa states s end;\ninitial s accept end\ntransitions s 'a s end"

def arrowlessTokens : List Located :=
  [⟨.word "dfa", 1⟩, ⟨.word "states", 1⟩, ⟨.word "s", 1⟩, ⟨.word "end", 1⟩, ⟨.semicolon, 1⟩,
    ⟨.word "initial", 2⟩, ⟨.word "s", 2⟩, ⟨.word "accept", 2⟩, ⟨.word "end", 2⟩,
    ⟨.word "transitions", 3⟩, ⟨.word "s", 3⟩, ⟨.symbol 'a', 3⟩, ⟨.word "s", 3⟩, ⟨.word "end", 3⟩]

/-- The tokens break off at the target of the transition. -/
theorem parse_follows_automatonGrammar_arrowless :
    tokenize arrowlessText = .ok arrowlessTokens ∧
      ∃ before t, BreaksOff AutomatonGrammar arrowlessTokens before t ∧
        3 = t.line ∧ Found.token (.word "s") = .token t.token := by
  have htokens : tokenize arrowlessText = .ok arrowlessTokens := rfl
  have hparse : Description.parse arrowlessText =
      .error (.unexpected 3 (.token (.word "s")) .arrow) := rfl
  exact ⟨htokens, ((parse_follows_automatonGrammar htokens).2.2.1 _ _).1 ⟨_, hparse⟩⟩

end RegularLanguages.Source.AutomatonText
