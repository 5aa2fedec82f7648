import RegularLanguages.Proofs.Source.Reader
import RegularLanguages.Source.AutomatonText

/-!
# Reading descriptions of automata, section by section

The reader takes one token after the other. A section of a description takes it from one place to
the next and adds what the section lists.

* `reader` -- the reader by its moves;
* `Leads` -- some tokens lead from one progress to another; `Leads.trans` puts sections together;
* `read_eq_ok_of_grammar` -- **a list of tokens that is a description is read as that
  description**;
* `state_read` -- a description that was read names no state but those that its tokens name.
-/

namespace RegularLanguages.Source.AutomatonText

open Automaton (Description)

variable {p q r : Progress} {t : Token} {ts us : List Token} {located : List Located}
  {d : Description} {b : Bool} {source : StateName}

/-! ## 1. Progress -/

/-- Some tokens lead from one progress to another. -/
def Leads (p : Progress) (ts : List Token) (q : Progress) : Prop :=
  ts.foldlM Progress.next? p = some q

theorem leads_nil : Leads p [] p := rfl

theorem Leads.trans (h : Leads p ts q) (h' : Leads q us r) : Leads p (ts ++ us) r := by
  have hbind : (ts ++ us).foldlM Progress.next? p = (ts.foldlM Progress.next? p).bind _ :=
    List.foldlM_append
  exact hbind.trans ((congrArg (Option.bind · _) h).trans h')

theorem leads_cons_iff : Leads p (t :: ts) q ↔ ∃ r, p.next? t = some r ∧ Leads r ts q :=
  Option.bind_eq_some_iff

theorem Leads.cons (h : p.next? t = some r) (h' : Leads r ts q) : Leads p (t :: ts) q :=
  leads_cons_iff.2 ⟨r, h, h'⟩

theorem leads_singleton (h : p.next? t = some q) : Leads p [t] q := .cons h leads_nil

/-- The reader of descriptions by its moves. -/
def reader : Reader Progress Description where
  start := .start
  next := Progress.next?
  complaint p t := t.unexpected p.place.expected
  result p := if p.place = .done then some p.soFar else none
  expected p := p.place.expected

theorem read_eq (located : List Located) : read located = reader.read located := by
  have hfinish : Progress.finish = reader.finish := by
    funext p
    by_cases h : p.place = .done <;> simp [Progress.finish, Reader.finish, reader, h]
  have hstep : Progress.step = reader.step := by
    funext p t
    simp only [Progress.step, Reader.step, reader]
    cases p.next? t.token <;> rfl
  rw [Reader.read, read, hfinish, hstep]
  rfl

theorem read_eq_ok_iff :
    read located = .ok d ↔ ∃ b, Leads .start (located.map Located.token) ⟨.done, b, d⟩ := by
  rw [read_eq, Reader.read_eq_ok_iff_completes, Reader.completes_iff]
  constructor
  · rintro ⟨⟨place, b, e⟩, hlead, hresult⟩
    obtain ⟨rfl, hsoFar⟩ := Option.ite_none_right_eq_some.1 hresult
    cases hsoFar
    exact ⟨b, hlead⟩
  · rintro ⟨b, hlead⟩
    exact ⟨_, hlead, rfl⟩

/-! ## 2. Sections -/

/-- A word makes the same progress whether a semicolon may come in its place or not. -/
theorem next?_word {w : String} : p.next? (.word w) = advance p.place p.soFar (.word w) :=
  if_neg fun h => nomatch h.2

theorem leads_word {place : Place} {w : String} (h : advance place d (.word w) = some q) :
    Leads ⟨place, b, d⟩ [.word w] q := leads_singleton (next?_word.trans h)

/-- The end of a section, where a semicolon may or may not follow the word. -/
theorem leads_end {place next : Place} (he : IsEnd ts)
    (h : advance place d (.word "end") = some ⟨next, true, d⟩) :
    ∃ b, Leads ⟨place, false, d⟩ ts ⟨next, b, d⟩ := by
  cases he with
  | plain => exact ⟨true, leads_word h⟩
  | semicolon => exact ⟨false, (leads_word h).trans (leads_singleton rfl)⟩

section Lists

variable {α : Type} {l : List α} {e : List α → Progress}

/-- A list is read element by element, if each of them comes behind those that were read. -/
theorem leads_flatMap {f : α → List Token} (xs : List α)
    (h : ∀ x ∈ l, ∀ xs, Leads (e xs) (f x) (e (xs ++ [x]))) :
    Leads (e xs) (l.flatMap f) (e (xs ++ l)) := by
  induction l generalizing xs with
  | nil => rw [List.append_nil]; exact leads_nil
  | cons x l ih =>
    have hrest := ih (xs ++ [x]) fun y hy => h y (List.mem_cons_of_mem x hy)
    rw [List.append_assoc] at hrest
    exact (h x List.mem_cons_self xs).trans hrest

theorem leads_map {f : α → Token} (xs : List α)
    (h : ∀ x ∈ l, ∀ xs, (e xs).next? (f x) = some (e (xs ++ [x]))) :
    Leads (e xs) (l.map f) (e (xs ++ l)) := by
  rw [List.map_eq_flatMap]
  exact leads_flatMap xs fun x hx xs => leads_singleton (h x hx xs)

end Lists

theorem leads_stateNames {ns : List StateName} (h : "end" ∉ ns) :
    Leads ⟨.stateNames, false, { d with states := [] }⟩ (ns.map Token.word)
      ⟨.stateNames, false, { d with states := ns }⟩ :=
  leads_map (e := fun ns => ⟨.stateNames, false, { d with states := ns }⟩) [] fun n hn _ =>
    next?_word.trans (if_neg fun hend : n = "end" => h (hend ▸ hn))

theorem leads_acceptNames {ns : List StateName} (h : "end" ∉ ns) :
    Leads ⟨.acceptNames, false, { d with accepting := [] }⟩ (ns.map Token.word)
      ⟨.acceptNames, false, { d with accepting := ns }⟩ :=
  leads_map (e := fun ns => ⟨.acceptNames, false, { d with accepting := ns }⟩) [] fun n hn _ =>
    next?_word.trans (if_neg fun hend : n = "end" => h (hend ▸ hn))

theorem leads_alphabetSymbols {cs : List Symbol} :
    Leads ⟨.alphabetSymbols, false, { d with alphabet := [] }⟩ (cs.map Token.symbol)
      ⟨.alphabetSymbols, false, { d with alphabet := cs }⟩ :=
  leads_map (e := fun cs => ⟨.alphabetSymbols, false, { d with alphabet := cs }⟩) []
    fun _ _ _ => rfl

/-- One transition. It has a source that is not the word `end`, and reads something. -/
theorem leads_transition {tr : StateName × List Symbol × StateName} (h : tr.1 ≠ "end")
    (hcs : tr.2.1 ≠ []) : Leads ⟨.transition, false, d⟩ (transitionTokens tr)
      ⟨.transition, false, { d with transitions := d.transitions ++ [tr] }⟩ := by
  obtain ⟨source, cs, target⟩ := tr
  obtain ⟨c, ds, rfl⟩ := List.exists_cons_of_ne_nil hcs
  have hsource : advance .transition d (.word source) = some ⟨.firstSymbol source, false, d⟩ :=
    if_neg h
  have hsymbols : Leads ⟨.symbols source [c], false, d⟩ (ds.map Token.symbol)
      ⟨.symbols source (c :: ds), false, d⟩ :=
    leads_map (e := fun cs => ⟨.symbols source cs, false, d⟩) [c] fun _ _ _ => rfl
  have hfirst : Leads ⟨.firstSymbol source, false, d⟩ ((c :: ds).map Token.symbol)
      ⟨.symbols source (c :: ds), false, d⟩ := .cons rfl hsymbols
  exact (leads_word hsource).trans (hfirst.trans (.cons rfl (leads_singleton rfl)))

theorem leads_transitions {trs : List (StateName × List Symbol × StateName)}
    (h : ∀ tr ∈ trs, tr.1 ≠ "end" ∧ tr.2.1 ≠ []) :
    Leads ⟨.transition, false, { d with transitions := [] }⟩ (trs.flatMap transitionTokens)
      ⟨.transition, false, { d with transitions := trs }⟩ :=
  leads_flatMap (e := fun trs => ⟨.transition, false, { d with transitions := trs }⟩) []
    fun tr htr _ => leads_transition (h tr htr).1 (h tr htr).2

/-! ## 3. Whole descriptions -/

/-- The tokens of a description lead from the beginning to the end of the reader. -/
theorem leads_of_grammar (h : AutomatonGrammar ts d) :
    ∃ b, Leads .start ts ⟨.done, b, d⟩ := by
  obtain ⟨hkind, hstates, haccepting, hsources, h₁, h₂, h₃, h₄⟩ := h
  rename_i kind e₁ e₂ e₃ e₄
  have hbegin : advance .kind ⟨[], "", [], [], []⟩ (.word kind) =
      some ⟨.statesKeyword, false, ⟨[], "", [], [], []⟩⟩ := if_pos hkind
  have hkeyword : advance .statesKeyword ⟨[], "", [], [], []⟩ (.word "states") =
      some ⟨.stateNames, false, ⟨[], "", [], [], []⟩⟩ := rfl
  have hopen : Leads .start [.word kind, .word "states"]
      ⟨.stateNames, false, ⟨[], "", [], [], []⟩⟩ := (leads_word hbegin).trans (leads_word hkeyword)
  let d₁ : Description := ⟨d.states, "", [], [], []⟩
  let d₂ : Description := ⟨d.states, d.start, d.accepting, [], []⟩
  let d₃ : Description := ⟨d.states, d.start, d.accepting, d.transitions, []⟩
  have hnames : Leads ⟨.stateNames, false, ⟨[], "", [], [], []⟩⟩ (d.states.map Token.word)
      ⟨.stateNames, false, d₁⟩ := leads_stateNames (d := d₁) hstates
  obtain ⟨b₁, hend₁⟩ : ∃ b, Leads ⟨.stateNames, false, d₁⟩ e₁ ⟨.initialKeyword, b, d₁⟩ :=
    leads_end h₁ rfl
  have hinitial : Leads ⟨.initialKeyword, b₁, d₁⟩
      [.word "initial", .word d.start, .word "accept"]
      ⟨.acceptNames, false, { d₁ with start := d.start }⟩ :=
    (leads_word rfl).trans ((leads_word rfl).trans (leads_word rfl))
  have haccept : Leads ⟨.acceptNames, false, { d₁ with start := d.start }⟩
      (d.accepting.map Token.word) ⟨.acceptNames, false, d₂⟩ :=
    leads_acceptNames (d := d₂) haccepting
  obtain ⟨b₂, hend₂⟩ : ∃ b, Leads ⟨.acceptNames, false, d₂⟩ e₂ ⟨.transitionsKeyword, b, d₂⟩ :=
    leads_end h₂ rfl
  have hkeyword₂ : Leads ⟨.transitionsKeyword, b₂, d₂⟩ [.word "transitions"]
      ⟨.transition, false, d₂⟩ := leads_word rfl
  have htransitions : Leads ⟨.transition, false, d₂⟩ (d.transitions.flatMap transitionTokens)
      ⟨.transition, false, d₃⟩ := leads_transitions (d := d₃) hsources
  obtain ⟨b₃, hend₃⟩ : ∃ b, Leads ⟨.transition, false, d₃⟩ e₃ ⟨.alphabetKeyword, b, d₃⟩ :=
    leads_end h₃ rfl
  have hkeyword₃ : Leads ⟨.alphabetKeyword, b₃, d₃⟩ [.word "alphabet"]
      ⟨.alphabetSymbols, false, d₃⟩ := leads_word rfl
  have halphabet : Leads ⟨.alphabetSymbols, false, d₃⟩ (d.alphabet.map Token.symbol)
      ⟨.alphabetSymbols, false, d⟩ := leads_alphabetSymbols (d := d)
  obtain ⟨b₄, hend₄⟩ : ∃ b, Leads ⟨.alphabetSymbols, false, d⟩ e₄ ⟨.done, b, d⟩ :=
    leads_end h₄ rfl
  exact ⟨b₄, hopen.trans hnames |>.trans hend₁ |>.trans hinitial |>.trans haccept
    |>.trans hend₂ |>.trans hkeyword₂ |>.trans htransitions |>.trans hend₃ |>.trans hkeyword₃
    |>.trans halphabet |>.trans hend₄⟩

/-- **A list of tokens that is a description is read as that description.** -/
theorem read_eq_ok_of_grammar (h : AutomatonGrammar (located.map Located.token) d) :
    read located = .ok d := read_eq_ok_iff.2 (leads_of_grammar h)

/-! ## 4. The names of states -/

/-- A token adds at most the state that it names, which is not called `end`. -/
theorem states_next? (h : p.next? t = some q) {n : StateName} (hn : n ∈ q.soFar.states) :
    n ∈ p.soFar.states ∨ n ≠ "end" ∧ t = .word n := by
  unfold Progress.next? at h
  split at h
  · cases h
    exact Or.inl hn
  · unfold advance at h
    split at h <;> try split at h
    all_goals cases h
    case h_3.isFalse =>
      rename_i hend
      refine (List.mem_append.1 hn).imp id fun hn => ?_
      rw [List.mem_singleton.1 hn]
      exact ⟨hend, rfl⟩
    all_goals exact Or.inl hn

theorem states_of_leads (h : Leads p ts q) {n : StateName} (hn : n ∈ q.soFar.states) :
    n ∈ p.soFar.states ∨ n ≠ "end" ∧ .word n ∈ ts := by
  induction ts generalizing p with
  | nil =>
    cases h
    exact Or.inl hn
  | cons t ts ih =>
    obtain ⟨r, hr, hq⟩ := leads_cons_iff.1 h
    rcases ih hq with hn | ⟨hne, hmem⟩
    · refine (states_next? hr hn).imp id fun hnew => ?_
      exact ⟨hnew.1, hnew.2 ▸ List.mem_cons_self⟩
    · exact Or.inr ⟨hne, List.mem_cons_of_mem t hmem⟩

/-- **A description that was read names no state but those that its tokens name.** -/
theorem state_read (h : read located = .ok d) {n : StateName} (hn : n ∈ d.states) :
    n ≠ "end" ∧ .word n ∈ located.map Located.token := by
  obtain ⟨b, hlead⟩ := read_eq_ok_iff.1 h
  exact (states_of_leads hlead hn).resolve_left List.not_mem_nil

end RegularLanguages.Source.AutomatonText
