import RegularLanguages.Proofs.Source.Reader
import RegularLanguages.Proofs.Source.RegexText
import RegularLanguages.Source.LexerText

/-!
# Descriptions of lexers and their grammar

As for automata, the reader of descriptions follows the grammar and never gets stuck. A class has
no mark between its nodes and its relevance: each word there is a node, a relevance or neither of
them, and a word that is neither is reported as an unknown relevance.

* `Move` -- all moves of the reader, one rule for each;
* `grammar_iff_completes` -- **the tokens that bring the reader to its end are the descriptions**;
* `decides_grammar` -- the reader follows the grammar and never gets stuck;
* `isRegex_iff` -- the reader is behind the nodes of a class iff the tokens end so;
* `parse_follows_lexerGrammar` -- when a text is a description, of what, and which of three errors
  is reported if it is none.
-/

namespace RegularLanguages.Source

/-! ## 1. Relevances -/

theorem ofName?_eq_some_iff {w : String} {r : Relevance} :
    Relevance.ofName? w = some r ↔ w = r.name := by
  constructor
  · intro h
    unfold Relevance.ofName? at h
    split at h <;> cases h <;> rfl
  · rintro rfl
    cases r <;> rfl

theorem regexToken?_relevance (r : Relevance) : (Token.word r.name).regexToken? = none := by
  cases r <;> rfl

namespace LexerText

open Lexer (Description ClassDescription)

variable {p q : Progress} {place : Place} {t : Token} {ts us cs : List Token} {d r : Description}
  {b : Bool}

/-! ## 2. Moves -/

/-- The moves of the reader, the optional semicolons aside. -/
inductive Move : Place → Description → Token → Progress → Prop where
  | languageKeyword {d : Description} :
    Move .languageKeyword d (.word "language") ⟨.languageName, false, d⟩
  | languageName {d : Description} {w : String} :
    Move .languageName d (.word w) ⟨.alphabetKeyword, false, { d with name := w }⟩
  | alphabetKeyword {d : Description} :
    Move .alphabetKeyword d (.word "alphabet") ⟨.alphabetSymbols, false, d⟩
  | alphabetSymbol {d : Description} {c : Symbol} :
    Move .alphabetSymbols d (.symbol c)
      ⟨.alphabetSymbols, false, { d with alphabet := d.alphabet ++ [c] }⟩
  | alphabetEnd {d : Description} :
    Move .alphabetSymbols d (.word "end") ⟨.classKeyword, true, d⟩
  | classKeyword {d : Description} :
    Move .classKeyword d (.word "class") ⟨.className, false, d⟩
  | className {d : Description} {w : String} :
    Move .className d (.word w) ⟨.isKeyword w, false, d⟩
  | isKeyword {d : Description} {name : String} :
    Move (.isKeyword name) d (.word "is") ⟨.regex name [], false, d⟩
  | node {d : Description} {name : String} {nodes : List Regex.Token} {n : Regex.Token} :
    Move (.regex name nodes) d (Token.ofRegexToken n) ⟨.regex name (nodes ++ [n]), false, d⟩
  | relevance {d : Description} {name : String} {nodes : List Regex.Token} {k : Relevance} :
    Move (.regex name nodes) d (.word k.name)
      ⟨.classEnd, false, { d with classes := d.classes ++ [⟨name, nodes, k⟩] }⟩
  | classEnd {d : Description} :
    Move .classEnd d (.word "end") ⟨.classKeyword, true, d⟩
  | classesEnd {d : Description} :
    Move .classKeyword d (.word "end") ⟨.done, true, d⟩

theorem move_of_advanceRegex {name : String} {nodes : List Regex.Token}
    (h : advanceRegex name nodes d t = some q) : Move (.regex name nodes) d t q := by
  unfold advanceRegex at h
  split at h
  · rename_i n hn
    cases h
    rw [regexToken?_eq_some_iff.1 hn]
    exact .node
  · split at h
    · obtain ⟨k, hk, rfl⟩ := Option.map_eq_some_iff.1 h
      rw [ofName?_eq_some_iff.1 hk]
      exact .relevance
    · cases h

theorem advance_eq_some_iff : advance place d t = some q ↔ Move place d t q := by
  constructor
  · intro h
    unfold advance at h
    split at h
    -- behind the nodes of a class
    all_goals try exact move_of_advanceRegex h
    -- at the other places, a keyword or `end` may be asked for
    all_goals repeat' split at h
    all_goals cases h
    all_goals subst_vars; constructor
  · intro h
    cases h with
    | node => simp [advance, advanceRegex, regexToken?_ofRegexToken]
    | @relevance _ _ _ k =>
      simp [advance, advanceRegex, regexToken?_relevance, ofName?_eq_some_iff.2 rfl]
    | _ => rfl

/-- The reader of descriptions by its moves. -/
def reader : Reader Progress Description where
  start := .start
  next := Progress.next?
  complaint p t := p.place.complaint t
  result p := if p.place = .done then some p.soFar else none
  expected p := p.place.expected

theorem read_eq (located : List Located) : read located = reader.read located := by
  have hfinish : Progress.finish = reader.finish := by
    funext p
    by_cases h : p.place = .done <;> simp [Progress.finish, Reader.finish, reader, h]
  have hstep : Progress.step = reader.step := by
    funext p t
    simp only [Progress.step, Reader.step, reader]
    cases p.next? t.token <;> rfl
  rw [Reader.read, read, hfinish, hstep]
  rfl

theorem Move.ne_semicolon (h : Move place d t q) : t ≠ .semicolon := by
  cases h with
  | @node _ _ _ n => cases n <;> nofun
  | _ => nofun

/-- A move is made whether a semicolon may come before it or not. -/
theorem Move.next?_eq_some (h : Move place d t q) :
    Progress.next? ⟨place, b, d⟩ t = some q :=
  (if_neg fun hsemicolon => h.ne_semicolon hsemicolon.2).trans (advance_eq_some_iff.2 h)

theorem Move.completes (h : Move place d t q) (hts : reader.Completes q ts r) :
    reader.Completes ⟨place, b, d⟩ (t :: ts) r := ⟨q, h.next?_eq_some, hts⟩

theorem exists_move (h : reader.Completes ⟨place, false, d⟩ ts r) (hplace : place ≠ .done) :
    ∃ t us q, ts = t :: us ∧ Move place d t q ∧ reader.Completes q us r := by
  cases ts with
  | nil => exact absurd h (by simp [Reader.Completes, reader, hplace])
  | cons t us =>
    obtain ⟨q, hq, h⟩ := h
    exact ⟨t, us, q, rfl, advance_eq_some_iff.1 hq, h⟩

theorem optional_semicolon (place : Place) (d : Description) :
    reader.Optional ⟨place, true, d⟩ ⟨place, false, d⟩ where
  semicolon := rfl
  no_second := by cases place <;> rfl
  other t ht := by simp [reader, Progress.next?, ht]
  result := rfl

/-! ## 3. Classes -/

section Nodes

variable {name : String} {nodes nodes' : List Regex.Token}

/-- What comes behind some nodes: further ones and a relevance. -/
theorem exists_nodes (h : reader.Completes ⟨.regex name nodes, false, d⟩ ts r) :
    ∃ nodes' k us, ts = nodes'.map Token.ofRegexToken ++ .word k.name :: us ∧ reader.Completes
      ⟨.classEnd, false, { d with classes := d.classes ++ [⟨name, nodes ++ nodes', k⟩] }⟩ us r := by
  have hstep : ∀ nodes ts, reader.Completes ⟨.regex name nodes, false, d⟩ ts r →
      (∃ k us, ts = .word k.name :: us ∧ reader.Completes
        ⟨.classEnd, false, { d with classes := d.classes ++ [⟨name, nodes, k⟩] }⟩ us r) ∨
      ∃ n us, True ∧ ts = [Token.ofRegexToken n] ++ us ∧
        reader.Completes ⟨.regex name (nodes ++ [n]), false, d⟩ us r := by
    intro nodes ts hts
    obtain ⟨t, us, q, rfl, hmove, hus⟩ := exists_move hts nofun
    cases hmove with
    | node => exact Or.inr ⟨_, us, trivial, rfl, hus⟩
    | relevance => exact Or.inl ⟨_, us, rfl, hus⟩
  obtain ⟨nodes', vs, -, rfl, k, us, rfl, hus⟩ := Reader.exists_repetition (fun _ => True)
    (fun n _ => List.cons_ne_nil (Token.ofRegexToken n) []) hstep h
  exact ⟨nodes', k, us, by rw [List.map_eq_flatMap], hus⟩

theorem completes_nodes (h : reader.Completes ⟨.regex name (nodes ++ nodes'), false, d⟩ us r) :
    reader.Completes ⟨.regex name nodes, false, d⟩ (nodes'.map Token.ofRegexToken ++ us) r := by
  rw [List.map_eq_flatMap]
  exact Reader.of_repetition (fun _ => True)
    (P := fun nodes ts => reader.Completes ⟨.regex name nodes, false, d⟩ ts r)
    (fun _ _ _ _ hus => Move.node.completes hus) (fun _ _ hus => hus) (fun _ _ => trivial) h

end Nodes

/-- What comes before the end of all is one class after the other. -/
theorem exists_class (h : reader.Completes ⟨.className, false, d⟩ ts r) : ∃ c cs us,
    ClassGrammar (.word "class" :: cs) c ∧ ts = cs ++ us ∧
      reader.Completes ⟨.classKeyword, false, { d with classes := d.classes ++ [c] }⟩ us r := by
  obtain ⟨t, us₁, q, rfl, hmove, h₁⟩ := exists_move h nofun
  cases hmove with
  | @className _ name =>
    obtain ⟨t, us₂, q, rfl, hmove, h₂⟩ := exists_move h₁ nofun
    cases hmove with
    | isKeyword =>
      obtain ⟨nodes, k, us₃, rfl, h₃⟩ := exists_nodes h₂
      obtain ⟨t, us₄, q, rfl, hmove, h₄⟩ := exists_move h₃ nofun
      cases hmove
      obtain ⟨e, us, he, hend, hus⟩ := (optional_semicolon _ _).end_iff.1 ⟨us₄, rfl, h₄⟩
      refine ⟨⟨name, nodes, k⟩, _, us, ClassGrammar.intro he, ?_, hus⟩
      simp [hend]

theorem completes_class {c : ClassDescription} (hc : ClassGrammar cs c)
    (h : reader.Completes ⟨.classKeyword, false, { d with classes := d.classes ++ [c] }⟩ us r) :
    reader.Completes ⟨.classKeyword, false, d⟩ (cs ++ us) r := by
  obtain ⟨he⟩ := hc
  rename_i e
  obtain ⟨vs, hvs, hend⟩ := (optional_semicolon _ _).end_iff.2 ⟨e, us, he, rfl, h⟩
  have hclassEnd : reader.Completes
      ⟨.classEnd, false, { d with classes := d.classes ++ [c] }⟩ (e ++ us) r :=
    hvs ▸ Move.classEnd.completes hend
  have hnodes : reader.Completes ⟨.regex c.name [], false, d⟩
      (c.tokens.map Token.ofRegexToken ++ .word c.relevance.name :: (e ++ us)) r :=
    completes_nodes (Move.relevance.completes hclassEnd)
  have hname : reader.Completes ⟨.className, false, d⟩ _ r :=
    Move.className.completes (Move.isKeyword.completes hnodes)
  simpa using Move.classKeyword.completes hname

/-- Several classes, each with its tokens. -/
theorem classesGrammar_iff {ds : List ClassDescription} : ClassesGrammar cs ds ↔
    ∃ l : List (List Token × ClassDescription), (∀ x ∈ l, ClassGrammar x.1 x.2) ∧
      cs = l.flatMap Prod.fst ∧ ds = l.map Prod.snd := by
  constructor
  · intro h
    induction h with
    | nil => exact ⟨[], nofun, rfl, rfl⟩
    | @cons ts us c ds hc _ ih =>
      obtain ⟨l, hl, rfl, rfl⟩ := ih
      exact ⟨(ts, c) :: l, List.forall_mem_cons.2 ⟨hc, hl⟩, rfl, rfl⟩
  · rintro ⟨l, hl, rfl, rfl⟩
    induction l with
    | nil => exact .nil
    | cons x l ih =>
      obtain ⟨hx, hl⟩ := List.forall_mem_cons.1 hl
      exact .cons hx (ih hl)

theorem ClassGrammar.ne_nil {c : ClassDescription} (h : ClassGrammar cs c) : cs ≠ [] := by
  cases h
  nofun

theorem exists_classes {name : String} {alphabet : List Symbol}
    (h : reader.Completes ⟨.classKeyword, false, ⟨name, alphabet, []⟩⟩ ts r) :
    ∃ cs ds e us, ClassesGrammar cs ds ∧ IsEnd e ∧ ts = cs ++ (e ++ us) ∧
      reader.Completes ⟨.done, false, ⟨name, alphabet, ds⟩⟩ us r := by
  have hsection := Reader.exists_section (f := Prod.fst)
    (fun xs : List (List Token × ClassDescription) =>
      (⟨.classKeyword, false, ⟨name, alphabet, xs.map Prod.snd⟩⟩ : Progress))
    (fun x => ClassGrammar x.1 x.2) h (fun x hx => ClassGrammar.ne_nil hx)
    (fun xs => optional_semicolon .done ⟨name, alphabet, xs.map Prod.snd⟩) ?_
  · obtain ⟨l, e, us, hl, he, rfl, hus⟩ := hsection
    exact ⟨_, _, e, us, classesGrammar_iff.2 ⟨l, hl, rfl, rfl⟩, he, rfl, hus⟩
  · intro xs ts hts
    obtain ⟨t, us, q, rfl, hmove, hus⟩ := exists_move hts nofun
    cases hmove with
    | classesEnd => exact Or.inl ⟨us, rfl, hus⟩
    | classKeyword =>
      obtain ⟨c, cs, vs, hc, rfl, hvs⟩ := exists_class hus
      refine Or.inr ⟨(_, c), vs, hc, rfl, ?_⟩
      rwa [List.map_append]

theorem completes_classes {name : String} {alphabet : List Symbol} {ds : List ClassDescription}
    {e : List Token} (hcs : ClassesGrammar cs ds) (he : IsEnd e)
    (h : reader.Completes ⟨.done, false, ⟨name, alphabet, ds⟩⟩ us r) :
    reader.Completes ⟨.classKeyword, false, ⟨name, alphabet, []⟩⟩ (cs ++ (e ++ us)) r := by
  obtain ⟨l, hl, rfl, rfl⟩ := classesGrammar_iff.1 hcs
  refine Reader.completes_section (f := Prod.fst)
    (fun xs : List (List Token × ClassDescription) =>
      (⟨.classKeyword, false, ⟨name, alphabet, xs.map Prod.snd⟩⟩ : Progress))
    (fun x => ClassGrammar x.1 x.2)
    (fun xs => optional_semicolon .done ⟨name, alphabet, xs.map Prod.snd⟩) (fun _ => rfl) ?_
    hl he h
  intro xs x us hx hus
  rw [List.map_append] at hus
  exact completes_class hx hus

/-! ## 4. The whole description -/

theorem exists_alphabet {name : String}
    (h : reader.Completes ⟨.alphabetSymbols, false, ⟨name, [], []⟩⟩ ts r) : ∃ symbols e us,
      IsEnd e ∧ ts = symbols.map .symbol ++ (e ++ us) ∧
        reader.Completes ⟨.classKeyword, false, ⟨name, symbols, []⟩⟩ us r := by
  have hsection := Reader.exists_section (f := fun c => [Token.symbol c])
    (fun symbols => (⟨.alphabetSymbols, false, ⟨name, symbols, []⟩⟩ : Progress)) (fun _ => True) h
    (fun c _ => List.cons_ne_nil (Token.symbol c) [])
    (fun symbols => optional_semicolon .classKeyword ⟨name, symbols, []⟩) ?_
  · obtain ⟨symbols, e, us, -, he, rfl, hus⟩ := hsection
    exact ⟨symbols, e, us, he, by rw [List.map_eq_flatMap], hus⟩
  · intro symbols ts hts
    obtain ⟨t, us, q, rfl, hmove, hus⟩ := exists_move hts nofun
    cases hmove with
    | alphabetEnd => exact Or.inl ⟨us, rfl, hus⟩
    | alphabetSymbol => exact Or.inr ⟨_, us, trivial, rfl, hus⟩

theorem completes_alphabet {name : String} {symbols : List Symbol} {e : List Token} (he : IsEnd e)
    (h : reader.Completes ⟨.classKeyword, false, ⟨name, symbols, []⟩⟩ us r) :
    reader.Completes ⟨.alphabetSymbols, false, ⟨name, [], []⟩⟩
      (symbols.map .symbol ++ (e ++ us)) r := by
  rw [List.map_eq_flatMap]
  exact Reader.completes_section
    (fun symbols => (⟨.alphabetSymbols, false, ⟨name, symbols, []⟩⟩ : Progress)) (fun _ => True)
    (fun symbols => optional_semicolon .classKeyword ⟨name, symbols, []⟩) (fun _ => rfl)
    (fun _ _ _ _ hus => Move.alphabetSymbol.completes hus) (fun _ _ => trivial) he h

theorem completes_done_iff : reader.Completes ⟨.done, false, d⟩ ts r ↔ ts = [] ∧ d = r := by
  cases ts with
  | nil => exact ⟨fun h => ⟨rfl, Option.some.inj h⟩, fun h => congrArg some h.2⟩
  | cons t ts =>
    refine ⟨fun ⟨q, hq, _⟩ => ?_, fun h => absurd h.1 (List.cons_ne_nil t ts)⟩
    have hadvance : advance .done d t = some q := hq
    cases advance_eq_some_iff.1 hadvance

theorem grammar_of_completes (h : reader.Completes .start ts r) : LexerGrammar ts r := by
  obtain ⟨t, us₁, q, rfl, hmove, h₁⟩ := exists_move h nofun
  cases hmove
  obtain ⟨t, us₂, q, rfl, hmove, h₂⟩ := exists_move h₁ nofun
  cases hmove with
  | @languageName _ name =>
    obtain ⟨t, us₃, q, rfl, hmove, h₃⟩ := exists_move h₂ nofun
    cases hmove
    obtain ⟨alphabet, e₁, us₄, he₁, rfl, h₄⟩ := exists_alphabet h₃
    obtain ⟨cs, ds, e₂, us₅, hcs, he₂, rfl, h₅⟩ := exists_classes h₄
    obtain ⟨rfl, rfl⟩ := completes_done_iff.1 h₅
    have hgrammar := LexerGrammar.intro (d := ⟨name, alphabet, ds⟩) he₁ hcs he₂
    simpa using hgrammar

theorem completes_of_grammar (h : LexerGrammar ts d) : reader.Completes .start ts d := by
  obtain ⟨he₁, hcs, he₂⟩ := h
  rename_i e₁ e₂ cs
  have hdone : reader.Completes ⟨.done, false, d⟩ [] d := completes_done_iff.2 ⟨rfl, rfl⟩
  have hclasses := completes_classes hcs he₂ hdone
  have halphabet := completes_alphabet he₁ hclasses
  have hkeyword : reader.Completes ⟨.alphabetKeyword, false, ⟨d.name, [], []⟩⟩ _ d :=
    Move.alphabetKeyword.completes halphabet
  have hname : reader.Completes ⟨.languageName, false, ⟨"", [], []⟩⟩ _ d :=
    Move.languageName.completes hkeyword
  have hstart : reader.Completes .start _ d := Move.languageKeyword.completes hname
  simpa using hstart

/-- **The tokens that bring the reader to its end are the descriptions.** -/
theorem grammar_iff_completes : LexerGrammar ts d ↔ reader.Completes .start ts d :=
  ⟨completes_of_grammar, grammar_of_completes⟩

/-! ## 5. From every place to the end -/

/-- How many tokens there are at least from a place to the end. -/
def Place.toGo : Place → Nat
  | .languageKeyword => 5
  | .languageName => 4
  | .alphabetKeyword => 3
  | .alphabetSymbols => 2
  | .classKeyword => 1
  | .className => 5
  | .isKeyword _ => 4
  | .regex _ _ => 3
  | .classEnd => 2
  | .done => 0

/-- A token that goes on towards the end. -/
def Place.onward : Place → Token
  | .languageKeyword => .word "language"
  | .languageName => .word "l"
  | .alphabetKeyword => .word "alphabet"
  | .className => .word "c"
  | .isKeyword _ => .word "is"
  | .regex _ _ => .word Relevance.relevant.name
  | .alphabetSymbols | .classKeyword | .classEnd | .done => .word "end"

theorem exists_nearer (p : Progress) : (∃ d, reader.result p = some d) ∨
    ∃ t q, reader.next p t = some q ∧ q.place.toGo < p.place.toGo := by
  obtain ⟨place, b, d⟩ := p
  by_cases hplace : place = .done
  · exact Or.inl ⟨d, if_pos hplace⟩
  · refine Or.inr ⟨place.onward, ?_⟩
    cases place <;> cases b
    case done.false | done.true => exact absurd rfl hplace
    all_goals exact ⟨_, rfl, Nat.lt_succ_self _⟩

/-- **The reader decides the grammar.** -/
theorem decides_grammar : reader.Decides LexerGrammar where
  grammar_iff _ _ := grammar_iff_completes
  live := Reader.live_of_nearer (fun p => p.place.toGo) exists_nearer

/-! ## 6. Behind the nodes of a class -/

/-- The reader is behind some nodes of a class. -/
def Place.IsRegex (place : Place) : Prop := ∃ name nodes, place = .regex name nodes

/-- The tokens end with the head of a class and some nodes. -/
def EndsInNodes (ts : List Token) : Prop :=
  ∃ (front : List Token) (name : String) (nodes : List Regex.Token),
    ts = front ++ ([.word "class", .word name, .word "is"] ++ nodes.map Token.ofRegexToken)

/-- The tokens that must have come right before a place in a class. -/
def Place.behind : Place → List Token
  | .className => [.word "class"]
  | .isKeyword name => [.word "class", .word name]
  | .regex name nodes =>
    [.word "class", .word name, .word "is"] ++ nodes.map Token.ofRegexToken
  | _ => []

/-- The tokens end as they must, and a semicolon may only come where nothing is said of them. -/
structure Progress.Follows (ts : List Token) (p : Progress) : Prop where
  behind : p.place.behind <:+ ts
  semicolon : p.semicolon = true → p.place.behind = []

theorem Move.follows (h : Move place d t q) (hbehind : place.behind <:+ ts) :
    q.Follows (ts ++ [t]) := by
  obtain ⟨front, rfl⟩ := hbehind
  cases h with
  | alphabetEnd | classEnd | classesEnd => exact ⟨List.nil_suffix, fun _ => rfl⟩
  | classKeyword | className | isKeyword | node =>
    exact ⟨⟨front, by simp [Place.behind]⟩, nofun⟩
  | _ => exact ⟨List.nil_suffix, nofun⟩

theorem follows_next? (h : p.Follows ts) (hq : p.next? t = some q) : q.Follows (ts ++ [t]) := by
  unfold Progress.next? at hq
  split at hq
  · -- a semicolon leaves the reader where it is, but nothing is said of the tokens there
    rename_i hsemicolon
    cases hq
    exact ⟨h.semicolon hsemicolon.1 ▸ List.nil_suffix, nofun⟩
  · exact (advance_eq_some_iff.1 hq).follows h.behind

theorem follows_start : Progress.start.Follows [] := ⟨List.nil_suffix, nofun⟩

theorem follows_of_foldlM (h : ts.foldlM Progress.next? .start = some p) : p.Follows ts :=
  Reader.of_foldlM_next (r := reader) (P := fun ts p => p.Follows ts) []
    (fun _ _ _ _ => follows_next?) follows_start h

theorem next?_word {w : String} : p.next? (.word w) = advance p.place p.soFar (.word w) :=
  if_neg fun h => nomatch h.2

/-- Behind the word `class`, a name and `is` the nodes of a class begin, whatever came before. Where
`class` is itself a name, the word behind it is `alphabet` or `is`, and no `is` can follow that. -/
theorem isRegex_of_head {name : String}
    (h : [.word "class", .word name, .word "is"].foldlM Progress.next? p = some q) :
    q.place.IsRegex := by
  obtain ⟨p₁, h₁, hrest⟩ := Option.bind_eq_some_iff.1 h
  obtain ⟨p₂, h₂, hlast⟩ := Option.bind_eq_some_iff.1 hrest
  obtain ⟨p₃, h₃, hend⟩ := Option.bind_eq_some_iff.1 hlast
  cases hend
  obtain ⟨place, b, d⟩ := p
  rw [next?_word] at h₁ h₂ h₃
  cases place with
  | classKeyword =>
    cases h₁
    cases h₂
    cases h₃
    exact ⟨name, [], rfl⟩
  | languageName | className =>
    cases h₁
    simp only [advance, Option.ite_none_right_eq_some] at h₂
    obtain ⟨-, h₂⟩ := h₂
    cases h₂
    cases h₃
  | _ => cases h₁

theorem isRegex_of_nodes {nodes : List Regex.Token} (hp : p.place.IsRegex)
    (h : (nodes.map Token.ofRegexToken).foldlM Progress.next? p = some q) : q.place.IsRegex := by
  induction nodes generalizing p with
  | nil => exact Option.some.inj h ▸ hp
  | cons n nodes ih =>
    obtain ⟨p', hp', hrest⟩ := Option.bind_eq_some_iff.1 h
    obtain ⟨place, b, d⟩ := p
    obtain ⟨name, seen, rfl⟩ := hp
    cases hp'.symm.trans Move.node.next?_eq_some
    exact ih ⟨name, seen ++ [n], rfl⟩ hrest

/-- **The reader is behind the nodes of a class iff the tokens end so.** -/
theorem isRegex_iff (h : ts.foldlM Progress.next? .start = some p) :
    p.place.IsRegex ↔ EndsInNodes ts := by
  constructor
  · rintro ⟨name, nodes, hplace⟩
    obtain ⟨front, hfront⟩ := (follows_of_foldlM h).behind
    rw [hplace] at hfront
    exact ⟨front, name, nodes, hfront.symm⟩
  · rintro ⟨front, name, nodes, rfl⟩
    rw [List.foldlM_append] at h
    obtain ⟨p₁, -, h₁⟩ := Option.bind_eq_some_iff.1 h
    rw [List.foldlM_append] at h₁
    obtain ⟨p₂, hhead, hnodes⟩ := Option.bind_eq_some_iff.1 h₁
    exact isRegex_of_nodes (isRegex_of_head hhead) hnodes

/-! ## 7. Reading a text -/

theorem complaint_ne_unexpectedEnd {t : Located} {x : Expected} :
    place.complaint t ≠ .unexpectedEnd x := by
  obtain ⟨t, line⟩ := t
  cases place <;> cases t <;> nofun

theorem complaint_eq_unknownRelevance_iff {t : Located} {w : String} :
    place.complaint t = .unknownRelevance w ↔ t.token = .word w ∧ place.IsRegex := by
  obtain ⟨t, line⟩ := t
  cases place <;> cases t <;> simp [Place.complaint, Located.unexpected, Place.IsRegex]

theorem exists_complaint_eq_unexpected_iff {t : Located} {line : Nat} {found : Found} :
    (∃ x, place.complaint t = .unexpected line found x) ↔ line = t.line ∧
      found = .token t.token ∧ ¬ ((∃ w, t.token = .word w) ∧ place.IsRegex) := by
  obtain ⟨t, line⟩ := t
  cases place <;> cases t <;> simp [Place.complaint, Located.unexpected, Place.IsRegex, eq_comm]

/-- **Reading the tokens of a text**: they are a description, and then it is the one that is read;
or they are unfinished, and the end is complained about; or there is a first token with which no
description goes on. If this is a word behind the nodes of a class, it is reported as an unknown
relevance, and else as out of place, on its line. -/
theorem parse_follows_lexerGrammar {text : String} {located : List Located}
    (h : tokenize text = .ok located) :
    (∀ d, Description.parse text = .ok d ↔ LexerGrammar (located.map Located.token) d) ∧
    ((∃ x, Description.parse text = .error (.unexpectedEnd x)) ↔
      Unfinished LexerGrammar (located.map Located.token)) ∧
    (∀ w, Description.parse text = .error (.unknownRelevance w) ↔
      ∃ before t, BreaksOff LexerGrammar located before t ∧
        t.token = .word w ∧ EndsInNodes (before.map Located.token)) ∧
    (∀ line found, (∃ x, Description.parse text = .error (.unexpected line found x)) ↔
      ∃ before t, BreaksOff LexerGrammar located before t ∧
        line = t.line ∧ found = .token t.token ∧
        ¬ ((∃ w, t.token = .word w) ∧ EndsInNodes (before.map Located.token))) ∧
    ((∃ d, LexerGrammar (located.map Located.token) d) ∨
      Unfinished LexerGrammar (located.map Located.token) ∨
      ∃ before t, BreaksOff LexerGrammar located before t) := by
  have hparse : Description.parse text = reader.read located := by
    rw [Description.parse, h, ← read_eq]
    rfl
  rw [hparse]
  refine ⟨fun d => decides_grammar.read_eq_ok_iff,
    decides_grammar.read_unexpectedEnd_iff fun _ _ _ => complaint_ne_unexpectedEnd,
    fun w => ?_, fun line found => ?_, decides_grammar.cases_of_tokens located⟩
  · have hiff : (∃ _ : Unit, reader.read located = .error (.unknownRelevance w)) ↔ _ :=
      decides_grammar.read_complaint_iff (fun _ => .unknownRelevance w)
        (fun ts t => t.token = .word w ∧ EndsInNodes ts) (fun _ _ => nofun) fun ts t p hp => by
          rw [exists_const, ← isRegex_iff hp]
          exact complaint_eq_unknownRelevance_iff
    rwa [exists_const] at hiff
  · refine decides_grammar.read_complaint_iff (fun x => .unexpected line found x)
      (fun ts t => line = t.line ∧ found = .token t.token ∧
        ¬ ((∃ w, t.token = .word w) ∧ EndsInNodes ts)) (fun _ _ => nofun) fun ts t p hp => ?_
    rw [← isRegex_iff hp]
    exact exists_complaint_eq_unexpected_iff

/-- A description whose only class has a relevance that there is not. -/
def misjudgedText : String := "language l\nalphabet 'a end;\nclass c is * 'a important end;\nend"

def misjudgedTokens : List Located :=
  [⟨.word "language", 1⟩, ⟨.word "l", 1⟩, ⟨.word "alphabet", 2⟩, ⟨.symbol 'a', 2⟩, ⟨.word "end", 2⟩,
    ⟨.semicolon, 2⟩, ⟨.word "class", 3⟩, ⟨.word "c", 3⟩, ⟨.word "is", 3⟩, ⟨.operator .star, 3⟩,
    ⟨.symbol 'a', 3⟩, ⟨.word "important", 3⟩, ⟨.word "end", 3⟩, ⟨.semicolon, 3⟩, ⟨.word "end", 4⟩]

/-- The tokens break off at that word, behind the nodes of the class. -/
theorem parse_follows_lexerGrammar_misjudged :
    tokenize misjudgedText = .ok misjudgedTokens ∧
      ∃ before t, BreaksOff LexerGrammar misjudgedTokens before t ∧
        t.token = .word "important" ∧ EndsInNodes (before.map Located.token) := by
  have htokens : tokenize misjudgedText = .ok misjudgedTokens := rfl
  have hparse : Description.parse misjudgedText = .error (.unknownRelevance "important") := rfl
  exact ⟨htokens, ((parse_follows_lexerGrammar htokens).2.2.1 _).1 hparse⟩

end LexerText

end RegularLanguages.Source
