import RegularLanguages.Proofs.Checking
import RegularLanguages.Proofs.Lexer.Scan
import RegularLanguages.Proofs.Regex.Symbols

/-!
# Declared symbols

A description of a lexer is refused if an expression uses a symbol that is not declared. So a piece
that some class takes is made of declared symbols, whether the class is dropped or not, and a scan
cannot get past any other character.

* `mem_of_ofDescription` -- the expressions of a lexer that was built keep to the declared symbols;
* `Cuts.declared` -- so do all the pieces into which a text is cut;
* `scan_declared` -- **a scan yields declared symbols only, and fails at the latest at the first
  other character**.
-/

namespace RegularLanguages.Lexer

variable {alphabet : List Symbol} {classes : List LexicalClass} {w rest : List Char} {c : Symbol}
  {pieces : List (LexicalClass × List Char)} {d : Description} {l : Lexer}

/-! ## 1. The check of a description -/

/-- Whether the expressions of all classes keep to the given symbols. -/
def KeepTo (alphabet : List Symbol) (classes : List LexicalClass) : Prop :=
  ∀ k ∈ classes, ∀ c ∈ k.regex.symbols, c ∈ alphabet

theorem mem_of_build {k : ClassDescription} {b : LexicalClass} (h : k.build alphabet = .ok b)
    (hc : c ∈ b.regex.symbols) : c ∈ alphabet := by
  obtain ⟨e, _, h⟩ := bind_eq_ok_iff.1 h
  split at h
  · cases h
  · rename_i hnone
    cases h
    simpa using List.find?_eq_none.1 hnone c hc

/-- **The expressions of a lexer that was built keep to the declared symbols.** -/
theorem keepTo_of_ofDescription (h : ofDescription d = .ok l) : KeepTo d.alphabet l.classes := by
  obtain ⟨classes, hclasses, h⟩ := bind_eq_ok_iff.1 h
  cases h
  intro k hk c hc
  obtain ⟨_, _, hbuild⟩ := exists_of_mem_mapM hclasses hk
  exact mem_of_build hbuild hc

/-! ## 2. Pieces -/

/-- **The pieces of a text are made of declared symbols**: each is matched by the expression of its
class. -/
theorem Cuts.declared (h : Cuts classes w pieces rest) (hk : KeepTo alphabet classes) :
    ∀ p ∈ pieces, ∀ c ∈ p.2, c ∈ alphabet := by
  intro p hp c hc
  obtain ⟨hclass, _, haccepts⟩ := h.accepts p hp
  exact hk p.1 hclass c (Regex.mem_symbols_of_accepts haccepts hc)

theorem Cuts.mem_piecesText (h : Cuts classes w pieces rest) (hk : KeepTo alphabet classes)
    (hc : c ∈ piecesText pieces) : c ∈ alphabet := by
  obtain ⟨piece, hpiece, hc⟩ := List.mem_flatten.1 hc
  obtain ⟨p, hp, rfl⟩ := List.mem_map.1 hpiece
  exact h.declared hk p hp c hc

/-- The pieces end before a character that is not declared. -/
theorem Cuts.prefix_of_not_mem {front back : List Char} (h : Cuts classes w pieces rest)
    (hk : KeepTo alphabet classes) (hw : w = front ++ c :: back) (hc : c ∉ alphabet) :
    piecesText pieces <+: front := by
  have happ : piecesText pieces ++ rest = front ++ c :: back := h.append.trans hw
  rcases List.append_eq_append_iff.1 happ with ⟨behind, hfront, _⟩ | ⟨behind, htext, hback⟩
  · exact ⟨behind, hfront.symm⟩
  · -- else the pieces go on with the character, or end exactly before it
    cases behind with
    | nil => exact ⟨[], by rw [htext, List.append_nil, List.append_nil]⟩
    | cons e behind =>
      obtain ⟨rfl, _⟩ := List.cons.inj hback
      have hmem : c ∈ piecesText pieces := by
        rw [htext]
        exact List.mem_append_right front List.mem_cons_self
      exact absurd (h.mem_piecesText hk hmem) hc

/-! ## 3. Scans -/

/-- The lexemes that are kept are pieces. -/
theorem exists_piece_of_mem_keptLexemes {x : Lexeme} (hx : x ∈ keptLexemes pieces) :
    ∃ p ∈ pieces, x.text = p.2 := by
  obtain ⟨p, hp, h⟩ := List.mem_filterMap.1 hx
  rw [lexeme?] at h
  split at h
  · cases h
  · cases h
    exact ⟨p, hp, rfl⟩

/-- What a scan makes of a cut that cannot go on. -/
theorem scan_of_cuts (h : Cuts l.classes w pieces rest) (hs : Stuck l.classes rest) :
    l.scan w = if rest = [] then .ok (keptLexemes pieces)
      else .error ⟨byteSize (piecesText pieces), rest⟩ := by
  rw [scan, scanFrom_of_cuts h, Nat.zero_add]
  split
  · rename_i hrest
    rw [hrest, scanFrom_nil]
    exact congrArg Except.ok (List.append_nil _)
  · rename_i hrest
    rw [scanFrom_of_stuck hs hrest]
    rfl

/-- **A lexer that was built from a description never reads past an undeclared character.** The
lexemes of a scan that succeeds are made of declared symbols. If a text has a character that is not
declared, in particular for the first one, the scan fails, at the latest at the position of the
character, which is the number of bytes before it. -/
theorem scan_declared (h : ofDescription d = .ok l) (w : List Char) :
    (∀ lexemes, l.scan w = .ok lexemes → ∀ x ∈ lexemes, ∀ c ∈ x.text, c ∈ d.alphabet) ∧
      ∀ front c back, w = front ++ c :: back → c ∉ d.alphabet →
        ∃ e, l.scan w = .error e ∧ e.offset ≤ (String.ofList front).utf8ByteSize := by
  have hk := keepTo_of_ofDescription h
  obtain ⟨pieces, rest, hcuts, hstuck⟩ := exists_cuts l.classes w
  have hscan := scan_of_cuts hcuts hstuck
  refine ⟨fun lexemes hok x hx c hc => ?_, fun front c back hw hc => ?_⟩
  · rw [hscan] at hok
    split at hok
    · cases hok
      obtain ⟨p, hp, htext⟩ := exists_piece_of_mem_keptLexemes hx
      exact hcuts.declared hk p hp c (htext ▸ hc)
    · cases hok
  · obtain ⟨behind, hfront⟩ := hcuts.prefix_of_not_mem hk hw hc
    have hrest : rest ≠ [] := by
      rintro rfl
      have hmem : c ∈ piecesText pieces := by
        rw [← List.append_nil (piecesText pieces), hcuts.append, hw]
        exact List.mem_append_right front List.mem_cons_self
      exact hc (hcuts.mem_piecesText hk hmem)
    refine ⟨_, hscan.trans (if_neg hrest), ?_⟩
    rw [← hfront, ← byteSize, byteSize_append]
    exact Nat.le_add_right _ _

/-- Pairs of a letter of two bytes, with blanks between them that are dropped. -/
def pairs : Description where
  name := "pairs"
  alphabet := ['é', ' ']
  classes := [⟨"blank", [.symbol ' '], .discard⟩,
    ⟨"pair", [.operator .concat, .symbol 'é', .symbol 'é'], .relevant⟩]

/-- The lexer that it describes. -/
def pairLexer : Lexer where
  name := "pairs"
  alphabet := .ofList ['é', ' ']
  classes := [⟨"blank", .symbol ' ', .discard⟩,
    ⟨"pair", .concat (.symbol 'é') (.symbol 'é'), .relevant⟩]

theorem scan_declared_pairs : ofDescription pairs = .ok pairLexer ∧
    (∃ lexemes, pairLexer.scan ['é', 'é', ' ', 'é', 'é'] = .ok lexemes ∧
      ∀ x ∈ lexemes, ∀ c ∈ x.text, c ∈ pairs.alphabet) ∧
      'y' ∉ pairs.alphabet ∧
        ∃ e, pairLexer.scan ['é', 'é', ' ', 'é', 'y', 'é'] = .error e ∧ e.offset ≤ 7 := by
  have hclasses : pairs.classes.mapM (ClassDescription.build pairs.alphabet) =
      .ok pairLexer.classes := by decide +kernel
  have hbuild : ofDescription pairs = .ok pairLexer := bind_eq_ok_iff.2 ⟨_, hclasses, rfl⟩
  have hscan : pairLexer.scan ['é', 'é', ' ', 'é', 'é'] =
      .ok [⟨"pair", .relevant, ['é', 'é']⟩, ⟨"pair", .relevant, ['é', 'é']⟩] := by
    decide +kernel
  have hy : 'y' ∉ pairs.alphabet := by decide
  exact ⟨hbuild, ⟨_, hscan, (scan_declared hbuild _).1 _ hscan⟩, hy,
    (scan_declared hbuild _).2 ['é', 'é', ' ', 'é'] 'y' ['é'] rfl hy⟩

end RegularLanguages.Lexer
