import RegularLanguages.Proofs.Source.Token

/-!
# Writing and reading texts

A text is cut into lines before its tokens are read. Where it is written token by token, the cut
cannot be seen: a line end is a blank like any other, and only a carriage return that is written
as a symbol must not be the last character of its line.

* `lines_append` -- characters without a line feed lengthen the first line;
* `tokenizeLines_spelling_append` -- what is written first is read first, on the line where it
  stands;
* `Yields` -- a text yields tokens; `Yields.blank`, `Yields.token` build such texts from the back;
* `Writes` -- a text puts tokens in front of what follows; `Writes.append` puts such texts together;
* `isWritable_of_mem_tokenize` -- what is read could have been written.
-/

namespace RegularLanguages

/-! ## 1. Lines -/

namespace Text

variable {c : Char} {s u : List Char}

/-- Puts characters in front of the first line. A text without lines gets one. -/
def prependToFirst (u : List Char) : List (List Char) → List (List Char)
  | [] => [u]
  | l :: ls => (u ++ l) :: ls

theorem lines_cons (hc : c ≠ '\n') (hr : c = '\r' → s.head? ≠ some '\n') :
    lines (c :: s) = prependToFirst [c] (lines s) := by
  rw [lines]
  · cases lines s <;> rfl
  · exact hc
  · exact fun rest hc hs => hr hc (by rw [hs]; rfl)

/-- Characters without a line feed lengthen the first line. A carriage return must not meet a line
feed behind them. -/
theorem lines_append (hu : u ≠ []) (hn : '\n' ∉ u)
    (hr : u.getLast? = some '\r' → s.head? ≠ some '\n') :
    lines (u ++ s) = prependToFirst u (lines s) := by
  induction u with
  | nil => exact absurd rfl hu
  | cons c u ih =>
    obtain ⟨hc, hn⟩ := not_or.1 fun h => hn (List.mem_cons.2 h)
    cases u with
    | nil => exact lines_cons (Ne.symm hc) fun e => hr (congrArg some e)
    | cons d u =>
      have hd : '\n' ≠ d := fun e => hn (e ▸ List.mem_cons_self)
      have ih := ih (List.cons_ne_nil d u) hn fun h => hr (by rwa [List.getLast?_cons_cons])
      rw [List.cons_append, lines_cons (Ne.symm hc) fun _ h => hd (by cases h; rfl), ih]
      cases lines s <;> rfl

/-- The first line begins as the text does, if it has any characters. -/
theorem head?_of_lines_eq {l : List Char} {ls : List (List Char)} (h : lines s = l :: ls)
    (hc : c ∈ l.head?) : c ∈ s.head? := by
  unfold lines at h
  split at h
  · cases h
  · cases h
    cases hc
  · cases h
    cases hc
  · split at h
    · cases h
      exact hc
    · cases h
      exact hc

end Text

/-! ## 2. Spellings -/

namespace Source

variable {c : Char} {s : List Char} {t : Token} {ts : List Token} {w : String}

theorem toList_spelling (d : Symbol) : ∃ e u, (Symbol.spelling d).toList = '\'' :: e :: u ∧
    '\n' ∉ e :: u := by
  unfold Symbol.spelling
  split
  · exact ⟨'\\', ['n'], rfl, by decide⟩
  · exact ⟨'\\', ['t'], rfl, by decide⟩
  · exact ⟨'\\', ['0'], rfl, by decide⟩
  · exact ⟨'\\', ['\\'], rfl, by decide⟩
  · exact ⟨'\\', ['\''], rfl, by decide⟩
  · rename_i hn _ _ _ _
    refine ⟨d, [], ?_, fun h => hn (List.mem_singleton.1 h).symm⟩
    rw [String.toList_append, String.toList_singleton]
    rfl

/-- No spelling is empty. -/
theorem spelling_ne_nil (ht : t.IsWritable) : t.spelling.toList ≠ [] := by
  cases t with
  | symbol d =>
    obtain ⟨e, u, h, _⟩ := toList_spelling d
    rw [Token.spelling, h]
    exact List.cons_ne_nil _ _
  | operator o =>
    rw [Token.spelling, String.toList_singleton]
    exact List.cons_ne_nil _ _
  | arrow => decide
  | semicolon => decide
  | word w =>
    obtain ⟨d, ds, h, _⟩ := (Token.sound_iff.2 ht).1
    rw [Token.spelling, h]
    exact List.cons_ne_nil d ds

/-- No blank is part of a spelling, except that of a symbol. -/
theorem not_mem_spelling_of_blank (ht : t.IsWritable) (hc : Text.isBlank c = true)
    (hsymbol : ∀ d, t ≠ .symbol d) : c ∉ t.spelling.toList := by
  intro h
  refine Bool.false_ne_true (Eq.trans (Eq.symm ?_) hc)
  cases t with
  | symbol d => exact absurd rfl (hsymbol d)
  | operator o =>
    rw [Token.spelling, String.toList_singleton, List.mem_singleton] at h
    subst h
    cases o <;> decide
  | arrow =>
    have h : c = '-' ∨ c = '-' ∨ c ∈ ['>'] := by
      rw [← List.mem_cons, ← List.mem_cons]
      exact h
    rcases h with rfl | rfl | h
    · rfl
    · rfl
    · rw [List.mem_singleton.1 h]
      rfl
  | semicolon =>
    rw [List.mem_singleton.1 (h : c ∈ [';'])]
    rfl
  | word w => exact (Token.sound_iff.2 ht).1.not_blank h

theorem lineFeed_not_mem_spelling (ht : t.IsWritable) : '\n' ∉ t.spelling.toList := by
  by_cases hsymbol : ∃ d, t = .symbol d
  · obtain ⟨d, rfl⟩ := hsymbol
    obtain ⟨e, u, h, hn⟩ := toList_spelling d
    rw [Token.spelling, h]
    exact fun hmem => hn ((List.mem_cons.1 hmem).resolve_left (by decide))
  · exact not_mem_spelling_of_blank ht (by decide) fun d e => hsymbol ⟨d, e⟩

/-- **Only the spelling of the carriage return ends in one.** -/
theorem getLast?_spelling_iff (ht : t.IsWritable) :
    t.spelling.toList.getLast? = some '\r' ↔ t = .symbol '\r' := by
  refine ⟨fun h => ?_, fun h => by rw [h]; rfl⟩
  by_cases hsymbol : ∃ d, t = .symbol d
  · obtain ⟨d, rfl⟩ := hsymbol
    replace h : (Symbol.spelling d).toList.getLast? = some '\r' := h
    unfold Symbol.spelling at h
    split at h
    case h_6 =>
      rw [String.toList_append, String.toList_singleton, List.getLast?_concat] at h
      rw [Option.some.inj h]
    all_goals exact absurd h (by decide)
  · exact absurd (List.mem_of_getLast? h)
      (not_mem_spelling_of_blank ht (by decide) fun d e => hsymbol ⟨d, e⟩)

/-! ## 3. Reading what is written -/

theorem tokenizeLines_cons {l : List Char} (h : Token.ofLine? l = some ts) (line : Nat)
    (ls : List (List Char)) : tokenizeLines line (l :: ls) =
      (tokenizeLines (line + 1) ls).map (ts.map (⟨·, line⟩) ++ ·) := by
  rw [tokenizeLines, h]

/-- A line without tokens is only counted. -/
theorem tokenizeLines_skip {l : List Char} (h : Token.ofLine? l = some []) (line : Nat)
    (ls : List (List Char)) : tokenizeLines line (l :: ls) = tokenizeLines (line + 1) ls := by
  rw [tokenizeLines_cons h]
  cases tokenizeLines (line + 1) ls <;> rfl

/-- A line end between tokens is only counted. -/
theorem tokenizeLines_lineEnd (line : Nat) (s : List Char) :
    tokenizeLines line (Text.lines ('\n' :: s)) = tokenizeLines (line + 1) (Text.lines s) := by
  have hlines : Text.lines ('\n' :: s) = [] :: Text.lines s := rfl
  rw [hlines, tokenizeLines_skip rfl]

/-- A blank that is no line feed does not matter. -/
theorem tokenizeLines_blank (hc : Text.isBlank c = true) (hn : c ≠ '\n') (line : Nat) :
    tokenizeLines line (Text.lines (c :: s)) = tokenizeLines line (Text.lines s) := by
  by_cases hr : c = '\r' → s.head? ≠ some '\n'
  · rw [Text.lines_cons hn hr]
    cases Text.lines s with
    | nil =>
      have hblank : Token.ofLine? [c] = some [] := tokens?_blank hc
      rw [Text.prependToFirst, tokenizeLines_skip hblank]
      rfl
    | cons l ls =>
      have hblank : Token.ofLine? (c :: l) = Token.ofLine? l := tokens?_blank hc
      rw [Text.prependToFirst, List.singleton_append, tokenizeLines, hblank, tokenizeLines]
  · -- a carriage return before a line feed belongs to the end of the line
    obtain ⟨rfl, h⟩ := Classical.not_imp.1 hr
    obtain ⟨s', rfl⟩ := List.head?_eq_some_iff.1 (Classical.not_not.1 h)
    rfl

/-- **What is written first is read first, on the line where it stands**, if what follows closes
it. A carriage return as a symbol must not stand directly before a line end. -/
theorem tokenizeLines_spelling_append (ht : t.IsWritable) (hs : Closes s)
    (hreturn : t = .symbol '\r' → s.head? ≠ some '\n') (line : Nat) :
    tokenizeLines line (Text.lines (t.spelling.toList ++ s)) =
      (tokenizeLines line (Text.lines s)).map (⟨t, line⟩ :: ·) := by
  rw [Text.lines_append (spelling_ne_nil ht) (lineFeed_not_mem_spelling ht) fun hlast =>
    hreturn ((getLast?_spelling_iff ht).1 hlast)]
  match hlines : Text.lines s with
  | [] =>
    have hread : Token.ofLine? t.spelling.toList = some [t] := by
      have h := tokens?_spelling_append ht closes_nil
      rwa [List.append_nil] at h
    rw [Text.prependToFirst, tokenizeLines_cons hread]
    rfl
  | l :: ls =>
    have hl : Closes l := fun d hd => hs d (Text.head?_of_lines_eq hlines hd)
    have hread : Token.ofLine? (t.spelling.toList ++ l) = (Token.ofLine? l).map (t :: ·) :=
      tokens?_spelling_append ht hl
    rw [Text.prependToFirst, tokenizeLines, hread, tokenizeLines]
    cases Token.ofLine? l with
    | none => rfl
    | some us => cases tokenizeLines (line + 1) ls <;> rfl

/-! ## 4. Texts that yield tokens -/

/-- A text yields tokens, whichever lines they stand on. -/
def Yields (s : List Char) (ts : List Token) : Prop :=
  ∀ line, ∃ located, tokenizeLines line (Text.lines s) = .ok located ∧
    located.map Located.token = ts

theorem yields_nil : Yields [] [] := fun _ => ⟨[], rfl, rfl⟩

/-- Blanks and line ends between tokens do not matter. -/
theorem Yields.blank (h : Yields s ts) (hc : Text.isBlank c = true) : Yields (c :: s) ts := by
  by_cases hn : c = '\n'
  · subst hn
    intro line
    rw [tokenizeLines_lineEnd]
    exact h (line + 1)
  · intro line
    rw [tokenizeLines_blank hc hn]
    exact h line

/-- What is written in front is read first. A carriage return as a symbol must not stand directly
before a line end. -/
theorem Yields.token (h : Yields s ts) (ht : t.IsWritable) (hs : Closes s)
    (hreturn : t = .symbol '\r' → s.head? ≠ some '\n') :
    Yields (t.spelling.toList ++ s) (t :: ts) := by
  intro line
  obtain ⟨located, hread, hts⟩ := h line
  rw [tokenizeLines_spelling_append ht hs hreturn, hread]
  exact ⟨⟨t, line⟩ :: located, rfl, by rw [List.map_cons, hts]⟩

/-- The end of a section, in front of what does not go on with it. -/
theorem Yields.endOfSection (h : Yields s ts) (hs : Closes s) :
    Yields ("end;".toList ++ s) (.word "end" :: .semicolon :: ts) := by
  have hsemicolon : Yields (';' :: s) (.semicolon :: ts) :=
    h.token (t := .semicolon) trivial hs nofun
  have htext : "end;".toList = (Token.word "end").spelling.toList ++ [';'] := by decide
  rw [htext, List.append_assoc]
  exact hsemicolon.token rfl (closes_cons rfl) nofun

/-- A text puts tokens in front of all that the text behind it yields. -/
def Writes (u : String) (ts : List Token) : Prop :=
  ∀ s us, Yields s us → Yields (u.toList ++ s) (ts ++ us)

theorem Writes.append {u v : String} {us : List Token} (hu : Writes u ts) (hv : Writes v us) :
    Writes (u ++ v) (ts ++ us) := by
  intro s rest h
  rw [String.toList_append, List.append_assoc, List.append_assoc]
  exact hu _ _ (hv s rest h)

/-- **A token and a space behind it are read whatever follows.** -/
theorem writes_token (ht : t.IsWritable) : Writes (t.spelling ++ " ") [t] := by
  intro s us h
  have hspace : Yields (' ' :: s) us := h.blank rfl
  rw [String.toList_append, List.append_assoc]
  exact hspace.token (t := t) ht (closes_cons rfl) fun _ e => by cases e

/-- A word at the end of its line is read whatever follows. -/
theorem writes_line (hw : (Token.word w).IsWritable) : Writes (w ++ "\n") [.word w] := by
  intro s us h
  have hlineEnd : Yields ('\n' :: s) us := h.blank rfl
  rw [String.toList_append, List.append_assoc]
  exact hlineEnd.token (t := .word w) hw (closes_cons rfl) nofun

theorem writes_endOfSection : Writes "end;\n" [.word "end", .semicolon] := by
  intro s us h
  have hlineEnd : Yields ('\n' :: s) us := h.blank rfl
  exact hlineEnd.endOfSection (closes_cons rfl)

/-- What one of several texts puts in front of the others. -/
theorem writes_join {α : Type} {l : List α} {f : α → String} {g : α → List Token}
    (h : ∀ x ∈ l, Writes (f x) (g x)) : Writes (String.join (l.map f)) (l.flatMap g) := by
  induction l with
  | nil => exact fun _ _ h => h
  | cons x l ih =>
    rw [List.map_cons, String.join_cons]
    exact (h x List.mem_cons_self).append (ih fun y hy => h y (List.mem_cons_of_mem x hy))

/-! ## 5. What is read -/

theorem isWritable_of_mem_tokenizeLines {located : List Located} {line : Nat}
    {ls : List (List Char)} (h : tokenizeLines line ls = .ok located) :
    ∀ t ∈ located, t.token.IsWritable := by
  induction ls generalizing line located with
  | nil =>
    cases h
    exact fun t ht => absurd ht List.not_mem_nil
  | cons l ls ih =>
    rw [tokenizeLines] at h
    split at h
    · cases h
    · rename_i us hus
      match hmore : tokenizeLines (line + 1) ls with
      | .error e =>
        rw [hmore] at h
        cases h
      | .ok more =>
        rw [hmore] at h
        cases h
        intro t ht
        rcases List.mem_append.1 ht with ht | ht
        · obtain ⟨u, hu, rfl⟩ := List.mem_map.1 ht
          exact isWritable_of_mem_ofLine? hus hu
        · exact ih hmore t ht

/-- **What is read from a text could have been written** as it is. -/
theorem isWritable_of_mem_tokenize {text : String} {located : List Located}
    (h : tokenize text = .ok located) : ∀ t ∈ located, t.token.IsWritable :=
  isWritable_of_mem_tokenizeLines h

/-- A name that is read as one word, and as nothing else, is writable. -/
theorem isWritable_of_tokens_eq
    (h : (tokenize w).map (List.map Located.token) = .ok [.word w]) :
    (Token.word w).IsWritable := by
  match hread : tokenize w with
  | .error e =>
    rw [hread] at h
    cases h
  | .ok located =>
    rw [hread] at h
    have hw : Token.word w ∈ located.map Located.token := by
      rw [Except.ok.inj h]
      exact List.mem_cons_self
    obtain ⟨t, ht, e⟩ := List.mem_map.1 hw
    exact e ▸ isWritable_of_mem_tokenize hread t ht

end Source

end RegularLanguages
