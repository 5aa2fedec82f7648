import Mathlib.Data.List.Basic
import RegularLanguages.Proofs.Source.Tokenization

/-!
# Tokens do not depend on the layout

Tokens that are written down with spaces, line ends and comments between them are read back as they
are, each with the number of its line. Only the space directly behind a token matters: it ends a
word, and it keeps a carriage return that is a symbol away from the end of the line.

* `tokenizeLines_filler` -- what stands between tokens is only counted, line end by line end;
* `tokenizeLines_laidOut` -- laid out tokens are read back, from whatever line on;
* `LaidOut.exists_before` -- the line of a token is counted by the line feeds before it;
* `tokenize_laidOut` -- **the layout of a text does not change its tokens**.
-/

namespace RegularLanguages

/-! ## 1. Comments -/

namespace Text

/-- What stands before a line feed is a line, but for a carriage return at its end. -/
theorem exists_lines_eq {u : List Char} (hu : '\n' ∉ u) (s : List Char) :
    ∃ l, lines (u ++ '\n' :: s) = l :: lines s := by
  induction u with
  | nil => exact ⟨[], rfl⟩
  | cons c u ih =>
    obtain ⟨hc, hrest⟩ := not_or.1 fun h => hu (List.mem_cons.2 h)
    obtain ⟨l, hl⟩ := ih hrest
    by_cases hr : c = '\r' → (u ++ '\n' :: s).head? ≠ some '\n'
    · refine ⟨c :: l, ?_⟩
      rw [List.cons_append, lines_cons (Ne.symm hc) hr, hl]
      rfl
    · obtain ⟨rfl, h⟩ := Classical.not_imp.1 hr
      cases u with
      | nil => exact ⟨[], rfl⟩
      | cons d u =>
        have hd : d = '\n' := Option.some.inj (Classical.not_not.1 h)
        exact absurd (hd ▸ List.mem_cons_self) hrest

end Text

namespace Source

variable {s u : List Char} {n line : Nat} {located : List Located}

/-- A comment goes on to the end of the line. -/
theorem tokens?_comment (s : List Char) : Reading.comment.tokens? s = some [] := by
  induction s with
  | nil => rfl
  | cons c s ih => exact (tokens?_cons_silent rfl).trans ih

/-- A comment with the end of its line is only counted. -/
theorem tokenizeLines_comment (hu : '\n' ∉ u) (line : Nat) (s : List Char) :
    tokenizeLines line (Text.lines ('#' :: u ++ '\n' :: s)) =
      tokenizeLines (line + 1) (Text.lines s) := by
  obtain ⟨l, hl⟩ := Text.exists_lines_eq hu s
  have hlines : Text.lines ('#' :: (u ++ '\n' :: s)) = ('#' :: l) :: Text.lines s := by
    rw [Text.lines_cons (by decide) fun h => absurd h (by decide), hl]
    rfl
  have hread : Token.ofLine? ('#' :: l) = some [] :=
    (tokens?_cons_silent rfl).trans (tokens?_comment l)
  rw [List.cons_append, hlines, tokenizeLines_skip hread]

/-! ## 2. Laid out tokens are read back -/

/-- **What stands between tokens is only counted**, line end by line end. -/
theorem tokenizeLines_filler (hu : Filler u n) (line : Nat) (s : List Char) :
    tokenizeLines line (Text.lines (u ++ s)) = tokenizeLines (line + n) (Text.lines s) := by
  induction hu generalizing line with
  | nil => rfl
  | space _ ih => rw [List.cons_append, tokenizeLines_blank rfl (by decide), ih]
  | @lineEnd rest n _ ih =>
    have hline : line + 1 + n = line + (n + 1) := by omega
    rw [List.cons_append, tokenizeLines_lineEnd, ih, hline]
  | @comment text rest n htext _ ih =>
    have hline : line + 1 + n = line + (n + 1) := by omega
    have hassoc : '#' :: text ++ '\n' :: rest ++ s = '#' :: text ++ '\n' :: (rest ++ s) :=
      List.append_assoc ..
    rw [hassoc, tokenizeLines_comment htext, ih, hline]

/-- **Laid out tokens are read back**, from whatever line on. -/
theorem tokenizeLines_laidOut (h : LaidOut line located s)
    (hwritable : ∀ t ∈ located, t.token.IsWritable) :
    tokenizeLines line (Text.lines s) = .ok located := by
  induction h with
  | nil line => rfl
  | last line t =>
    have ht : t.IsWritable := hwritable ⟨t, line⟩ List.mem_cons_self
    have hread := tokenizeLines_spelling_append ht closes_nil (fun _ h => by cases h) line
    rwa [List.append_nil] at hread
  | @cons line n filler text ts t hf _ ih =>
    have ht : t.IsWritable := hwritable ⟨t, line⟩ List.mem_cons_self
    have hrest := ih fun u hu => hwritable u (List.mem_cons_of_mem _ hu)
    have hspace : Closes (' ' :: filler ++ text) := closes_cons rfl
    -- the space ends a word and keeps a carriage return away from the line end
    rw [List.append_assoc, tokenizeLines_spelling_append ht hspace (fun _ h => by cases h),
      tokenizeLines_filler (.space hf), hrest]
    rfl

/-! ## 3. Lines are counted by line feeds -/

theorem Filler.count_lineFeed (hu : Filler u n) : u.count '\n' = n := by
  induction hu with
  | nil => rfl
  | space _ ih => rw [List.count_cons_of_ne (by decide), ih]
  | lineEnd _ ih => rw [List.count_cons_self, ih]
  | comment hu _ ih =>
    rw [List.cons_append, List.count_cons_of_ne (by decide), List.count_append,
      List.count_eq_zero_of_not_mem hu, List.count_cons_self, ih, Nat.zero_add]

/-- **Where a token stands**: behind the tokens before it, which are laid out themselves, and on the
line that the line feeds before it lead to. -/
theorem LaidOut.exists_before {us vs : List Located} {t : Located}
    (h : LaidOut line (us ++ t :: vs) s) (hwritable : ∀ u ∈ us, u.token.IsWritable) :
    ∃ before after, s = before ++ t.token.spelling.toList ++ after ∧ LaidOut line us before ∧
      t.line = line + before.count '\n' := by
  generalize hts : us ++ t :: vs = ts at h
  induction h generalizing us with
  | nil line => exact absurd hts (List.append_ne_nil_of_right_ne_nil us (List.cons_ne_nil t vs))
  | last line t' =>
    obtain ⟨rfl, h⟩ | ⟨us', rfl, h⟩ := List.append_eq_cons_iff.1 hts
    · cases h
      exact ⟨[], [], (List.append_nil _).symm, .nil line, rfl⟩
    · exact absurd h.symm (List.append_ne_nil_of_right_ne_nil us' (List.cons_ne_nil t vs))
  | @cons line n filler text ts t' hf more ih =>
    obtain ⟨rfl, h⟩ | ⟨us', rfl, h⟩ := List.append_eq_cons_iff.1 hts
    · cases h
      exact ⟨[], ' ' :: filler ++ text, List.append_assoc .., .nil line, rfl⟩
    · obtain ⟨before, after, rfl, hbefore, hline⟩ :=
        ih (fun u hu => hwritable u (List.mem_cons_of_mem _ hu)) h.symm
      refine ⟨t'.spelling.toList ++ ' ' :: filler ++ before, after, ?_, .cons t' hf hbefore, ?_⟩
      · simp only [List.append_assoc]
      · have hspelling := List.count_eq_zero_of_not_mem
          (lineFeed_not_mem_spelling (hwritable ⟨t', line⟩ List.mem_cons_self))
        have hfiller : (' ' :: filler).count '\n' = n := (Filler.space hf).count_lineFeed
        rw [hline, List.count_append, List.count_append, hspelling, hfiller]
        omega

/-! ## 4. Texts -/

/-- Of all tokens only words need to be looked at. -/
theorem isWritable_of_words
    (hwords : ∀ w, Token.word w ∈ located.map Located.token →
      (tokenize w).map (List.map Located.token) = .ok [.word w]) :
    ∀ t ∈ located, t.token.IsWritable := by
  intro ⟨t, line⟩ ht
  cases t with
  | word w => exact isWritable_of_tokens_eq (hwords w (List.mem_map_of_mem ht))
  | symbol | operator | arrow | semicolon => trivial

/-- **The layout of a text does not change its tokens**: with spaces, line ends and comments between
them, the tokens are read as they were written, each on its line. -/
theorem tokenize_laidOut {lead text : List Char} (hlead : Filler lead n)
    (h : LaidOut (1 + n) located text)
    (hwords : ∀ w, Token.word w ∈ located.map Located.token →
      (tokenize w).map (List.map Located.token) = .ok [.word w]) :
    tokenize (String.ofList (lead ++ text)) = .ok located ∧
      ∀ us t vs, located = us ++ t :: vs → ∃ before after,
        text = before ++ t.token.spelling.toList ++ after ∧ LaidOut (1 + n) us before ∧
          t.line = 1 + (lead ++ before).count '\n' := by
  have hwritable := isWritable_of_words hwords
  refine ⟨?_, fun us t vs hsplit => ?_⟩
  · rw [tokenize, String.toList_ofList, tokenizeLines_filler hlead]
    exact tokenizeLines_laidOut h hwritable
  · subst hsplit
    obtain ⟨before, after, htext, hbefore, hline⟩ :=
      h.exists_before fun u hu => hwritable u (List.mem_append_left _ hu)
    refine ⟨before, after, htext, hbefore, ?_⟩
    rw [hline, List.count_append, hlead.count_lineFeed, Nat.add_assoc]

/-- Tokens that would mean something else if they stood elsewhere on their lines. -/
def hiddenMarks : List Located :=
  [⟨.symbol '\r', 2⟩, ⟨.word "a+#b", 4⟩, ⟨.arrow, 4⟩, ⟨.symbol '#', 5⟩, ⟨.semicolon, 5⟩,
    ⟨.symbol ' ', 5⟩]

/-- Their text, behind a first line. A carriage return is a symbol and ends a comment, and a quote
stands in it. -/
def hiddenMarksText : List Char := "'\r #\\'\r\n\n a+#b --> \n'# ; ' ".toList

theorem tokenize_laidOut_hiddenMarks :
    Filler "#'\r\n".toList 1 ∧ LaidOut 2 hiddenMarks hiddenMarksText ∧
    (∀ w, Token.word w ∈ hiddenMarks.map Located.token →
      (tokenize w).map (List.map Located.token) = .ok [.word w]) ∧
    tokenize (String.ofList ("#'\r\n".toList ++ hiddenMarksText)) = .ok hiddenMarks ∧
    ∃ before after, hiddenMarksText = before ++ "-->".toList ++ after ∧
      LaidOut 2 (hiddenMarks.take 2) before ∧ 4 = 1 + ("#'\r\n".toList ++ before).count '\n' := by
  have hlead : Filler "#'\r\n".toList 1 := @Filler.comment ['\'', '\r'] [] 0 (by decide) .nil
  have hfiller : Filler "#\\'\r\n\n ".toList 2 :=
    @Filler.comment ['\\', '\'', '\r'] ['\n', ' '] 1 (by decide) (.lineEnd (.space .nil))
  have htext : LaidOut 2 hiddenMarks hiddenMarksText :=
    .cons (.symbol '\r') hfiller (.cons (.word "a+#b") .nil (.cons .arrow (.lineEnd .nil)
      (.cons (.symbol '#') .nil (.cons .semicolon .nil (.last 5 (.symbol ' '))))))
  have hwords : ∀ w, Token.word w ∈ hiddenMarks.map Located.token →
      (tokenize w).map (List.map Located.token) = .ok [.word w] := by
    intro w hw
    have hw : w = "a+#b" := by simpa [hiddenMarks] using hw
    subst hw
    rfl
  obtain ⟨hread, hplace⟩ := tokenize_laidOut hlead htext hwords
  exact ⟨hlead, htext, hwords, hread,
    hplace (hiddenMarks.take 2) ⟨.arrow, 4⟩ (hiddenMarks.drop 3) rfl⟩

end Source

end RegularLanguages
