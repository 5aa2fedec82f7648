import Mathlib.Tactic.SplitIfs
import RegularLanguages.Source.Tokenization

/-!
# Writing and reading tokens

A line is read character by character. What is written first on it is read first, if the reader
can see where it ends: a symbol says so itself, a word goes on until a character that ends it.

* `IsRun` -- the runs of characters that are read as one token;
* `tokens?_spelling_append` -- **what is written is read back**, and the rest of the line after it;
* `isWritable_of_mem_ofLine?` -- **what is read could have been written** as it is.
-/

namespace RegularLanguages.Source

variable {c : Char} {s w : List Char} {t : Token} {ts : List Token}

/-! ## 1. Runs of characters -/

/-- A line whose first character, if there is one, ends the word before it. -/
def Closes (s : List Char) : Prop := ∀ c ∈ s.head?, endsWord c = true

theorem closes_nil : Closes [] := fun c h => by cases h

theorem closes_cons (h : endsWord c = true) : Closes (c :: s) := fun d hd => by
  cases hd
  exact h

/-- A run of characters that is read as one token: one with which a run begins, and others that do
not end it. -/
def IsRun (w : List Char) : Prop :=
  ∃ c cs, w = c :: cs ∧ Reading.begin c = ([], .word [c]) ∧ ∀ d ∈ cs, endsWord d = false

/-- A character that completes no token only changes what is read. -/
theorem tokens?_cons_silent {r q : Reading} (h : r.step c = ([], q)) :
    r.tokens? (c :: s) = q.tokens? s := by
  rw [Reading.tokens?, h]
  exact Option.map_id'

theorem tokens?_cons_completes {r q : Reading} (h : r.step c = ([t], q)) :
    r.tokens? (c :: s) = (q.tokens? s).map (t :: ·) := by
  rw [Reading.tokens?, h]
  rfl

/-- Blanks between tokens are skipped. -/
theorem tokens?_blank (h : Text.isBlank c = true) :
    Reading.between.tokens? (c :: s) = Reading.between.tokens? s :=
  tokens?_cons_silent (if_pos h)

/-- A word that has begun goes on with characters that do not end it. -/
theorem tokens?_word_append {letters : List Char} (h : ∀ d ∈ w, endsWord d = false) :
    (Reading.word letters).tokens? (w ++ s) = (Reading.word (w.reverse ++ letters)).tokens? s := by
  induction w generalizing letters with
  | nil => rfl
  | cons d w ih =>
    have hd : (Reading.word letters).step d = ([], .word (d :: letters)) := by
      rw [Reading.step, if_neg (by rw [h d List.mem_cons_self]; exact Bool.false_ne_true)]
    rw [List.cons_append, tokens?_cons_silent hd, ih fun e he => h e (List.mem_cons_of_mem d he),
      List.reverse_cons, List.append_assoc]
    rfl

/-- A word that has begun ends where the rest of the line closes it. -/
theorem tokens?_word_closes {letters : List Char} (h : Closes s) :
    (Reading.word letters).tokens? s =
      (Reading.between.tokens? s).map (.ofLetters letters.reverse :: ·) := by
  cases s with
  | nil => rfl
  | cons d s =>
    have hd : (Reading.word letters).step d =
        (.ofLetters letters.reverse :: (Reading.begin d).1, (Reading.begin d).2) := by
      rw [Reading.step, if_pos (h d rfl)]
    rw [Reading.tokens?, hd, Reading.tokens?, Option.map_map]
    rfl

/-- **A run is read as one token**, and the rest of the line after it. -/
theorem tokens?_run_append (hw : IsRun w) (hs : Closes s) :
    Reading.between.tokens? (w ++ s) = (Reading.between.tokens? s).map (.ofLetters w :: ·) := by
  obtain ⟨c, cs, rfl, hc, hcs⟩ := hw
  have hstep : Reading.between.step c = ([], .word [c]) := hc
  rw [List.cons_append, tokens?_cons_silent hstep, tokens?_word_append hcs, tokens?_word_closes hs,
    List.reverse_append, List.reverse_reverse]
  rfl

/-- No character of a run is a blank. -/
theorem IsRun.not_blank (hw : IsRun w) (hc : c ∈ w) : Text.isBlank c = false := by
  obtain ⟨d, cs, rfl, hd, hcs⟩ := hw
  rcases List.mem_cons.1 hc with rfl | hc
  · refine Bool.eq_false_iff.2 fun hblank => ?_
    rw [Reading.begin, if_pos hblank] at hd
    cases hd
  · have h := hcs c hc
    rw [endsWord, Bool.or_eq_false_iff, Bool.or_eq_false_iff] at h
    exact h.1.1

/-! ## 2. What is read could have been written -/

/-- The word that is being read is a run. -/
def Reading.Sound : Reading → Prop
  | .word letters => IsRun letters.reverse
  | _ => True

/-- A token is sound if it is no word or a run that is not the arrow. -/
def Token.Sound : Token → Prop
  | .word w => IsRun w.toList ∧ w.toList ≠ ['-', '-', '>']
  | _ => True

theorem Token.sound_ofLetters (hw : IsRun w) : (Token.ofLetters w).Sound := by
  unfold ofLetters
  split
  · trivial
  · rename_i hne
    rw [Sound, String.toList_ofList]
    exact ⟨hw, hne⟩

/-- A step is sound if it completes sound tokens only and goes on soundly. -/
def SoundStep (step : List Token × Reading) : Prop := (∀ t ∈ step.1, t.Sound) ∧ step.2.Sound

theorem SoundStep.silent {r : Reading} (h : r.Sound) : SoundStep ([], r) :=
  ⟨fun _ ht => absurd ht List.not_mem_nil, h⟩

theorem SoundStep.completes {r : Reading} (ht : t.Sound) (h : r.Sound) : SoundStep ([t], r) :=
  ⟨fun _ h => List.mem_singleton.1 h ▸ ht, h⟩

theorem Reading.sound_begin (c : Char) : SoundStep (begin c) := by
  by_cases h : begin c = ([], .word [c])
  · rw [h]
    exact .silent ⟨c, [], rfl, h, fun d hd => absurd hd List.not_mem_nil⟩
  · revert h
    unfold begin
    split_ifs
    · exact fun _ => .silent trivial
    · exact fun _ => .silent trivial
    · exact fun _ => .silent trivial
    · exact fun _ => .completes trivial trivial
    · split
      · exact fun _ => .completes trivial trivial
      · exact fun h => absurd rfl h

/-- **Every step is sound**: a word that is read is a run. -/
theorem Reading.sound_step {r : Reading} (hr : r.Sound) (c : Char) : SoundStep (r.step c) := by
  cases r with
  | between => exact sound_begin c
  | comment => exact .silent trivial
  | quote =>
    rw [step]
    split
    · exact .silent trivial
    · exact .completes trivial trivial
  | escape => exact .completes trivial trivial
  | word letters =>
    rw [step]
    split
    · refine ⟨fun t ht => ?_, (sound_begin c).2⟩
      rcases List.mem_cons.1 ht with rfl | ht
      · exact Token.sound_ofLetters hr
      · exact (sound_begin c).1 t ht
    · rename_i hc
      obtain ⟨d, cs, hd, hbegin, hcs⟩ := hr
      refine .silent ⟨d, cs ++ [c], ?_, hbegin, fun e he => ?_⟩
      · rw [List.reverse_cons, hd, List.cons_append]
      · rcases List.mem_append.1 he with he | he
        · exact hcs e he
        · exact List.mem_singleton.1 he ▸ Bool.eq_false_iff.2 hc

theorem Reading.sound_finish? {r : Reading} (hr : r.Sound) (h : r.finish? = some ts) :
    ∀ t ∈ ts, t.Sound := by
  cases r with
  | between | comment =>
    cases h
    exact fun t ht => absurd ht List.not_mem_nil
  | quote => cases h
  | escape =>
    cases h
    exact fun t ht => List.mem_singleton.1 ht ▸ trivial
  | word letters =>
    cases h
    exact fun t ht => List.mem_singleton.1 ht ▸ Token.sound_ofLetters hr

theorem Reading.sound_tokens? {r : Reading} (hr : r.Sound) (h : r.tokens? s = some ts) :
    ∀ t ∈ ts, t.Sound := by
  induction s generalizing r ts with
  | nil => exact sound_finish? hr h
  | cons c s ih =>
    have hstep := sound_step hr c
    obtain ⟨us, hus, rfl⟩ := Option.map_eq_some_iff.1 h
    intro t ht
    rcases List.mem_append.1 ht with ht | ht
    · exact hstep.1 t ht
    · exact ih hstep.2 hus t ht

theorem sound_of_mem_ofLine? (h : Token.ofLine? s = some ts) (ht : t ∈ ts) : t.Sound :=
  Reading.sound_tokens? (r := .between) trivial h t ht

theorem Token.sound_iff : t.Sound ↔ t.IsWritable := by
  cases t with
  | word w =>
    refine ⟨fun h => ?_, fun h => sound_of_mem_ofLine? h List.mem_cons_self⟩
    have hread := tokens?_run_append h.1 closes_nil
    rw [List.append_nil, Token.ofLetters, if_neg h.2, String.ofList_toList] at hread
    exact hread
  | symbol | operator | arrow | semicolon => exact Iff.rfl

/-- **What is read from a line could have been written** as it is. -/
theorem isWritable_of_mem_ofLine? (h : Token.ofLine? s = some ts) (ht : t ∈ ts) :
    t.IsWritable := Token.sound_iff.1 (sound_of_mem_ofLine? h ht)

/-! ## 3. What is written is read back -/

/-- A backslash behind a quote takes the character behind it as the symbol. -/
theorem tokens?_escape (c : Char) (s : List Char) :
    Reading.between.tokens? ('\'' :: '\\' :: c :: s) =
      (Reading.between.tokens? s).map (.symbol (Symbol.ofEscape c) :: ·) := by
  have hquote : Reading.between.step '\'' = ([], .quote) := rfl
  have hbackslash : Reading.quote.step '\\' = ([], .escape) := rfl
  rw [tokens?_cons_silent hquote, tokens?_cons_silent hbackslash]
  exact tokens?_cons_completes rfl

/-- Any other character behind a quote is the symbol. -/
theorem tokens?_quote (h : c ≠ '\\') (s : List Char) :
    Reading.between.tokens? ('\'' :: c :: s) =
      (Reading.between.tokens? s).map (.symbol c :: ·) := by
  have hquote : Reading.between.step '\'' = ([], .quote) := rfl
  rw [tokens?_cons_silent hquote]
  exact tokens?_cons_completes (if_neg h)

/-- A symbol is read back whatever follows it. -/
theorem tokens?_symbol_append (c : Symbol) (s : List Char) :
    Reading.between.tokens? ((Symbol.spelling c).toList ++ s) =
      (Reading.between.tokens? s).map (.symbol c :: ·) := by
  unfold Symbol.spelling
  split
  · exact tokens?_escape 'n' s
  · exact tokens?_escape 't' s
  · exact tokens?_escape '0' s
  · exact tokens?_escape '\\' s
  · exact tokens?_escape '\'' s
  · rename_i h _
    rw [String.toList_append, String.toList_singleton]
    exact tokens?_quote h s

theorem tokens?_operator_append (o : Regex.Operator) (s : List Char) :
    Reading.between.tokens? (o.spelling :: s) =
      (Reading.between.tokens? s).map (.operator o :: ·) := by
  cases o <;> rfl

/-- **What is written first is read first**, if what follows it closes it. -/
theorem tokens?_spelling_append (ht : t.IsWritable) (hs : Closes s) :
    Reading.between.tokens? (t.spelling.toList ++ s) =
      (Reading.between.tokens? s).map (t :: ·) := by
  cases t with
  | symbol c => exact tokens?_symbol_append c s
  | operator o =>
    rw [Token.spelling, String.toList_singleton]
    exact tokens?_operator_append o s
  | arrow =>
    refine tokens?_run_append ⟨'-', ['-', '>'], rfl, rfl, fun d hd => ?_⟩ hs
    rcases List.mem_cons.1 hd with rfl | hd
    · rfl
    · rw [List.mem_singleton.1 hd]
      rfl
  | semicolon => rfl
  | word w =>
    have hsound := Token.sound_iff.2 ht
    rw [Token.spelling, tokens?_run_append hsound.1 hs, Token.ofLetters, if_neg hsound.2,
      String.ofList_toList]

end RegularLanguages.Source
