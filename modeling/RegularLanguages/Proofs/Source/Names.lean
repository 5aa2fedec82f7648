import RegularLanguages.Proofs.Source.Token

/-!
# Names that can be written

A name of a state can be written in a description if it is read as one word, and if this word does
not end the list in which it stands. Names are made from other names by joining them with commas
and by numbering them, and what is made can still be written.

* `IsName` -- such names; `IsName.append` lengthens them;
* `IsName.joined`, `IsName.numbered`, `IsName.counted` -- **joined and numbered names are names**.
-/

namespace RegularLanguages.Source

variable {c : Char} {n u : String} {ns : List String}

/-- A name that can be written in a description. -/
structure IsName (n : String) : Prop where
  /-- It is read as one word. -/
  isWritable : (Token.word n).IsWritable
  /-- It does not end a list of names. -/
  ne_end : n ≠ "end"

/-! ## 1. Characters of names -/

/-- No character of a run ends a word, the first one included. -/
theorem IsRun.not_endsWord {w : List Char} (hw : IsRun w) (hc : c ∈ w) : endsWord c = false := by
  have hblank := hw.not_blank hc
  obtain ⟨d, cs, rfl, hd, hcs⟩ := hw
  rcases List.mem_cons.1 hc with rfl | hc
  · refine Bool.eq_false_iff.2 fun hends => ?_
    rw [endsWord, hblank, Bool.false_or, Bool.or_eq_true, beq_iff_eq, beq_iff_eq] at hends
    rcases hends with rfl | rfl <;> cases hd
  · exact hcs c hc

theorem IsName.not_endsWord (hn : IsName n) (hc : c ∈ n.toList) : endsWord c = false :=
  (Token.sound_iff.2 hn.isWritable).1.not_endsWord hc

/-- **A name goes on with characters that end no word.** One of them has to be none of the arrow
and none of the word `end`. -/
theorem IsName.append (hn : IsName n) (hu : ∀ c ∈ u.toList, endsWord c = false)
    (hc : c ∈ u.toList) (hnew : c ∉ ['-', '>', 'e', 'n', 'd']) : IsName (n ++ u) := by
  obtain ⟨d, cs, hn, hd, hcs⟩ := (Token.sound_iff.2 hn.isWritable).1
  have hmem : c ∈ (n ++ u).toList := by
    rw [String.toList_append]
    exact List.mem_append_right _ hc
  constructor
  · refine Token.sound_iff.1 ⟨⟨d, cs ++ u.toList, ?_, hd, fun e he => ?_⟩, fun e => ?_⟩
    · rw [String.toList_append, hn, List.cons_append]
    · exact (List.mem_append.1 he).elim (hcs e) (hu e)
    · rw [e] at hmem
      exact hnew ((by decide : ['-', '-', '>'] ⊆ ['-', '>', 'e', 'n', 'd']) hmem)
  · intro e
    rw [e] at hmem
    exact hnew ((by decide : "end".toList ⊆ ['-', '>', 'e', 'n', 'd']) hmem)

/-! ## 2. Names made from names -/

theorem endsWord_of_isDigit (hc : c.isDigit = true) : endsWord c = false := by
  have hrange : 48 ≤ c.toNat ∧ c.toNat ≤ 57 := by
    rw [Char.isDigit, Bool.and_eq_true, decide_eq_true_eq, decide_eq_true_eq] at hc
    exact hc
  have hblank : Text.isBlank c = false := by
    simp only [Text.isBlank, Text.blanks, Text.CharRanges.contains, List.any_cons, List.any_nil,
      Bool.or_eq_false_iff, Bool.and_eq_false_iff, decide_eq_false_iff_not, and_true]
    omega
  have hsemicolon : c ≠ ';' := by rintro rfl; revert hrange; decide
  have hquote : c ≠ '\'' := by rintro rfl; revert hrange; decide
  rw [endsWord, hblank, Bool.false_or, Bool.or_eq_false_iff, beq_eq_false_iff_ne,
    beq_eq_false_iff_ne]
  exact ⟨hsemicolon, hquote⟩

theorem isDigit_of_mem_toString {i : Nat} (hc : c ∈ (toString i).toList) : c.isDigit = true := by
  have hdigits : (toString i).toList = Nat.toDigits 10 i := Nat.toList_repr
  rw [hdigits] at hc
  exact Nat.isDigit_of_mem_toDigits (by decide) (by decide) hc

/-- **Joined names are a name.** -/
theorem IsName.joined (h : ∀ n ∈ ns, IsName n) (hne : ns ≠ []) : IsName (",".intercalate ns) := by
  induction ns with
  | nil => exact absurd rfl hne
  | cons n ns ih =>
    have hn := h n List.mem_cons_self
    cases ns with
    | nil => rwa [String.intercalate_singleton]
    | cons m ns =>
      have hrest := ih (fun k hk => h k (List.mem_cons_of_mem n hk)) (List.cons_ne_nil m ns)
      rw [String.intercalate_cons_cons, String.append_assoc]
      refine hn.append (c := ',') (fun e he => ?_) ?_ (by decide)
      · rw [String.toList_append] at he
        rcases List.mem_append.1 he with he | he
        · rw [List.mem_singleton.1 he]
          decide
        · exact hrest.not_endsWord he
      · rw [String.toList_append]
        exact List.mem_append_left _ List.mem_cons_self

/-- **A numbered name is a name.** -/
theorem IsName.numbered (hn : IsName n) (i : Nat) : IsName (n ++ "." ++ toString i) := by
  rw [String.append_assoc]
  refine hn.append (c := '.') (fun e he => ?_) ?_ (by decide)
  · rw [String.toList_append] at he
    rcases List.mem_append.1 he with he | he
    · rw [List.mem_singleton.1 he]
      decide
    · exact endsWord_of_isDigit (isDigit_of_mem_toString he)
  · rw [String.toList_append]
    exact List.mem_append_left _ List.mem_cons_self

/-- A name and a number make a name. -/
theorem IsName.counted (hn : IsName n) (i : Nat) : IsName (n ++ toString i) := by
  obtain ⟨e, he⟩ := List.exists_mem_of_ne_nil (toString i).toList
    (Nat.toList_repr (n := i) ▸ Nat.toDigits_ne_nil)
  have hdigit := isDigit_of_mem_toString he
  refine hn.append (fun e he => endsWord_of_isDigit (isDigit_of_mem_toString he)) he fun hmem => ?_
  simp only [List.mem_cons, List.not_mem_nil, or_false] at hmem
  rcases hmem with rfl | rfl | rfl | rfl | rfl <;> cases hdigit

end RegularLanguages.Source
