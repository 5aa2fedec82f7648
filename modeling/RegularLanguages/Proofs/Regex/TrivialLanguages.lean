import RegularLanguages.Proofs.Regex.NormalForm
import RegularLanguages.Proofs.Regex.Simplification

/-!
# Which normal expressions have a trivial language

A normal expression shows at its root whether it has no word and whether its only word is the empty
one: `empty` cannot stand below an operator, so every symbol that is left at a leaf occurs in some
word, and where no symbol is left there is no operator either.

* `EmptyOnlyAlone`, `IsNormal.eq_empty` -- **`empty` occurs in a normal expression only as the whole
  of it**;
* `exists_denotes`, `EmptyOnlyAlone.eq_empty_iff` -- an expression in which `empty` does not occur
  has a word, so of those in which it stands alone only `empty` has none;
* `exists_denotes_of_mem_leaves` -- and every symbol at its leaves occurs in one of its words;
* `IsNormal.eq_nil_or_eq_empty` -- a normal expression without symbols is `nil` or `empty`;
* `simplify_decides_trivial` -- **so simplification decides the two trivial languages**.
-/

namespace RegularLanguages.Regex

variable {e : Regex} {c : Symbol}

/-! ## 1. Expressions in which `empty` occurs -/

/-- An expression in which `empty` does not occur, unless it is `empty`. -/
def EmptyOnlyAlone (e : Regex) : Prop := .empty ∈ e.subexpressions → e = .empty

/-- An expression without operators is one. -/
theorem emptyOnlyAlone_of_subexpressions (h : e.subexpressions = [e]) : e.EmptyOnlyAlone :=
  fun hmem => (List.mem_singleton.1 (h ▸ hmem)).symm

/-- Its proper subexpressions, which are those of its children, are free of `empty`. -/
theorem EmptyOnlyAlone.not_mem_children : ∀ {e : Regex}, e.EmptyOnlyAlone →
    ∀ f ∈ e.children, .empty ∉ f.subexpressions
  | .concat l r, he, f, hf, h => by
    rcases List.mem_pair.1 hf with rfl | rfl
    · exact nomatch he (empty_mem_concat.2 (Or.inl h))
    · exact nomatch he (empty_mem_concat.2 (Or.inr h))
  | .alt l r, he, f, hf, h => by
    rcases List.mem_pair.1 hf with rfl | rfl
    · exact nomatch he (empty_mem_alt.2 (Or.inl h))
    · exact nomatch he (empty_mem_alt.2 (Or.inr h))
  | .star e, he, f, hf, h => by
    obtain rfl := List.mem_singleton.1 hf
    exact nomatch he (empty_mem_star.2 h)
  | .symbol _, _, _, hf, _ | .nil, _, _, hf, _ | .empty, _, _, hf, _ => absurd hf List.not_mem_nil

/-- **A normal expression in which `empty` occurs is `empty`**: below an operator it makes a redex.
-/
theorem IsNormal.eq_empty : ∀ {e : Regex}, e.IsNormal → e.EmptyOnlyAlone
  | .concat l r, hn, h => by
    obtain ⟨hredex, hl, hr⟩ := isNormal_concat_iff.1 hn
    rcases empty_mem_concat.1 h with h | h
    · exact absurd (hl.eq_empty h ▸ .concatEmptyLeft r) hredex
    · exact absurd (hr.eq_empty h ▸ .concatEmptyRight l) hredex
  | .alt l r, hn, h => by
    obtain ⟨hredex, hl, hr⟩ := isNormal_alt_iff.1 hn
    rcases empty_mem_alt.1 h with h | h
    · exact absurd (hl.eq_empty h ▸ .altEmptyLeft r) hredex
    · exact absurd (hr.eq_empty h ▸ .altEmptyRight l) hredex
  | .star e, hn, h => by
    obtain ⟨hredex, he⟩ := isNormal_star_iff.1 hn
    exact absurd (he.eq_empty (empty_mem_star.1 h) ▸ .starEmpty) hredex
  | .symbol _, _, h | .nil, _, h => nomatch List.mem_singleton.1 h
  | .empty, _, _ => rfl

theorem IsNormal.empty_not_mem (hn : e.IsNormal) (h : e ≠ .empty) : .empty ∉ e.subexpressions :=
  fun hmem => h (hn.eq_empty hmem)

/-! ## 2. Words of expressions without `empty` -/

/-- An expression in which `empty` does not occur has a word. -/
theorem exists_denotes : ∀ {e : Regex}, .empty ∉ e.subexpressions → ∃ w, Denotes e w
  | .symbol c, _ => ⟨[c], .symbol c⟩
  | .concat l r, h => by
    rw [empty_mem_concat, not_or] at h
    obtain ⟨u, hu⟩ := exists_denotes h.1
    obtain ⟨v, hv⟩ := exists_denotes h.2
    exact ⟨u ++ v, .concat hu hv⟩
  | .alt l r, h => by
    rw [empty_mem_alt, not_or] at h
    obtain ⟨w, hw⟩ := exists_denotes h.1
    exact ⟨w, .left hw⟩
  | .star _, _ => ⟨[], .stop⟩
  | .nil, _ => ⟨[], .nil⟩
  | .empty, h => absurd List.mem_cons_self h

/-- Where `empty` stands alone, the expression without words is `empty`. -/
theorem EmptyOnlyAlone.eq_empty_iff (he : e.EmptyOnlyAlone) :
    e = .empty ↔ ∀ w, ¬ Denotes e w := by
  constructor
  · intro hempty w h
    rw [hempty] at h
    cases h
  · intro h
    by_contra hne
    obtain ⟨w, hw⟩ := exists_denotes fun hmem => hne (he hmem)
    exact h w hw

/-- **Every symbol at its leaves occurs in one of its words.** The other side of a concatenation
has a word that completes the one in which the symbol occurs. -/
theorem exists_denotes_of_mem_leaves : ∀ {e : Regex}, .empty ∉ e.subexpressions → c ∈ e.leaves →
    ∃ w, c ∈ w ∧ Denotes e w
  | .symbol d, _, hc => ⟨[d], hc, .symbol d⟩
  | .concat l r, h, hc => by
    rw [empty_mem_concat, not_or] at h
    rcases List.mem_append.1 hc with hc | hc
    · obtain ⟨u, hcu, hu⟩ := exists_denotes_of_mem_leaves h.1 hc
      obtain ⟨v, hv⟩ := exists_denotes h.2
      exact ⟨u ++ v, List.mem_append_left v hcu, .concat hu hv⟩
    · obtain ⟨u, hu⟩ := exists_denotes h.1
      obtain ⟨v, hcv, hv⟩ := exists_denotes_of_mem_leaves h.2 hc
      exact ⟨u ++ v, List.mem_append_right u hcv, .concat hu hv⟩
  | .alt l r, h, hc => by
    rw [empty_mem_alt, not_or] at h
    rcases List.mem_append.1 hc with hc | hc
    · obtain ⟨w, hcw, hw⟩ := exists_denotes_of_mem_leaves h.1 hc
      exact ⟨w, hcw, .left hw⟩
    · obtain ⟨w, hcw, hw⟩ := exists_denotes_of_mem_leaves h.2 hc
      exact ⟨w, hcw, .right hw⟩
  | .star e, h, hc => by
    rw [empty_mem_star] at h
    obtain ⟨u, hcu, hu⟩ := exists_denotes_of_mem_leaves h hc
    exact ⟨u ++ [], List.mem_append_left [] hcu, .again hu .stop⟩
  | .nil, _, hc | .empty, _, hc => absurd hc List.not_mem_nil

/-! ## 3. Normal expressions without symbols -/

/-- **A normal expression without symbols is `nil` or `empty`**: over these two every operator is a
redex. -/
theorem IsNormal.eq_nil_or_eq_empty : ∀ {e : Regex}, e.IsNormal → e.leaves = [] →
    e = .nil ∨ e = .empty
  | .concat l r, hn, h => by
    obtain ⟨hredex, hl, -⟩ := isNormal_concat_iff.1 hn
    rcases hl.eq_nil_or_eq_empty (List.append_eq_nil_iff.1 h).1 with rfl | rfl
    · exact absurd (.concatNilLeft r) hredex
    · exact absurd (.concatEmptyLeft r) hredex
  | .alt l r, hn, h => by
    obtain ⟨hredex, hl, hr⟩ := isNormal_alt_iff.1 hn
    obtain ⟨hl', hr'⟩ := List.append_eq_nil_iff.1 h
    rcases hl.eq_nil_or_eq_empty hl' with rfl | rfl
    · rcases hr.eq_nil_or_eq_empty hr' with rfl | rfl
      · exact absurd (.altSame .nil) hredex
      · exact absurd (.altEmptyRight .nil) hredex
    · exact absurd (.altEmptyLeft r) hredex
  | .star e, hn, h => by
    obtain ⟨hredex, he⟩ := isNormal_star_iff.1 hn
    rcases he.eq_nil_or_eq_empty h with rfl | rfl
    · exact absurd .starNil hredex
    · exact absurd .starEmpty hredex
  | .symbol _, _, h => nomatch h
  | .nil, _, _ => .inl rfl
  | .empty, _, _ => .inr rfl

/-! ## 4. The trivial languages -/

/-- The normal expression without words is `empty`. -/
theorem IsNormal.eq_empty_iff (hn : e.IsNormal) : e = .empty ↔ ∀ w, ¬ Denotes e w :=
  hn.eq_empty.eq_empty_iff

/-- The normal expression whose only word is the empty one is `nil`. -/
theorem IsNormal.eq_nil_iff (hn : e.IsNormal) : e = .nil ↔ ∀ w, Denotes e w ↔ w = [] := by
  constructor
  · intro he w
    rw [he]
    exact isDenotation_denotes.nil w
  · intro h
    have hne : e ≠ .empty := fun he => hn.eq_empty_iff.1 he [] ((h []).2 rfl)
    -- a symbol at a leaf would occur in a word, and the only word is empty
    have hleaves : e.leaves = [] := List.eq_nil_iff_forall_not_mem.2 fun c hc => by
      obtain ⟨w, hcw, hw⟩ := exists_denotes_of_mem_leaves (hn.empty_not_mem hne) hc
      rw [(h w).1 hw] at hcw
      exact List.not_mem_nil hcw
    exact (hn.eq_nil_or_eq_empty hleaves).resolve_right hne

/-- Simplification keeps the words. -/
theorem denotes_simplify_iff {w : Word} : Denotes e.simplify w ↔ Denotes e w := by
  rw [← mem_language, language_simplify, mem_language]

/-- **Simplification decides the trivial languages**: an expression becomes `empty` iff it matches
no word at all, and `nil` iff it matches the empty word and nothing else. -/
theorem simplify_decides_trivial (e : Regex) :
    (e.simplify = .empty ↔ ∀ w, e.accepts w = false) ∧
      (e.simplify = .nil ↔ ∀ w, e.accepts w = true ↔ w = []) := by
  have hn : e.simplify.IsNormal := isNormal_simplify e
  have haccepts : ∀ w, e.accepts w = true ↔ Denotes e w := fun w => accepts_iff
  constructor
  · rw [hn.eq_empty_iff]
    simp only [denotes_simplify_iff, ← haccepts, Bool.not_eq_true]
  · rw [hn.eq_nil_iff]
    simp only [denotes_simplify_iff, haccepts]

end RegularLanguages.Regex
