import Mathlib.Computability.Language
import RegularLanguages.Regex.Matching

/-!
# The algebra of denotations

The words of an expression form a language, and the six forms of expressions are the operations of
the Kleene algebra of languages.

* `Regex.language` -- the words of an expression as a language;
* `language_concat`, `language_alt`, `language_star`, … -- one equation for each form;
* `isIterated_iff` -- a word can be cut into accepted pieces iff it is a sequence of such pieces;
* `accepts_iff` -- **the matcher decides the language**;
* `isDenotation_iff` -- that language is what the six forms mean, and nothing else is;
* `accepts_decides_denotation` -- **so the matcher decides what an expression means**.
-/

open Computability

namespace RegularLanguages

/-! ## 1. The language of an expression -/

namespace Regex

/-- The words of an expression. -/
def language (e : Regex) : Language Symbol := { w | Denotes e w }

theorem mem_language {e : Regex} {w : Word} : w ∈ e.language ↔ Denotes e w := Iff.rfl

@[simp] theorem language_empty : language .empty = 0 := by
  ext w
  constructor
  · intro h
    cases h
  · exact fun h => absurd h (Language.notMem_zero w)

@[simp] theorem language_nil : language .nil = 1 := by
  ext w
  rw [mem_language, Language.mem_one]
  exact ⟨fun h => by cases h; rfl, fun h => h ▸ .nil⟩

theorem mem_language_symbol {c : Symbol} {w : Word} : w ∈ language (.symbol c) ↔ w = [c] :=
  ⟨fun h => by cases h; rfl, fun h => h ▸ Denotes.symbol c⟩

@[simp] theorem language_alt (l r : Regex) : language (.alt l r) = l.language + r.language := by
  ext w
  rw [Language.mem_add]
  constructor
  · intro h
    cases h with
    | left h => exact Or.inl h
    | right h => exact Or.inr h
  · exact fun h => h.elim Denotes.left Denotes.right

@[simp] theorem language_concat (l r : Regex) :
    language (.concat l r) = l.language * r.language := by
  ext w
  rw [Language.mem_mul]
  refine ⟨fun h => ?_, fun h => ?_⟩
  · cases h with
    | concat hu hv => exact ⟨_, hu, _, hv, rfl⟩
  · obtain ⟨u, hu, v, hv, rfl⟩ := h
    exact Denotes.concat hu hv

/-- A repetition stands for the words of any number of pieces. -/
theorem denotes_star_flatten {e : Regex} : ∀ {pieces : List Word},
    (∀ u ∈ pieces, Denotes e u) → Denotes (.star e) pieces.flatten
  | [], _ => .stop
  | u :: _, h => .again (h u List.mem_cons_self)
      (denotes_star_flatten fun v hv => h v (List.mem_cons_of_mem u hv))

theorem pieces_of_denotes_star {e f : Regex} {w : Word} (h : Denotes f w) (hf : f = .star e) :
    ∃ pieces : List Word, w = pieces.flatten ∧ ∀ u ∈ pieces, Denotes e u := by
  induction h with
  | symbol | concat | left | right | nil => cases hf
  | stop => exact ⟨[], rfl, fun u hu => absurd hu List.not_mem_nil⟩
  | @again _ u v hu _ _ ih =>
    cases hf
    obtain ⟨pieces, rfl, hp⟩ := ih rfl
    exact ⟨u :: pieces, rfl, fun p h => (List.mem_cons.1 h).elim (fun e => e ▸ hu) (hp p)⟩

@[simp] theorem language_star (e : Regex) : language (.star e) = e.language∗ := by
  ext w
  rw [Language.mem_kstar]
  constructor
  · exact fun h => pieces_of_denotes_star h rfl
  · intro h'
    obtain ⟨pieces, rfl, h⟩ := h'
    exact denotes_star_flatten h

end Regex

/-! ## 2. Cutting a word into pieces -/

/-- The first piece that a cut takes begins with what has been read of it. -/
theorem isIteratedFrom_iff {test : Word → Bool} : ∀ {piece w : Word},
    isIteratedFrom test piece w = true ↔ (piece = [] ∧ w = []) ∨
      ∃ u v, u ≠ [] ∧ u ++ v = w ∧ test (piece ++ u) = true ∧ isIterated test v = true
  | piece, [] => by
    rw [isIteratedFrom, List.isEmpty_iff]
    refine ⟨fun h => Or.inl ⟨h, rfl⟩, fun h => h.elim And.left ?_⟩
    intro h'
    obtain ⟨u, v, hu, e, _⟩ := h'
    exact absurd (List.append_eq_nil_iff.1 e).1 hu
  | piece, c :: w => by
    rw [isIteratedFrom, Bool.or_eq_true, Bool.and_eq_true,
      @isIteratedFrom_iff test (piece ++ [c]) w]
    refine ⟨fun h => ?_, fun h => ?_⟩
    · rcases h with ⟨ht, hw⟩ | ⟨h, _⟩ | ⟨u, v, _, rfl, ht, hv⟩
      · exact Or.inr ⟨[c], w, List.cons_ne_nil c [], rfl, ht, hw⟩
      · exact absurd h (List.append_ne_nil_of_right_ne_nil piece (List.cons_ne_nil c []))
      · refine Or.inr ⟨c :: u, v, List.cons_ne_nil c u, rfl, ?_, hv⟩
        rwa [List.append_assoc] at ht
    · rcases h with ⟨_, h⟩ | ⟨u, v, hu, e, ht, hv⟩
      · exact absurd h (List.cons_ne_nil c w)
      · match u, hu, e with
        | [d], _, e =>
          obtain ⟨rfl, rfl⟩ := List.cons.inj e
          exact Or.inl ⟨ht, hv⟩
        | d :: d' :: u, _, e =>
          obtain ⟨rfl, e'⟩ := List.cons.inj e
          refine Or.inr (Or.inr ⟨d' :: u, v, List.cons_ne_nil d' u, e', ?_, hv⟩)
          rwa [List.append_assoc]

/-- Pieces in front of a word that can be cut leave one that can be cut; empty ones do not count.
-/
theorem isIterated_flatten {test : Word → Bool} : ∀ {pieces : List Word},
    (∀ u ∈ pieces, test u = true) → isIterated test pieces.flatten = true
  | [], _ => rfl
  | [] :: pieces, h =>
    @isIterated_flatten test pieces fun v hv => h v (List.mem_cons_of_mem [] hv)
  | (c :: u) :: pieces, h =>
    isIteratedFrom_iff.2 (Or.inr ⟨c :: u, pieces.flatten, List.cons_ne_nil c u, rfl,
      h _ List.mem_cons_self, isIterated_flatten fun v hv => h v (List.mem_cons_of_mem _ hv)⟩)

/-- The pieces of a word that can be cut. -/
theorem pieces_of_isIterated {test : Word → Bool} {w : Word} (h : isIterated test w = true) :
    ∃ pieces : List Word, w = pieces.flatten ∧ ∀ u ∈ pieces, test u = true := by
  rcases isIteratedFrom_iff.1 h with ⟨_, rfl⟩ | ⟨u, v, hu, rfl, ht, hv⟩
  · exact ⟨[], rfl, fun u hu => absurd hu List.not_mem_nil⟩
  · have hlen : v.length < (u ++ v).length := by
      have := List.length_pos_iff.2 hu
      rw [List.length_append]
      omega
    obtain ⟨pieces, rfl, hp⟩ := pieces_of_isIterated hv
    exact ⟨u :: pieces, rfl, fun p h => (List.mem_cons.1 h).elim (fun e => e ▸ ht) (hp p)⟩
termination_by w.length

theorem isIterated_iff {test : Word → Bool} {w : Word} : isIterated test w = true ↔
    ∃ pieces : List Word, w = pieces.flatten ∧ ∀ u ∈ pieces, test u = true :=
  ⟨pieces_of_isIterated, fun ⟨_, e, h⟩ => e ▸ isIterated_flatten h⟩

/-! ## 3. The matcher -/

namespace Regex

/-- **The matcher decides the language of an expression.** -/
theorem accepts_iff : ∀ {e : Regex} {w : Word}, e.accepts w = true ↔ w ∈ e.language
  | .symbol c, w => by rw [accepts, beq_iff_eq, mem_language_symbol]
  | .nil, w => by rw [accepts, List.isEmpty_iff, language_nil, Language.mem_one]
  | .empty, w => by
    rw [accepts, language_empty]
    exact ⟨fun h => absurd h Bool.false_ne_true, fun h => absurd h (Language.notMem_zero w)⟩
  | .alt l r, w => by
    rw [accepts, Bool.or_eq_true, accepts_iff, accepts_iff, language_alt, Language.mem_add]
  | .concat l r, w => by
    rw [accepts, anyCut_iff, language_concat, Language.mem_mul]
    refine ⟨fun h => ?_, fun h => ?_⟩
    · obtain ⟨u, v, e, h⟩ := h
      rw [Bool.and_eq_true, accepts_iff, accepts_iff] at h
      exact ⟨u, h.1, v, h.2, e⟩
    · obtain ⟨u, hu, v, hv, e⟩ := h
      refine ⟨u, v, e, ?_⟩
      rw [Bool.and_eq_true, accepts_iff, accepts_iff]
      exact ⟨hu, hv⟩
  | .star e, w => by
    rw [accepts, isIterated_iff, language_star, Language.mem_kstar]
    have h : ∀ u, e.accepts u = true ↔ u ∈ e.language := fun u => accepts_iff
    simp only [h]

/-! ## 4. The denotation -/

theorem isDenotation_denotes : IsDenotation Denotes where
  symbol c w := mem_language_symbol
  concat l r w := by
    rw [← mem_language, language_concat, Language.mem_mul]
    constructor
    · rintro ⟨u, hu, v, hv, rfl⟩
      exact ⟨u, v, rfl, hu, hv⟩
    · rintro ⟨u, v, rfl, hu, hv⟩
      exact ⟨u, hu, v, hv, rfl⟩
  alt l r w := by
    rw [← mem_language, language_alt, Language.mem_add]
    exact Iff.rfl
  star e w := by
    rw [← mem_language, language_star, Language.mem_kstar]
    exact Iff.rfl
  nil w := by rw [← mem_language, language_nil, Language.mem_one]
  empty w := by
    rw [← mem_language, language_empty]
    exact Language.notMem_zero w

/-- Denotations agree: what the six forms mean leaves no choice. -/
theorem IsDenotation.iff {L M : Regex → Word → Prop} (hL : IsDenotation L) (hM : IsDenotation M) :
    ∀ e w, L e w ↔ M e w
  | .symbol c, w => by rw [hL.symbol, hM.symbol]
  | .concat l r, w => by rw [hL.concat, hM.concat]; simp only [hL.iff hM l, hL.iff hM r]
  | .alt l r, w => by rw [hL.alt, hM.alt, hL.iff hM l, hL.iff hM r]
  | .star e, w => by rw [hL.star, hM.star]; simp only [hL.iff hM e]
  | .nil, w => by rw [hL.nil, hM.nil]
  | .empty, w => iff_of_false (hL.empty w) (hM.empty w)

/-- **There is one denotation**, up to the form in which it is given. -/
theorem isDenotation_iff {L : Regex → Word → Prop} :
    IsDenotation L ↔ ∀ e w, L e w ↔ Denotes e w := by
  refine ⟨fun h => h.iff isDenotation_denotes, fun h => ?_⟩
  have e : L = Denotes := funext fun e => funext fun w => propext (h e w)
  exact e ▸ isDenotation_denotes

/-- **The matcher decides the denotation of an expression**: a word is matched iff it is one of the
words that the expression denotes. To denote is to read concatenation as the set of products,
alternative as the union and repetition as the set of all finite products, and nothing else is. -/
theorem accepts_decides_denotation : (∀ (e : Regex) w, e.accepts w = true ↔ Denotes e w) ∧
    ∀ L, IsDenotation L ↔ ∀ e w, L e w ↔ Denotes e w :=
  ⟨fun _ _ => accepts_iff, fun _ => isDenotation_iff⟩

end Regex

end RegularLanguages
