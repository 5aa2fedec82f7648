import RegularLanguages.Proofs.Ordered.Set
import RegularLanguages.Proofs.Regex.Simplification

/-!
# The symbols of an expression

The symbols of an expression are found with a stack, and they are those at its leaves. Every word of
the expression is made of them, and no identity that is applied to an expression brings a symbol in.

* `collect_eq` -- the stack of the search yields the leaves of its expressions, from the top on;
* `toList_symbols` -- **so the symbols of an expression are its leaves**, first occurrences only;
* `mem_symbols_of_accepts` -- **what is matched consists of symbols of the expression**;
* `leaves_sequence_subset`, `leaves_choice_subset`, `leaves_repetition_subset` -- the constructors
  that apply identities stay within the symbols of their arguments;
* `leaves_simplify_subset` -- so does simplification;
* `simplify_keeps_words` -- **a simplified expression matches the same words**, and has no further
  symbols.
-/

namespace RegularLanguages

/-! ## 1. First occurrences -/

namespace OrderedSet

variable {α : Type} [DecidableEq α]

/-- The set of a list holds the first occurrences in the list, in their order. -/
theorem toList_ofList (l : List α) : (ofList l).toList = l.eraseDups := by
  induction l using List.reverseRecOn with
  | nil => rfl
  | append_singleton l a ih =>
    have hlast : ofList (l ++ [a]) = (ofList l).insert a := List.foldl_append
    have hsingle : [a].eraseDups = [a] := rfl
    rw [hlast, toList_insert, ih, List.eraseDups_append]
    by_cases ha : a ∈ l <;> simp [ha, List.removeAll, hsingle]

end OrderedSet

namespace Regex

variable {e l r : Regex} {w : Word} {c : Symbol} {cs : List Symbol}

/-! ## 2. The search -/

/-- **A stack yields the leaves of its expressions, from the top on.** What has been found comes
first, and nothing is found twice. -/
theorem collect_eq (stack : List Regex) (found : OrderedSet Symbol) :
    collect stack found = found.append (stack.flatMap leaves) := by
  -- one case for each form of the expression on top
  fun_induction collect stack found with
  | case1 found => rfl
  | case2 found c rest ih =>
    show collect rest (found.insert c) = found.append ([c] ++ rest.flatMap leaves)
    rw [ih]
    rfl
  | case3 found l r rest ih =>
    show collect (l :: r :: rest) found = found.append (l.leaves ++ r.leaves ++ rest.flatMap leaves)
    rw [ih, List.flatMap_cons, List.flatMap_cons, List.append_assoc]
  | case4 found l r rest ih =>
    show collect (l :: r :: rest) found = found.append (l.leaves ++ r.leaves ++ rest.flatMap leaves)
    rw [ih, List.flatMap_cons, List.flatMap_cons, List.append_assoc]
  | case5 found e rest ih =>
    show collect (e :: rest) found = found.append (e.leaves ++ rest.flatMap leaves)
    rw [ih, List.flatMap_cons]
  | case6 found rest ih => exact ih
  | case7 found rest ih => exact ih

theorem symbols_eq (e : Regex) : e.symbols = .ofList e.leaves := by
  unfold symbols
  rw [collect_eq, List.flatMap_singleton]
  rfl

theorem symbols_concat (l r : Regex) :
    (concat l r).symbols = l.symbols.append r.symbols.toList := by
  rw [symbols_eq, symbols_eq, symbols_eq]
  exact OrderedSet.ofList_append l.leaves r.leaves

theorem symbols_alt (l r : Regex) : (alt l r).symbols = l.symbols.append r.symbols.toList := by
  -- both operators have the leaves of their two sides
  rw [← symbols_concat, symbols_eq, symbols_eq]
  rfl

theorem symbols_star (e : Regex) : (star e).symbols = e.symbols := by
  rw [symbols_eq, symbols_eq]
  rfl

/-- **The symbols of an expression are those at its leaves**, from left to right, first occurrences
only. -/
theorem toList_symbols (e : Regex) : e.symbols.toList = e.leaves.eraseDups := by
  rw [symbols_eq]
  exact OrderedSet.toList_ofList e.leaves

theorem mem_symbols : c ∈ e.symbols ↔ c ∈ e.leaves := by
  rw [symbols_eq]
  exact OrderedSet.mem_ofList

/-! ## 3. Words -/

/-- The words of an expression are made of the symbols at its leaves. -/
theorem mem_leaves_of_denotes (h : Denotes e w) (hc : c ∈ w) : c ∈ e.leaves := by
  induction h with
  | symbol d => exact hc
  | concat _ _ ihu ihv =>
    rw [leaves, List.mem_append]
    exact (List.mem_append.1 hc).imp ihu ihv
  | left _ ih => exact List.mem_append_left _ (ih hc)
  | right _ ih => exact List.mem_append_right _ (ih hc)
  | stop => exact absurd hc List.not_mem_nil
  | again _ _ ihu ihv => exact (List.mem_append.1 hc).elim ihu ihv
  | nil => exact absurd hc List.not_mem_nil

/-- **What is matched consists of symbols of the expression.** -/
theorem mem_symbols_of_accepts (h : e.accepts w = true) (hc : c ∈ w) : c ∈ e.symbols :=
  mem_symbols.2 (mem_leaves_of_denotes (accepts_iff.1 h) hc)

/-! ## 4. Constructors that apply identities -/

theorem leaves_concat_subset : (concat l r).leaves ⊆ cs ↔ l.leaves ⊆ cs ∧ r.leaves ⊆ cs :=
  List.append_subset

theorem leaves_alt_subset : (alt l r).leaves ⊆ cs ↔ l.leaves ⊆ cs ∧ r.leaves ⊆ cs :=
  List.append_subset

theorem leaves_sequence_subset (hl : l.leaves ⊆ cs) (hr : r.leaves ⊆ cs) :
    (sequence l r).leaves ⊆ cs := by
  fun_cases sequence l r
  · exact hl
  · exact hr
  · exact hr
  · exact hl
  · exact leaves_concat_subset.2 ⟨hl, hr⟩

theorem leaves_choice_subset (hl : l.leaves ⊆ cs) (hr : r.leaves ⊆ cs) :
    (choice l r).leaves ⊆ cs := by
  fun_cases choice l r
  · exact hr
  · exact hl
  · exact hl
  · exact leaves_alt_subset.2 ⟨hl, hr⟩

theorem leaves_repetition_subset (h : e.leaves ⊆ cs) : (repetition e).leaves ⊆ cs := by
  fun_cases repetition e
  · exact h
  · exact h
  · exact h

/-! ## 5. Simplification -/

theorem leaves_reduceConcat_subset (hl : l.leaves ⊆ cs) (hr : r.leaves ⊆ cs) :
    (reduceConcat l r).leaves ⊆ cs := by
  fun_cases reduceConcat l r
  · exact hl
  · exact hr
  · exact hr
  · exact hl
  · obtain ⟨ha, hb⟩ := leaves_concat_subset.1 hl
    exact leaves_concat_subset.2 ⟨ha, leaves_concat_subset.2 ⟨hb, hr⟩⟩
  · exact leaves_concat_subset.2 ⟨hl, hr⟩

theorem leaves_reduceAltOfNe_subset (hl : l.leaves ⊆ cs) (hr : r.leaves ⊆ cs) :
    (reduceAltOfNe l r).leaves ⊆ cs := by
  fun_cases reduceAltOfNe l r
  · exact hr
  · exact hl
  · obtain ⟨ha, hb⟩ := leaves_alt_subset.1 hl
    exact leaves_alt_subset.2 ⟨ha, leaves_alt_subset.2 ⟨hb, hr⟩⟩
  · exact hr
  · exact leaves_alt_subset.2 ⟨hl, hr⟩
  · exact leaves_alt_subset.2 ⟨hl, hr⟩

theorem leaves_reduceAlt_subset (hl : l.leaves ⊆ cs) (hr : r.leaves ⊆ cs) :
    (reduceAlt l r).leaves ⊆ cs := by
  fun_cases reduceAlt l r
  · exact hr
  · exact hl
  · exact hl
  · exact leaves_reduceAltOfNe_subset hl hr

theorem leaves_reduceStar_subset (h : e.leaves ⊆ cs) : (reduceStar e).leaves ⊆ cs := by
  fun_cases reduceStar e
  · exact h
  · exact h
  · exact h
  · exact h

theorem leaves_pass_subset : ∀ e : Regex, e.pass.leaves ⊆ e.leaves
  | .symbol _ | .nil | .empty => List.Subset.refl _
  | .concat l r =>
    leaves_reduceConcat_subset
      (List.Subset.trans (leaves_pass_subset l) (List.subset_append_left _ _))
      (List.Subset.trans (leaves_pass_subset r) (List.subset_append_right _ _))
  | .alt l r =>
    leaves_reduceAlt_subset
      (List.Subset.trans (leaves_pass_subset l) (List.subset_append_left _ _))
      (List.Subset.trans (leaves_pass_subset r) (List.subset_append_right _ _))
  | .star e => leaves_reduceStar_subset (leaves_pass_subset e)

/-- **Simplification brings no symbol in.** -/
theorem leaves_simplify_subset (e : Regex) : e.simplify.leaves ⊆ e.leaves :=
  simplify_of_pass (fun f hf => List.Subset.trans (leaves_pass_subset f) hf) e
    (List.Subset.refl _)

/-- **Simplification keeps the language and brings no symbol in**: a simplified expression matches
the same words, and its symbols are among those of the expression. -/
theorem simplify_keeps_words (e : Regex) : (∀ w, e.simplify.accepts w = e.accepts w) ∧
    e.simplify.symbols.toList ⊆ e.symbols.toList := by
  refine ⟨fun w => ?_, fun c hc => ?_⟩
  · rw [Bool.eq_iff_iff, accepts_iff, accepts_iff, language_simplify]
  · exact mem_symbols.2 (leaves_simplify_subset e (mem_symbols.1 hc))

end Regex

end RegularLanguages
