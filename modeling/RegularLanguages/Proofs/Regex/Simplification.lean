import RegularLanguages.Proofs.Regex.Denotation
import RegularLanguages.Regex.Simplification

/-!
# Rewriting keeps the language

Every identity that is applied to an expression, while it is built or while it is simplified, is
an equation between languages.

* `language_sequence`, `language_choice`, `language_repetition` -- the constructors that apply
  identities stand for the same operations as the plain ones;
* `language_pass` -- one simplifying pass keeps the language;
* `language_simplify` -- **so does the fixed point of all passes**.
-/

open Computability

namespace RegularLanguages.Regex

/-! ## 1. Constructors that apply identities -/

@[simp] theorem language_sequence (l r : Regex) :
    (sequence l r).language = l.language * r.language := by
  fun_cases sequence l r <;> simp

@[simp] theorem language_choice (l r : Regex) :
    (choice l r).language = l.language + r.language := by
  fun_cases choice l r <;> simp

@[simp] theorem language_repetition (e : Regex) : (repetition e).language = e.language∗ := by
  fun_cases repetition e <;> simp

/-! ## 2. Reductions -/

/-- The empty word adds nothing to a repetition. -/
theorem one_add_kstar (x : Language Symbol) : 1 + x∗ = x∗ :=
  add_eq_right_iff_le.2 one_le_kstar

@[simp] theorem language_reduceConcat (l r : Regex) :
    (reduceConcat l r).language = l.language * r.language := by
  fun_cases reduceConcat l r <;> simp [mul_assoc]

@[simp] theorem language_reduceAltOfNe (l r : Regex) :
    (reduceAltOfNe l r).language = l.language + r.language := by
  fun_cases reduceAltOfNe l r
  · rw [language_star, language_nil, one_add_kstar]
  · rw [language_star, language_nil, add_comm, one_add_kstar]
  · simp only [language_alt, add_assoc]
  · -- of `l | (l | b)` the first `l` disappears
    rw [language_alt, ← add_assoc, Language.add_self]
  · rw [language_alt]
  · rw [language_alt]

@[simp] theorem language_reduceAlt (l r : Regex) :
    (reduceAlt l r).language = l.language + r.language := by
  fun_cases reduceAlt l r <;> simp

@[simp] theorem language_reduceStar (e : Regex) : (reduceStar e).language = e.language∗ := by
  fun_cases reduceStar e <;> simp

/-! ## 3. Passes -/

theorem language_pass : ∀ e : Regex, e.pass.language = e.language
  | .symbol _ | .nil | .empty => rfl
  | .concat l r => by
    rw [pass, language_reduceConcat, language_pass l, language_pass r, language_concat]
  | .alt l r => by
    rw [pass, language_reduceAlt, language_pass l, language_pass r, language_alt]
  | .star e => by rw [pass, language_reduceStar, language_pass e, language_star]

/-- **Simplification keeps the language.** -/
theorem language_simplify (e : Regex) : e.simplify.language = e.language :=
  simplify_of_pass (fun f hf => (language_pass f).trans hf) e rfl

end RegularLanguages.Regex
