import RegularLanguages.Regex.Basic

/-!
# Simplification

Expressions can be kept small in two ways. The constructors `sequence`, `choice` and `repetition`
do not build what `empty` and `nil` make superfluous. And an expression is simplified by reducing it
from the leaves up, again and again, until nothing changes:

* a concatenation with `empty` is `empty`, one with `nil` is its other side;
* an alternative with `empty` is its other side, one of two equal sides is that side, `nil` beside
  a repetition disappears, and of `x | (x | y)` the first `x` does;
* a repetition of `empty` or `nil` is `nil`, one of a repetition is that repetition;
* chains of concatenations or alternatives are nested to the right.

`weight_reduce` is the reason why this ends: a pass that changes an expression makes it lighter.
What is shown of one pass, `simplify_of_pass` extends to all of them. What it means that nothing can
be simplified any further, `IsRedex` and `IsNormal` say without reference to how that is done.
-/

namespace RegularLanguages.Regex

/-! ## 1. Constructors that apply identities -/

/-- Concatenation up to the identities. -/
def sequence : Regex → Regex → Regex
  | .empty, _ => .empty
  | _, .empty => .empty
  | .nil, e => e
  | e, .nil => e
  | l, r => .concat l r

/-- Alternative up to the identities. -/
def choice : Regex → Regex → Regex
  | .empty, e => e
  | e, .empty => e
  | l, r => if l = r then l else .alt l r

/-- Repetition up to the identities. -/
def repetition : Regex → Regex
  | .empty => .nil
  | .nil => .nil
  | e => .star e

/-! ## 2. The reductions -/

/-- The concatenation of two simplified expressions. -/
def reduceConcat : Regex → Regex → Regex
  | .empty, _ => .empty
  | _, .empty => .empty
  | .nil, e => e
  | e, .nil => e
  | .concat a b, c => .concat a (.concat b c)
  | l, r => .concat l r

/-- The alternative of two simplified expressions that are neither `empty` nor equal. -/
def reduceAltOfNe : Regex → Regex → Regex
  | .nil, .star e => .star e
  | .star e, .nil => .star e
  | .alt a b, c => .alt a (.alt b c)
  | l, .alt a b => if a = l then .alt a b else .alt l (.alt a b)
  | l, r => .alt l r

/-- The alternative of two simplified expressions. -/
def reduceAlt : Regex → Regex → Regex
  | .empty, e => e
  | e, .empty => e
  | l, r => if l = r then l else reduceAltOfNe l r

/-- The repetition of a simplified expression. -/
def reduceStar : Regex → Regex
  | .empty => .nil
  | .nil => .nil
  | .star e => .star e
  | e => .star e

/-- One reducing pass, from the leaves up. -/
def pass : Regex → Regex
  | .concat l r => reduceConcat l.pass r.pass
  | .alt l r => reduceAlt l.pass r.pass
  | .star e => reduceStar e.pass
  | .symbol c => .symbol c
  | .nil => .nil
  | .empty => .empty

/-! ## 3. Every pass makes the expression lighter -/

/-- A measure that counts a left operand twice, so that it drops when nodes disappear and when
they move out of a left operand. -/
def weight : Regex → Nat
  | .concat l r | .alt l r => 2 * l.weight + r.weight + 1
  | .star e => e.weight + 1
  | .symbol _ | .nil | .empty => 1

theorem weight_pos : ∀ e : Regex, 0 < e.weight
  | .concat _ _ | .alt _ _ | .star _ => Nat.succ_pos _
  | .symbol _ | .nil | .empty => Nat.one_pos

theorem weight_reduceConcat (l r : Regex) :
    reduceConcat l r = .concat l r ∨ (reduceConcat l r).weight < (Regex.concat l r).weight := by
  have hl := weight_pos l
  have hr := weight_pos r
  fun_cases reduceConcat l r <;> simp_all [weight] <;> omega

theorem weight_reduceAltOfNe (l r : Regex) :
    reduceAltOfNe l r = .alt l r ∨ (reduceAltOfNe l r).weight < (Regex.alt l r).weight := by
  have hl := weight_pos l
  have hr := weight_pos r
  fun_cases reduceAltOfNe l r <;> simp_all [weight] <;> omega

theorem weight_reduceAlt (l r : Regex) :
    reduceAlt l r = .alt l r ∨ (reduceAlt l r).weight < (Regex.alt l r).weight := by
  have hl := weight_pos l
  have hr := weight_pos r
  fun_cases reduceAlt l r
  · right; simp only [weight]; omega
  · right; simp only [weight]; omega
  · right; simp only [weight]; omega
  · exact weight_reduceAltOfNe _ _

theorem weight_reduceStar (e : Regex) :
    reduceStar e = .star e ∨ (reduceStar e).weight < (Regex.star e).weight := by
  fun_cases reduceStar e <;> simp_all [weight]

theorem weight_le_of {x y : Regex} (h : x = y ∨ x.weight < y.weight) : x.weight ≤ y.weight :=
  h.elim (fun e => e ▸ Nat.le_refl _) Nat.le_of_lt

/-- A pass over an operator with two operands leaves it as it is only where it changes neither
operand and does not reduce the operator; otherwise it makes it lighter. -/
theorem weight_reduce_operands {reduce node : Regex → Regex → Regex} {l r : Regex}
    (hnode : ∀ l r, (node l r).weight = 2 * l.weight + r.weight + 1)
    (hreduce : ∀ l r, reduce l r = node l r ∨ (reduce l r).weight < (node l r).weight)
    (hl : l.pass = l ∨ l.pass.weight < l.weight) (hr : r.pass = r ∨ r.pass.weight < r.weight) :
    (reduce l.pass r.pass = node l r ∧ l.pass = l ∧ r.pass = r) ∨
      (reduce l.pass r.pass).weight < (node l r).weight := by
  have el := weight_le_of hl
  have er := weight_le_of hr
  have h := weight_le_of (hreduce l.pass r.pass)
  rw [hnode] at h
  rcases hl with hl | hl
  · rcases hr with hr | hr
    · rw [hl, hr]
      exact (hreduce l r).imp_left fun h => ⟨h, rfl, rfl⟩
    · right; rw [hnode]; omega
  · right; rw [hnode]; omega

/-- **A pass leaves an expression as it is or makes it lighter.** -/
theorem weight_reduce : ∀ e : Regex, e.pass = e ∨ e.pass.weight < e.weight
  | .concat l r =>
    (weight_reduce_operands (fun _ _ => rfl) weight_reduceConcat
      (weight_reduce l) (weight_reduce r)).imp_left And.left
  | .alt l r =>
    (weight_reduce_operands (fun _ _ => rfl) weight_reduceAlt
      (weight_reduce l) (weight_reduce r)).imp_left And.left
  | .star e => by
    have he := weight_reduce e
    have h := weight_reduceStar e.pass
    have eh := weight_le_of h
    rcases he with he | he
    · simpa only [pass, he] using h
    · right; simp only [pass, weight] at *; omega
  | .symbol _ | .nil | .empty => Or.inl rfl

/-! ## 4. The fixed point -/

/-- The expression that repeated passes end in. -/
def simplify (e : Regex) : Regex :=
  let next := e.pass
  if next = e then e else simplify next
termination_by e.weight
decreasing_by
  rename_i h
  exact (weight_reduce e).resolve_left h

/-- What every pass keeps, simplification keeps. -/
theorem simplify_of_pass {P : Regex → Prop} (hpass : ∀ e, P e → P e.pass) (e : Regex) (h : P e) :
    P e.simplify := by
  fun_induction simplify e with
  | case1 => exact h
  | case2 e _ _ ih => exact ih (hpass e h)

/-! ## 5. Normal expressions -/

/-- All subexpressions, the expression itself first. -/
def subexpressions : Regex → List Regex
  | .concat l r => .concat l r :: (l.subexpressions ++ r.subexpressions)
  | .alt l r => .alt l r :: (l.subexpressions ++ r.subexpressions)
  | .star e => .star e :: e.subexpressions
  | e => [e]

theorem empty_mem_concat {l r : Regex} : .empty ∈ (concat l r).subexpressions ↔
    .empty ∈ l.subexpressions ∨ .empty ∈ r.subexpressions := by
  simp only [subexpressions, List.mem_cons, List.mem_append, reduceCtorEq, false_or]

theorem empty_mem_alt {l r : Regex} : .empty ∈ (alt l r).subexpressions ↔
    .empty ∈ l.subexpressions ∨ .empty ∈ r.subexpressions := by
  simp only [subexpressions, List.mem_cons, List.mem_append, reduceCtorEq, false_or]

theorem empty_mem_star {e : Regex} :
    .empty ∈ (star e).subexpressions ↔ .empty ∈ e.subexpressions := by
  simp only [subexpressions, List.mem_cons, reduceCtorEq, false_or]

/-- The forms that can be simplified. -/
inductive IsRedex : Regex → Prop where
  | concatEmptyLeft (e : Regex) : IsRedex (.concat .empty e)
  | concatEmptyRight (e : Regex) : IsRedex (.concat e .empty)
  | concatNilLeft (e : Regex) : IsRedex (.concat .nil e)
  | concatNilRight (e : Regex) : IsRedex (.concat e .nil)
  | concatNested (a b c : Regex) : IsRedex (.concat (.concat a b) c)
  | altEmptyLeft (e : Regex) : IsRedex (.alt .empty e)
  | altEmptyRight (e : Regex) : IsRedex (.alt e .empty)
  | altSame (e : Regex) : IsRedex (.alt e e)
  | altSameFirst (e f : Regex) : IsRedex (.alt e (.alt e f))
  | altNested (a b c : Regex) : IsRedex (.alt (.alt a b) c)
  | altNilStar (e : Regex) : IsRedex (.alt .nil (.star e))
  | altStarNil (e : Regex) : IsRedex (.alt (.star e) .nil)
  | starEmpty : IsRedex (.star .empty)
  | starNil : IsRedex (.star .nil)
  | starStar (e : Regex) : IsRedex (.star (.star e))

/-- An expression is normal if nothing in it can be simplified. -/
def IsNormal (e : Regex) : Prop := ∀ f ∈ e.subexpressions, ¬ f.IsRedex

end RegularLanguages.Regex
