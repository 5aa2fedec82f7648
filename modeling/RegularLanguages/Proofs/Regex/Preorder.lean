import RegularLanguages.Proofs.Checking
import RegularLanguages.Regex.Preorder
import RegularLanguages.Source.Tokenization

/-!
# Reading expressions in preorder

The nodes of an expression are taken from right to left, so those of its operands are put together
before the node that takes them.

* `expressions_preorder_append` -- the nodes of an expression put it in front of the expressions
  behind them;
* `ofPreorder_preorder` -- **the nodes of an expression are read as that expression**;
* `mem_leaves_of_mem_preorder` -- its symbols among them are those at its leaves;
* `expressions_eq_ok_iff` -- the reader holds at every point just the expressions whose nodes it has
  taken;
* `ofPreorder_eq_error_iff` -- what a list of nodes looks like that has a given defect;
* `regexOfTokens_accepts_preorder` -- **a list of nodes is read as an expression iff it is the
  preorder of it**, and otherwise has a defect.
-/

namespace RegularLanguages.Regex

variable {t : Token} {ts : List Token} {e : Regex} {es fs : List Regex} {position : Nat}

/-! ## 1. The nodes of an expression -/

/-- A node that finds its operands among the expressions behind it. -/
theorem expressions_cons (h : expressions (position + 1) ts = .ok es)
    (ht : t.apply? es = some fs) : expressions position (t :: ts) = .ok fs := by
  rw [expressions, h]
  simp only [ht]

/-- **The nodes of an expression put it in front of the expressions behind them**, wherever they
stand. -/
theorem expressions_preorder_append : ∀ (e : Regex) {ts : List Token} {es : List Regex},
    (∀ position, expressions position ts = .ok es) →
      ∀ position, expressions position (e.preorder ++ ts) = .ok (e :: es)
  | .symbol _, _, _, h, _ => expressions_cons (h _) rfl
  | .nil, _, _, h, _ => expressions_cons (h _) rfl
  | .empty, _, _, h, _ => expressions_cons (h _) rfl
  | .star e, _, _, h, _ => expressions_cons (expressions_preorder_append e h _) rfl
  | .concat l r, _, _, h, _ => by
    have hoperands := expressions_preorder_append l (expressions_preorder_append r h)
    rw [preorder, List.cons_append, List.append_assoc]
    exact expressions_cons (hoperands _) rfl
  | .alt l r, _, _, h, _ => by
    have hoperands := expressions_preorder_append l (expressions_preorder_append r h)
    rw [preorder, List.cons_append, List.append_assoc]
    exact expressions_cons (hoperands _) rfl

/-- **The nodes of an expression are read as that expression.** -/
theorem ofPreorder_preorder (e : Regex) : ofPreorder e.preorder = .ok e := by
  have hnone : ∀ position, expressions position [] = .ok [] := fun _ => rfl
  have hread := expressions_preorder_append e hnone 0
  rw [List.append_nil] at hread
  rw [ofPreorder, hread]

/-- A symbol among the nodes is one at the leaves. -/
theorem mem_leaves_of_mem_preorder {c : Symbol} : ∀ e : Regex,
    .symbol c ∈ e.preorder → c ∈ e.leaves
  | .symbol d, h => by
    cases List.mem_singleton.1 h
    exact List.mem_singleton_self c
  | .concat l r, h | .alt l r, h => by
    have h := (List.mem_cons.1 h).resolve_left nofun
    exact List.mem_append.2 ((List.mem_append.1 h).imp (mem_leaves_of_mem_preorder l)
      (mem_leaves_of_mem_preorder r))
  | .star e, h => mem_leaves_of_mem_preorder e ((List.mem_cons.1 h).resolve_left nofun)
  | .nil, h | .empty, h => by cases List.mem_singleton.1 h

/-! ## 2. What has been read at a point -/

/-- The number of operands that a node takes. -/
def Token.arity : Token → Nat
  | .operator .star => 1
  | .operator _ => 2
  | _ => 0

/-- **One step**: a node that finds its operands goes in front of their nodes. -/
theorem flatMap_preorder_of_apply?_eq_some (h : t.apply? es = some fs) :
    fs.flatMap preorder = t :: es.flatMap preorder := by
  unfold Token.apply? at h
  split at h <;> cases h <;> simp [preorder]

theorem apply?_eq_none_iff : t.apply? es = none ↔ es.length < t.arity := by
  cases t with
  | operator o =>
    match o, es with
    | .star, [] | .concat, [] | .alt, [] => simp [Token.arity, Token.apply?]
    | .star, _ :: _ => simp [Token.arity, Token.apply?]
    | .concat, [_] | .alt, [_] => simp [Token.arity, Token.apply?]
    | .concat, _ :: _ :: _ | .alt, _ :: _ :: _ => simp [Token.arity, Token.apply?]
  | symbol | nil | empty => simp [Token.arity, Token.apply?]

/-- The nodes of several expressions are read as these expressions. -/
theorem expressions_flatMap_preorder (es : List Regex) :
    ∀ position, expressions position (es.flatMap preorder) = .ok es := by
  induction es with
  | nil => exact fun _ => rfl
  | cons e es ih => exact expressions_preorder_append e ih

/-- **A whole run**: the reader holds just the expressions whose nodes it has taken. -/
theorem expressions_eq_ok_iff : expressions position ts = .ok es ↔ ts = es.flatMap preorder := by
  refine ⟨fun h => ?_, fun h => h ▸ expressions_flatMap_preorder es position⟩
  induction ts generalizing position es with
  | nil =>
    cases h
    rfl
  | cons t ts ih =>
    rw [expressions] at h
    split at h
    · cases h
    · rename_i fs hfs
      split at h
      · rename_i gs hgs
        cases h
        rw [flatMap_preorder_of_apply?_eq_some hgs, ← ih hfs]
      · cases h

/-! ## 3. Defects -/

/-- What a list of nodes with a defect looks like. -/
def Malformed.IsDefectOf : Malformed → List Token → Prop
  -- Behind the node stand whole expressions, but fewer than it takes.
  | .missingOperand position, ts => ∃ (before : List Token) (t : Token) (es : List Regex),
    ts = before ++ t :: es.flatMap preorder ∧ es.length < t.arity ∧ before.length = position
  | .noTokens, ts => ts = []
  -- Expressions stand one behind the other.
  | .uncombined count, ts => ∃ es : List Regex,
    ts = es.flatMap preorder ∧ es.length = count ∧ 2 ≤ count

variable {m : Malformed}

/-- The reader stops at the last node that lacks an operand. -/
theorem expressions_eq_error_iff : expressions position ts = .error m ↔
    ∃ (before : List Token) (t : Token) (es : List Regex),
      ts = before ++ t :: es.flatMap preorder ∧ es.length < t.arity ∧
        m = .missingOperand (position + before.length) := by
  induction ts generalizing position with
  | nil => simp [expressions]
  | cons u us ih =>
    rw [expressions]
    constructor
    · intro h
      split at h
      · rename_i e he
        cases h
        obtain ⟨before, t, es, rfl, hlack, rfl⟩ := ih.1 he
        refine ⟨u :: before, t, es, rfl, hlack, ?_⟩
        rw [List.length_cons, Nat.add_right_comm, Nat.add_assoc]
      · rename_i es hes
        split at h
        · cases h
        · rename_i hnone
          cases h
          exact ⟨[], u, es, congrArg (u :: ·) (expressions_eq_ok_iff.1 hes),
            apply?_eq_none_iff.1 hnone, rfl⟩
    · rintro ⟨before, t, es, hus, hlack, hm⟩
      cases before with
      | nil =>
        cases hus
        rw [expressions_flatMap_preorder]
        simp only [apply?_eq_none_iff.2 hlack]
        exact congrArg Except.error hm.symm
      | cons v before =>
        cases hus
        have hbehind : m = .missingOperand (position + 1 + before.length) := by
          rw [hm, List.length_cons, Nat.add_right_comm, Nat.add_assoc]
        rw [ih.2 ⟨before, t, es, rfl, hlack, hbehind⟩]

/-- A list of nodes is read as an expression iff it is the preorder of it. -/
theorem ofPreorder_eq_ok_iff : ofPreorder ts = .ok e ↔ ts = e.preorder := by
  refine ⟨fun h => ?_, fun h => h ▸ ofPreorder_preorder e⟩
  rw [ofPreorder] at h
  split at h
  · cases h
  · cases h
  · rename_i f hf
    cases h
    rw [expressions_eq_ok_iff.1 hf, List.flatMap_singleton]
  · cases h

/-- A defect is reported iff the list has it. -/
theorem ofPreorder_eq_error_iff : ofPreorder ts = .error m ↔ m.IsDefectOf ts := by
  constructor
  · intro h
    rw [ofPreorder] at h
    split at h
    · rename_i e he
      cases h
      obtain ⟨before, t, es, hts, hlack, rfl⟩ := expressions_eq_error_iff.1 he
      exact ⟨before, t, es, hts, hlack, (Nat.zero_add _).symm⟩
    · rename_i hnone
      cases h
      exact expressions_eq_ok_iff.1 hnone
    · cases h
    · rename_i es hnonempty hsingle hes
      cases h
      have htwo : 2 ≤ es.length := by
        match es, hnonempty, hsingle with
        | [], hnonempty, _ => exact (hnonempty rfl).elim
        | [e], _, hsingle => exact (hsingle e rfl).elim
        | _ :: _ :: es, _, _ => exact Nat.le_add_left 2 es.length
      exact ⟨es, expressions_eq_ok_iff.1 hes, rfl, htwo⟩
  · intro h
    cases m with
    | missingOperand position =>
      obtain ⟨before, t, es, hts, hlack, rfl⟩ := h
      have hread : expressions 0 ts = .error (.missingOperand before.length) :=
        expressions_eq_error_iff.2 ⟨before, t, es, hts, hlack, by rw [Nat.zero_add]⟩
      rw [ofPreorder, hread]
    | noTokens =>
      cases h
      rfl
    | uncombined count =>
      obtain ⟨es, rfl, rfl, htwo⟩ := h
      rw [ofPreorder, expressions_flatMap_preorder]
      match es, htwo with
      | _ :: _ :: _, _ => rfl

/-- **A list of nodes is read as an expression iff it is the preorder of it.** Every other list is
malformed, and the defect that is reported is one that it has. -/
theorem regexOfTokens_accepts_preorder (ts : List Token) :
    (∀ e, Source.regexOfTokens ts = .ok e ↔ ts = e.preorder) ∧
      ((∃ m, Source.regexOfTokens ts = .error (.malformedRegex m)) ↔ ∀ e : Regex, ts ≠ e.preorder) ∧
      ∀ m, Source.regexOfTokens ts = .error (.malformedRegex m) ↔ m.IsDefectOf ts := by
  have hok : ∀ e, Source.regexOfTokens ts = .ok e ↔ ts = e.preorder := fun e =>
    mapError_eq_ok_iff.trans ofPreorder_eq_ok_iff
  have herror : ∀ m, Source.regexOfTokens ts = .error (.malformedRegex m) ↔
      ofPreorder ts = .error m := by
    intro m
    rw [Source.regexOfTokens, mapError_eq_error_iff]
    exact ⟨fun ⟨_, hm, e⟩ => Source.Error.malformedRegex.inj e ▸ hm, fun hm => ⟨m, hm, rfl⟩⟩
  refine ⟨hok, ⟨?_, fun h => ?_⟩, fun m => (herror m).trans ofPreorder_eq_error_iff⟩
  · rintro ⟨m, hm⟩ e hts
    cases hm.symm.trans ((hok e).2 hts)
  · cases hread : ofPreorder ts with
    | error m => exact ⟨m, (herror m).2 hread⟩
    | ok e => exact absurd (ofPreorder_eq_ok_iff.1 hread) (h e)

end RegularLanguages.Regex
