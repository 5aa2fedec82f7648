import RegularLanguages.Proofs.Automaton.Path

/-!
# What runs show

Reading a word from a state shows that some move is missing, or whether the state at its end
accepts. Nothing else can be seen of a deterministic automaton from outside.

* `outcome` -- what reading a word from a state shows;
* `Alike` -- two states from which every word shows the same, and `Alike.step`: their moves lead
  to states that are alike again;
* `Indistinguishable` -- two words behind which every word can be read alike, with the same answer,
  and `indistinguishable_iff_alike`: they lead to states that are alike.
-/

namespace RegularLanguages.Automaton

variable {a b : Automaton} {p q : StateName} {u v w : Word} {c : Symbol}

/-! ## 1. Outcomes -/

/-- What reading a word from a state shows: nothing if a move is missing, else whether the state at
the end accepts. -/
def outcome (a : Automaton) (p : StateName) (w : Word) : Option Bool :=
  (a.run? p w).map a.isAccepting

@[simp] theorem outcome_nil : a.outcome p [] = some (a.isAccepting p) := rfl

theorem outcome_cons : a.outcome p (c :: w) = (a.step? p c).bind fun q => a.outcome q w := by
  rw [outcome, run?_cons, Option.map_bind]
  rfl

theorem outcome_append (h : a.run? p u = some q) : a.outcome p (u ++ w) = a.outcome q w := by
  rw [outcome, run?_append, h, Option.bind_some]
  rfl

theorem isSome_outcome : (a.outcome p w).isSome = (a.run? p w).isSome := Option.isSome_map

theorem accepts_eq_outcome : a.accepts w = (a.outcome a.start w).getD false := by
  unfold accepts outcome
  cases a.run? a.start w <;> rfl

/-- An outcome is known from whether the word can be read and whether it is accepted. -/
theorem outcome_eq_iff : a.outcome a.start u = b.outcome b.start v ↔
    (a.run? a.start u).isSome = (b.run? b.start v).isSome ∧ a.accepts u = b.accepts v := by
  rw [← isSome_outcome, ← isSome_outcome, accepts_eq_outcome, accepts_eq_outcome]
  cases a.outcome a.start u <;> cases b.outcome b.start v <;> simp

theorem recognizesFrom_iff_outcome (hd : a.Deterministic) :
    a.RecognizesFrom p w ↔ a.outcome p w = some true := by
  rw [outcome, Option.map_eq_some_iff]
  simp only [RecognizesFrom, path_iff_run? hd]

/-! ## 2. States that are alike -/

/-- Two states are alike if reading a word from one shows the same as from the other. -/
def Alike (a : Automaton) (p q : StateName) : Prop := ∀ w, a.outcome p w = a.outcome q w

theorem Alike.isAccepting_eq (h : a.Alike p q) : a.isAccepting p = a.isAccepting q :=
  Option.some.inj (h [])

/-- States that are alike miss the same moves, and the others lead to states that are alike. -/
theorem Alike.step (h : a.Alike p q) (c : Symbol) :
    Option.Rel a.Alike (a.step? p c) (a.step? q c) := by
  have hsome : (a.step? p c).isSome = (a.step? q c).isSome := by
    rw [← run?_singleton, ← run?_singleton, ← isSome_outcome, ← isSome_outcome, h]
  refine OrderedMap.rel_of_isSome_eq hsome fun p' q' hp hq w => ?_
  have hw := h (c :: w)
  rwa [outcome_cons, outcome_cons, hp, hq] at hw

/-- Two states have the same language if the same words are recognized from them. -/
def SameLanguageFrom (a : Automaton) (p q : StateName) : Prop :=
  ∀ w, a.RecognizesFrom p w ↔ a.RecognizesFrom q w

/-- States are alike iff the same words can be read from them and the same are recognized. -/
theorem alike_iff (hd : a.Deterministic) : a.Alike p q ↔
    (∀ w, (a.run? p w).isSome = (a.run? q w).isSome) ∧ a.SameLanguageFrom p q := by
  rw [SameLanguageFrom, ← forall_and]
  refine forall_congr' fun w => ?_
  rw [← isSome_outcome, ← isSome_outcome, recognizesFrom_iff_outcome hd,
    recognizesFrom_iff_outcome hd]
  rcases a.outcome p w with _ | _ | _ <;> rcases a.outcome q w with _ | _ | _ <;> simp

/-! ## 3. Words that cannot be told apart -/

/-- Two words cannot be told apart by what follows: the same words can be read behind both, and the
same are accepted. -/
def Indistinguishable (a : Automaton) (u v : Word) : Prop :=
  ∀ w, (a.run? a.start (u ++ w)).isSome = (a.run? a.start (v ++ w)).isSome ∧
    a.accepts (u ++ w) = a.accepts (v ++ w)

theorem indistinguishable_congr (h : ∀ w, a.outcome a.start w = b.outcome b.start w) :
    a.Indistinguishable u v ↔ b.Indistinguishable u v := by
  refine forall_congr' fun w => ?_
  rw [← outcome_eq_iff, ← outcome_eq_iff, h, h]

/-- Words cannot be told apart iff they lead to states that are alike. -/
theorem indistinguishable_iff_alike (hu : a.run? a.start u = some p)
    (hv : a.run? a.start v = some q) : a.Indistinguishable u v ↔ a.Alike p q := by
  refine forall_congr' fun w => ?_
  rw [← outcome_eq_iff, outcome_append hu, outcome_append hv]

end RegularLanguages.Automaton
