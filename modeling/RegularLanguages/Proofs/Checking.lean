/-!
# Computations that may fail

When a computation that goes through several checks succeeds, and with what.

* `bind_eq_ok_iff`, `bind_eq_error_iff` -- one computation behind another;
* `mapError_eq_ok_iff`, `mapError_eq_error_iff` -- errors renamed;
* `exists_of_mem_mapM` -- what comes out of a list was made from one of its elements;
* `settle` -- the first of several complaints, or else a result;
* `foldlM_eq_settle` -- **many steps complain in order**, where no step changes what the others
  complain about.
-/

namespace RegularLanguages

variable {α β ε ε' : Type}

theorem bind_eq_ok_iff {x : Except ε α} {f : α → Except ε β} {y : β} :
    x >>= f = .ok y ↔ ∃ z, x = .ok z ∧ f z = .ok y := by
  cases x with
  | error e => exact ⟨nofun, nofun⟩
  | ok z => exact ⟨fun h => ⟨z, rfl, h⟩, fun ⟨_, hz, h⟩ => Except.ok.inj hz ▸ h⟩

theorem bind_eq_error_iff {x : Except ε α} {f : α → Except ε β} {e : ε} :
    x >>= f = .error e ↔ x = .error e ∨ ∃ z, x = .ok z ∧ f z = .error e := by
  cases x with
  | error e' =>
    exact ⟨fun h => Or.inl (congrArg _ (Except.error.inj h)),
      fun h => h.elim (fun h => congrArg _ (Except.error.inj h)) nofun⟩
  | ok z => exact ⟨fun h => Or.inr ⟨z, rfl, h⟩, fun h => h.elim nofun fun ⟨_, hz, h⟩ =>
      Except.ok.inj hz ▸ h⟩

theorem mapError_eq_ok_iff {x : Except ε α} {f : ε → ε'} {y : α} :
    x.mapError f = .ok y ↔ x = .ok y := by
  cases x with
  | error e => exact ⟨nofun, nofun⟩
  | ok z => exact ⟨fun h => congrArg _ (Except.ok.inj h), fun h => congrArg _ (Except.ok.inj h)⟩

theorem mapError_eq_error_iff {x : Except ε α} {f : ε → ε'} {e : ε'} :
    x.mapError f = .error e ↔ ∃ e', x = .error e' ∧ f e' = e := by
  cases x with
  | error e' => exact ⟨fun h => ⟨e', rfl, Except.error.inj h⟩,
      fun ⟨_, he, h⟩ => congrArg _ (Except.error.inj he ▸ h)⟩
  | ok z => exact ⟨nofun, nofun⟩

/-- What comes out of a list of computations that all succeed was made from one of the elements. -/
theorem exists_of_mem_mapM {f : α → Except ε β} {xs : List α} {ys : List β} {y : β}
    (h : xs.mapM f = .ok ys) (hy : y ∈ ys) : ∃ x ∈ xs, f x = .ok y := by
  induction xs generalizing ys with
  | nil =>
    cases h
    exact absurd hy List.not_mem_nil
  | cons x xs ih =>
    rw [List.mapM_cons, bind_eq_ok_iff] at h
    obtain ⟨z, hz, h⟩ := h
    obtain ⟨zs, hzs, h⟩ := bind_eq_ok_iff.1 h
    cases h
    rcases List.mem_cons.1 hy with rfl | hy
    · exact ⟨x, List.mem_cons_self, hz⟩
    · obtain ⟨u, hu, e⟩ := ih hzs hy
      exact ⟨u, List.mem_cons_of_mem x hu, e⟩

/-! ## Complaints -/

/-- The first of several complaints, or the result if there are none. -/
def settle (complaints : List ε) (result : α) : Except ε α :=
  match complaints with
  | [] => .ok result
  | e :: _ => .error e

section Settle

variable {es fs : List ε} {e : ε} {x y : α}

theorem settle_eq_ok_iff : settle es x = .ok y ↔ es = [] ∧ y = x := by
  cases es <;> simp [settle, eq_comm]

theorem settle_eq_error_iff : settle es x = .error e ↔ es.head? = some e := by
  cases es <;> simp [settle]

/-- Of complaints at two stages, those of the first stage count first. -/
theorem settle_bind {f : α → Except ε β} {y : β} (h : es = [] → f x = settle fs y) :
    settle es x >>= f = settle (es ++ fs) y := by
  cases es with
  | nil => exact h rfl
  | cons e es => rfl

/-- Where no step changes what the others complain about, many steps complain in order. -/
theorem foldlM_eq_settle {step : β → α → Except ε β} {next : β → α → β} {complaints : α → List ε}
    (inv : β → Prop) {xs : List α}
    (hstep : ∀ s x, inv s → step s x = settle (complaints x) (next s x))
    (hinv : ∀ s x, inv s → complaints x = [] → inv (next s x)) {s : β} (hs : inv s) :
    xs.foldlM step s = settle (xs.flatMap complaints) (xs.foldl next s) := by
  induction xs generalizing s with
  | nil => rfl
  | cons x xs ih =>
    rw [List.foldlM_cons, List.flatMap_cons, List.foldl_cons, hstep s x hs]
    exact settle_bind fun hx => ih (hinv s x hs hx)

end Settle

end RegularLanguages
