import RegularLanguages.Proofs.Automaton.Combination
import RegularLanguages.Proofs.Automaton.Naming
import RegularLanguages.Proofs.Regex.Symbols

/-!
# The automaton of an expression recognizes its language

The parts of an expression get states with numbers from ranges that follow each other, so the
automata of two parts share no name and the new states are new.

* `Fragment` -- an automaton with one accepting state whose states have numbers from a range;
* `fragment_fromRegex` -- the construction yields such an automaton for each expression;
* `spelled_fromRegex`, `recognizes_fromRegex_iff` -- **it recognizes the language of the
  expression**;
* `alphabet_fromRegex` -- its alphabet is that of the expression, in the same order;
* `forall₂_ofRegexes` -- what holds of the automaton of an expression, whatever numbers are used up,
  holds of all the automata that are made in turn;
* `builds_exact` -- **so however many are made before it, an automaton recognizes the words of its
  expression**.
-/

open Computability

namespace RegularLanguages.Automaton

variable {a left right : Automaton} {p : StateName} {k n m : Nat} {w : Word}

/-! ## 1. Numbered states -/

theorem numberedState_injective (h : numberedState k = numberedState n) : k = n :=
  toString_nat_injective ((String.append_right_inj _).1 h)

/-- An automaton with one accepting state whose states have the numbers from `n + 1` to `m`. -/
structure Fragment (a : Automaton) (n m : Nat) : Prop where
  /-- It has one accepting state. -/
  singleFinal : a.SingleFinal
  /-- The range goes upwards. -/
  le : n ≤ m
  /-- Its states have numbers from the range. -/
  numbered : ∀ p ∈ a.states, ∃ k, n < k ∧ k ≤ m ∧ p = numberedState k

/-- A number outside the range belongs to no state. -/
theorem Fragment.not_mem (ha : a.Fragment n m) (h : k ≤ n ∨ m < k) :
    numberedState k ∉ a.states := by
  intro hk
  obtain ⟨i, hn, hm, e⟩ := ha.numbered _ hk
  have hik := numberedState_injective e
  omega

theorem Fragment.firstNew_not_mem (ha : a.Fragment n m) (h : m ≤ k) : firstNew k ∉ a.states :=
  ha.not_mem (Or.inr (Nat.lt_succ_of_le h))

theorem Fragment.secondNew_not_mem (ha : a.Fragment n m) (h : m ≤ k) : secondNew k ∉ a.states :=
  ha.not_mem (Or.inr (Nat.lt_succ_of_le (Nat.le_succ_of_le h)))

/-- Two ranges that follow each other share no state. -/
theorem Fragment.disjoint (hl : left.Fragment n m) (hr : right.Fragment m k) :
    ∀ p ∈ left.states, p ∉ right.states := by
  intro p hp
  obtain ⟨i, _, hi, rfl⟩ := hl.numbered p hp
  exact hr.not_mem (Or.inl hi)

theorem firstNew_ne_secondNew (n : Nat) : firstNew n ≠ secondNew n := by
  intro h
  have hn : n + 1 = n + 2 := numberedState_injective h
  omega

/-! ## 2. Ranges of the parts -/

theorem fragment_segment (n : Nat) (label : Option Label) :
    (segment (firstNew n) (secondNew n) label).Fragment n (n + 2) where
  singleFinal := singleFinal_segment
  le := Nat.le_add_right n 2
  numbered p hp := by
    rcases mem_states_segment hp with rfl | rfl
    · exact ⟨n + 1, by omega, by omega, rfl⟩
    · exact ⟨n + 2, by omega, by omega, rfl⟩

theorem Fragment.inSequence (hl : left.Fragment n m) (hr : right.Fragment m k) :
    (left.inSequence right).Fragment n k where
  singleFinal := singleFinal_inSequence hl.singleFinal hr.singleFinal (hl.disjoint hr)
  le := hl.le.trans hr.le
  numbered p hp := by
    have hnm := hl.le
    have hmk := hr.le
    rcases (mem_states_inSequence hl.singleFinal hr.singleFinal).1 hp with hp | hp
    · obtain ⟨i, hn, hm, rfl⟩ := hl.numbered p hp
      exact ⟨i, hn, by omega, rfl⟩
    · obtain ⟨i, hn, hm, rfl⟩ := hr.numbered p hp
      exact ⟨i, by omega, hm, rfl⟩

theorem Fragment.sideBySide (hl : left.Fragment n m) (hr : right.Fragment m k) :
    (Automaton.sideBySide (firstNew k) (secondNew k) left right).Fragment n (k + 2) where
  singleFinal := singleFinal_sideBySide hl.singleFinal hr.singleFinal (hl.disjoint hr)
  le := by
    have hnm := hl.le
    have hmk := hr.le
    omega
  numbered p hp := by
    have hnm := hl.le
    have hmk := hr.le
    rcases (mem_states_sideBySide hl.singleFinal hr.singleFinal).1 hp with hp | hp | rfl | rfl
    · obtain ⟨i, hn, hm, rfl⟩ := hl.numbered p hp
      exact ⟨i, hn, by omega, rfl⟩
    · obtain ⟨i, hn, hm, rfl⟩ := hr.numbered p hp
      exact ⟨i, by omega, by omega, rfl⟩
    · exact ⟨k + 1, by omega, by omega, rfl⟩
    · exact ⟨k + 2, by omega, by omega, rfl⟩

theorem Fragment.looped (ha : a.Fragment n m) :
    (Automaton.looped (firstNew m) (secondNew m) a).Fragment n (m + 2) where
  singleFinal := singleFinal_looped ha.singleFinal
  le := Nat.le_add_right_of_le ha.le
  numbered p hp := by
    have hnm := ha.le
    rcases (mem_states_looped ha.singleFinal).1 hp with hp | rfl | rfl
    · obtain ⟨i, hn, hm, rfl⟩ := ha.numbered p hp
      exact ⟨i, hn, by omega, rfl⟩
    · exact ⟨m + 1, by omega, by omega, rfl⟩
    · exact ⟨m + 2, by omega, by omega, rfl⟩

/-! ## 3. The construction -/

/-- The automaton of an expression has states from the range that the construction reports. -/
theorem fragment_fromRegex :
    ∀ (e : Regex) (n : Nat), (fromRegex e n).1.Fragment n (fromRegex e n).2
  | .symbol c, n => fragment_segment n (some (.symbol c))
  | .nil, n => fragment_segment n (some .epsilon)
  | .empty, n => fragment_segment n none
  | .concat l r, n => (fragment_fromRegex l n).inSequence (fragment_fromRegex r _)
  | .alt l r, n => (fragment_fromRegex l n).sideBySide (fragment_fromRegex r _)
  | .star e, n => (fragment_fromRegex e n).looped

/-- **Its paths spell the language of the expression.** -/
theorem spelled_fromRegex : ∀ (e : Regex) (n : Nat), (fromRegex e n).1.spelled = e.language
  | .symbol c, n => by
    ext w
    simp [fromRegex, mem_spelled_segment (firstNew_ne_secondNew n), Regex.mem_language_symbol]
  | .nil, n => by
    ext w
    simp [fromRegex, mem_spelled_segment (firstNew_ne_secondNew n)]
  | .empty, n => by
    ext w
    simp [fromRegex, mem_spelled_segment (firstNew_ne_secondNew n)]
  | .concat l r, n => by
    have hl := fragment_fromRegex l n
    have hr := fragment_fromRegex r (fromRegex l n).2
    rw [Regex.language_concat, ← spelled_fromRegex l n, ← spelled_fromRegex r (fromRegex l n).2]
    exact spelled_inSequence hl.singleFinal hr.singleFinal (hl.disjoint hr)
  | .alt l r, n => by
    have hl := fragment_fromRegex l n
    have hr := fragment_fromRegex r (fromRegex l n).2
    rw [Regex.language_alt, ← spelled_fromRegex l n, ← spelled_fromRegex r (fromRegex l n).2]
    exact spelled_sideBySide hl.singleFinal hr.singleFinal (hl.disjoint hr)
      ⟨hl.firstNew_not_mem hr.le, hr.firstNew_not_mem le_rfl⟩
      ⟨hl.secondNew_not_mem hr.le, hr.secondNew_not_mem le_rfl⟩ (firstNew_ne_secondNew _)
  | .star e, n => by
    have h := fragment_fromRegex e n
    rw [Regex.language_star, ← spelled_fromRegex e n]
    exact spelled_looped h.singleFinal (h.firstNew_not_mem le_rfl) (h.secondNew_not_mem le_rfl)
      (firstNew_ne_secondNew _)

theorem wellFormed_fromRegex (e : Regex) (n : Nat) : (fromRegex e n).1.WellFormed :=
  (fragment_fromRegex e n).singleFinal.wellFormed

/-- **It recognizes the language of the expression.** -/
theorem recognizes_fromRegex_iff (e : Regex) (n : Nat) :
    (fromRegex e n).1.Recognizes w ↔ w ∈ e.language := by
  rw [(fragment_fromRegex e n).singleFinal.recognizes_iff, spelled_fromRegex]

/-! ## 4. The alphabet -/

theorem alphabet_inSequence : (left.inSequence right).alphabet = (left.adjoin right).alphabet := by
  simp [inSequence]

theorem alphabet_sideBySide {start final : StateName} :
    (sideBySide start final left right).alphabet = (left.adjoin right).alphabet := by
  simp [sideBySide]

theorem alphabet_looped {start final : StateName} :
    (looped start final a).alphabet = a.alphabet := by
  simp [looped]

/-- **The alphabet consists of the symbols of the expression**, in order of first occurrence. -/
theorem alphabet_fromRegex : ∀ (e : Regex) (n : Nat), (fromRegex e n).1.alphabet = e.symbols
  | .symbol c, _ => (Regex.symbols_eq (.symbol c)).symm
  | .nil, _ => (Regex.symbols_eq .nil).symm
  | .empty, _ => (Regex.symbols_eq .empty).symm
  | .concat l r, n => by
    rw [fromRegex, alphabet_inSequence, alphabet_adjoin, alphabet_fromRegex l, alphabet_fromRegex r,
      Regex.symbols_concat]
  | .alt l r, n => by
    rw [fromRegex, alphabet_sideBySide, alphabet_adjoin, alphabet_fromRegex l, alphabet_fromRegex r,
      Regex.symbols_alt]
  | .star e, n => by
    rw [fromRegex, alphabet_looped, alphabet_fromRegex e, Regex.symbols_star]

/-! ## 5. Several expressions in turn -/

/-- What holds of the automaton of an expression whatever numbers are used up, holds of the automata
of several expressions that are made in turn. -/
theorem forall₂_ofRegexes {P : Regex → Automaton → Prop} (h : ∀ e n, P e (fromRegex e n).1) :
    ∀ (n : Nat) (es : List Regex), List.Forall₂ P es (ofRegexes n es)
  | _, [] => .nil
  | n, e :: es => .cons (h e n) (forall₂_ofRegexes h (fromRegex e n).2 es)

/-- **The construction is exact whatever has been built before**: with any numbers used up, the
automaton of an expression recognizes the words that the expression denotes and no others, and so
does each of the automata that are built in turn from there. -/
theorem builds_exact (n : Nat) :
    (∀ e w, (fromRegex e n).1.Recognizes w ↔ Regex.Denotes e w) ∧
      ∀ es, List.Forall₂ (fun e a => ∀ w, a.Recognizes w ↔ Regex.Denotes e w) es
        (ofRegexes n es) :=
  ⟨fun e _ => recognizes_fromRegex_iff e n,
    forall₂_ofRegexes (fun e n _ => recognizes_fromRegex_iff e n) n⟩

end RegularLanguages.Automaton
