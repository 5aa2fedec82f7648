import Mathlib.Data.List.Induction
import RegularLanguages.Automaton.Determinization
import RegularLanguages.Proofs.Ordered.Map

/-!
# Names for sets

Different sets get different names, whatever the names of their members and whatever is proposed
for them.

* `exists_firstFree` -- of different candidates one is free within the bound of the search, and the
  first such one is taken;
* `distinctName_not_mem`, `freshName_not_mem` -- so a distinct or fresh name is not taken;
* `freshName_of_not_mem`, `quote_mem_freshName` -- a fresh name is the given one, or has a quote;
* `keys_nameSets`, `nodup_values_nameSets` -- **naming gives each set one name of its own**;
* `entries_nameSets_of_injOn`, `values_nameSets_of_injective` -- it is the proposed one where the
  proposals differ anyway, by set or by number.
-/

namespace RegularLanguages

/-! ## 1. Free candidates -/

theorem toString_nat_injective {m n : Nat} (h : toString m = toString n) : m = n := by
  have e : (Nat.toDigits 10 m) = Nat.toDigits 10 n := by
    rw [← Nat.toList_repr, ← Nat.toList_repr]
    exact congrArg String.toList h
  rw [← Nat.ofDigitChars_ten_toDigits (n := m), e, Nat.ofDigitChars_ten_toDigits]

namespace Automaton

/-- Of different candidates, one of the first `taken.length + 1` is free: they cannot all be taken.
-/
theorem exists_candidate_not_mem {taken : List StateName} {candidate : Nat → StateName}
    (h : ∀ i j, candidate i = candidate j → i = j) : ∃ i ≤ taken.length, candidate i ∉ taken := by
  refine Classical.byContradiction fun hnone => ?_
  have hall : (List.range (taken.length + 1)).map candidate ⊆ taken := by
    intro n hn
    obtain ⟨i, hi, rfl⟩ := List.mem_map.1 hn
    have hle : i ≤ taken.length := Nat.le_of_lt_succ (List.mem_range.1 hi)
    exact Decidable.byContradiction fun hfree => hnone ⟨i, hle, hfree⟩
  have hnodup : ((List.range (taken.length + 1)).map candidate).Nodup :=
    List.pairwise_map.2 (List.nodup_range.imp fun hne e => hne (h _ _ e))
  have hlen := hnodup.length_le_of_subset hall
  rw [List.length_map, List.length_range] at hlen
  omega

/-- **The first free one of different candidates is found**, and the search for it needs no more
than `taken.length + 1` of them. -/
theorem exists_firstFree {taken : List StateName} {candidate : Nat → StateName}
    (h : ∀ i j, candidate i = candidate j → i = j) :
    ∃ i ≤ taken.length, firstFree taken candidate = candidate i ∧ candidate i ∉ taken ∧
      ∀ j < i, candidate j ∈ taken := by
  unfold firstFree
  cases hf : (List.range taken.length).find? fun i => candidate i ∉ taken with
  | some i =>
    obtain ⟨hfree, hmem, hbefore⟩ := List.find?_range_eq_some.1 hf
    refine ⟨i, Nat.le_of_lt (List.mem_range.1 hmem), rfl, of_decide_eq_true hfree, fun j hj => ?_⟩
    simpa using hbefore j hj
  | none =>
    have htaken : ∀ j < taken.length, candidate j ∈ taken := by
      intro j hj
      simpa using List.find?_eq_none.1 hf j (List.mem_range.2 hj)
    obtain ⟨i, hle, hfree⟩ := exists_candidate_not_mem h
    -- the one that is free is none of those that were looked at
    have hlast : i = taken.length := by
      refine Nat.le_antisymm hle (Nat.le_of_not_lt fun hlt => hfree (htaken i hlt))
    subst hlast
    exact ⟨_, Nat.le_refl _, rfl, hfree, htaken⟩

theorem firstFree_not_mem {taken : List StateName} {candidate : Nat → StateName}
    (h : ∀ i j, candidate i = candidate j → i = j) : firstFree taken candidate ∉ taken := by
  obtain ⟨i, _, hfirst, hfree, _⟩ := exists_firstFree h
  rwa [hfirst]

/-- A first candidate that is free is the one. -/
theorem firstFree_of_not_mem {taken : List StateName} {candidate : Nat → StateName}
    (h : candidate 0 ∉ taken) : firstFree taken candidate = candidate 0 := by
  cases taken with
  | nil => rfl
  | cons n taken =>
    have hfind : (List.range (n :: taken).length).find? (fun i => candidate i ∉ n :: taken) =
        some 0 := by
      rw [List.length_cons, List.range_succ_eq_map]
      exact List.find?_cons_of_pos (decide_eq_true h)
    rw [firstFree, hfind, Option.getD_some]

theorem distinctName_of_not_mem {taken : List StateName} {proposal : StateName}
    (h : proposal ∉ taken) : distinctName taken proposal = proposal :=
  firstFree_of_not_mem h

theorem variant_injective {proposal : StateName} {i j : Nat}
    (h : variant proposal i = variant proposal j) : i = j := by
  have hdot : ∀ n : Nat, proposal ≠ proposal ++ "." ++ toString n := by
    intro n e
    have hlen := congrArg String.length e
    rw [String.length_append, String.length_append] at hlen
    have hone : ".".length = 1 := rfl
    omega
  unfold variant at h
  by_cases hi : i = 0 <;> by_cases hj : j = 0
  · rw [hi, hj]
  · rw [if_pos hi, if_neg hj] at h
    exact absurd h (hdot j)
  · rw [if_neg hi, if_pos hj] at h
    exact absurd h.symm (hdot i)
  · rw [if_neg hi, if_neg hj] at h
    exact toString_nat_injective ((String.append_right_inj _).1 h)

/-- **The search for a distinct name ends** at the first variant of the proposal that is not taken,
which is one of the first `taken.length + 1`. -/
theorem exists_distinctName (taken : List StateName) (proposal : StateName) :
    ∃ i ≤ taken.length, distinctName taken proposal = variant proposal i ∧
      variant proposal i ∉ taken ∧ ∀ j < i, variant proposal j ∈ taken :=
  exists_firstFree fun _ _ => variant_injective

theorem distinctName_not_mem (taken : List StateName) (proposal : StateName) :
    distinctName taken proposal ∉ taken :=
  firstFree_not_mem fun _ _ => variant_injective

theorem freshName_not_mem (a : Automaton) (base : StateName) : a.freshName base ∉ a.states := by
  refine firstFree_not_mem fun i j h => ?_
  have e := congrArg String.length ((String.append_right_inj base).1 h)
  rwa [String.length_ofList, String.length_ofList, List.length_replicate,
    List.length_replicate] at e

theorem freshName_of_not_mem {a : Automaton} {base : StateName} (h : base ∉ a.states) :
    a.freshName base = base := by
  have hfirst : base ++ String.ofList (List.replicate 0 '\'') = base := String.append_empty
  exact (firstFree_of_not_mem (hfirst.symm ▸ h)).trans hfirst

/-- **A fresh name has a quote in it if the given one is taken.** -/
theorem quote_mem_freshName {a : Automaton} {base : StateName} (h : base ∈ a.states) :
    '\'' ∈ (a.freshName base).toList := by
  obtain ⟨i, hi⟩ : ∃ i, a.freshName base = base ++ String.ofList (List.replicate i '\'') :=
    ⟨_, rfl⟩
  cases i with
  | zero =>
    have hbase : a.freshName base = base := hi.trans String.append_empty
    exact absurd h (hbase ▸ freshName_not_mem a base)
  | succ i =>
    rw [hi, String.toList_append, String.toList_ofList, List.replicate_succ]
    exact List.mem_append_right _ List.mem_cons_self

/-! ## 2. Naming a list of sets -/

variable {proposal : StateSet → Nat → StateName} {sets : List StateSet} {s : StateSet}

theorem nameSets_concat : nameSets proposal (sets ++ [s]) =
    (nameSets proposal sets).insert s (distinctName (nameSets proposal sets).values
      (proposal s (nameSets proposal sets).size)) := by
  rw [nameSets, List.foldl_append]
  rfl

/-- A new set comes last, under a name that no set before it has. -/
theorem entries_nameSets_concat (h : s ∉ nameSets proposal sets) :
    (nameSets proposal (sets ++ [s])).entries = (nameSets proposal sets).entries ++
      [(s, distinctName (nameSets proposal sets).values
        (proposal s (nameSets proposal sets).size))] := by
  rw [nameSets_concat, OrderedMap.entries_insert_of_not_mem h]

/-- Each set gets a name, in the order of the sets. -/
theorem keys_nameSets (h : sets.Nodup) : (nameSets proposal sets).keys = sets := by
  induction sets using List.reverseRecOn with
  | nil => rfl
  | append_singleton sets s ih =>
    obtain ⟨hn, _, hd⟩ := List.nodup_append.1 h
    have hs : s ∉ nameSets proposal sets := by
      rw [OrderedMap.mem_def, ih hn]
      exact fun hs => hd s hs s List.mem_cons_self rfl
    rw [OrderedMap.keys, entries_nameSets_concat hs, List.map_append, ← OrderedMap.keys, ih hn]
    rfl

theorem mem_nameSets_iff (h : sets.Nodup) : s ∈ nameSets proposal sets ↔ s ∈ sets := by
  rw [OrderedMap.mem_def, keys_nameSets h]

/-- **No two sets get the same name.** -/
theorem nodup_values_nameSets (h : sets.Nodup) : (nameSets proposal sets).values.Nodup := by
  induction sets using List.reverseRecOn with
  | nil => exact List.nodup_nil
  | append_singleton sets s ih =>
    obtain ⟨hn, _, hd⟩ := List.nodup_append.1 h
    have hs : s ∉ nameSets proposal sets := fun hs =>
      hd s ((mem_nameSets_iff hn).1 hs) s List.mem_cons_self rfl
    rw [OrderedMap.values, entries_nameSets_concat hs, List.map_append, ← OrderedMap.values]
    refine List.nodup_append.2 ⟨ih hn, List.pairwise_singleton _ _, fun n hm m hm' e => ?_⟩
    rw [List.map_singleton, List.mem_singleton] at hm'
    exact distinctName_not_mem _ _ (hm' ▸ e ▸ hm)

theorem size_nameSets (h : sets.Nodup) : (nameSets proposal sets).size = sets.length := by
  have hlength : (nameSets proposal sets).size = (nameSets proposal sets).keys.length :=
    (List.length_map _).symm
  rw [hlength, keys_nameSets h]

/-- **Where the proposals are numbered, the names are.** -/
theorem values_nameSets_of_injective {f : Nat → StateName} (hf : ∀ i j, f i = f j → i = j)
    (hn : sets.Nodup) :
    (nameSets (fun _ i => f i) sets).values = (List.range sets.length).map f := by
  induction sets using List.reverseRecOn with
  | nil => rfl
  | append_singleton sets s ih =>
    obtain ⟨hsets, _, hd⟩ := List.nodup_append.1 hn
    have hs : s ∉ nameSets (fun _ i => f i) sets := fun hs =>
      hd s ((mem_nameSets_iff hsets).1 hs) s List.mem_cons_self rfl
    -- the names before have the numbers below, so the next number is free
    have hfree : f sets.length ∉ (nameSets (fun _ i => f i) sets).values := by
      rw [ih hsets, List.mem_map]
      rintro ⟨i, hi, e⟩
      exact absurd (hf _ _ e ▸ List.mem_range.1 hi) (Nat.lt_irrefl _)
    rw [OrderedMap.values, entries_nameSets_concat hs, size_nameSets hsets,
      distinctName_of_not_mem hfree, List.map_append, ← OrderedMap.values, ih hsets,
      List.length_append, List.length_singleton, List.range_succ, List.map_append]
    rfl

/-- Where different sets are proposed different names, each gets the one proposed. -/
theorem entries_nameSets_of_injOn {f : StateSet → StateName} (hn : sets.Nodup)
    (hf : ∀ s ∈ sets, ∀ t ∈ sets, f s = f t → s = t) :
    (nameSets (fun s _ => f s) sets).entries = sets.map fun s => (s, f s) := by
  induction sets using List.reverseRecOn with
  | nil => rfl
  | append_singleton sets s ih =>
    obtain ⟨hsets, _, hd⟩ := List.nodup_append.1 hn
    have hs : s ∉ sets := fun hs => hd s hs s List.mem_cons_self rfl
    have hentries := ih hsets fun t ht u hu =>
      hf t (List.mem_append_left _ ht) u (List.mem_append_left _ hu)
    -- the names before are proposals for other sets, so none of them is the one for the last set
    have hfree : f s ∉ (nameSets (fun s _ => f s) sets).values := by
      rw [OrderedMap.values, hentries, List.map_map, List.mem_map]
      rintro ⟨t, ht, e⟩
      obtain rfl := hf t (List.mem_append_left _ ht) s
        (List.mem_append_right _ List.mem_cons_self) e
      exact hs ht
    rw [entries_nameSets_concat (by rwa [mem_nameSets_iff hsets]), distinctName_of_not_mem hfree,
      hentries, List.map_append]
    rfl

end Automaton

end RegularLanguages
