import Mathlib.Data.List.Nodup
import RegularLanguages.Ordered.Map

/-!
# Entries and look-ups

An entry of an ordered map is what a look-up of its key finds, since no key occurs twice.

* `mem_entries_iff`, `mem_values_iff` -- entries and values in terms of look-ups;
* `nodup_flatMap_entries` -- members of what is stored, each with its key;
* `entries_insert_of_not_mem`, `insert_insert` -- a new key comes last, a known one gets the new
  value;
* `get?_foldl_insert` -- what inserting all entries of a second map does to a look-up;
* `get?_injective` -- where no value occurs twice, a value belongs to one key;
* `equivBy_iff` -- equality up to order, said of look-ups.
-/

namespace RegularLanguages.OrderedMap

variable {κ ν : Type} [DecidableEq κ]

omit [DecidableEq κ] in
theorem ext_entries {m n : OrderedMap κ ν} (h : m.entries = n.entries) : m = n := by
  cases m
  cases n
  cases h
  rfl

theorem mem_entries_of_get? {m : OrderedMap κ ν} {k : κ} {v : ν} (h : m.get? k = some v) :
    (k, v) ∈ m.entries := by
  obtain ⟨e, he, rfl⟩ := Option.map_eq_some_iff.1 h
  have hk : e.1 = k := by simpa using List.find?_some he
  exact hk ▸ List.mem_of_find?_eq_some he

theorem find?_of_nodup {k : κ} {v : ν} : ∀ {es : List (κ × ν)}, (es.map Prod.fst).Nodup →
    (k, v) ∈ es → es.find? (fun e => e.1 = k) = some (k, v)
  | e :: es, hn, h => by
    have hn' := List.nodup_cons.1 hn
    rcases List.mem_cons.1 h with rfl | h
    · exact List.find?_cons_of_pos (decide_eq_true rfl)
    · have hne : e.1 ≠ k := fun he => hn'.1 (he ▸ List.mem_map_of_mem h)
      rw [List.find?_cons_of_neg (by simpa using hne)]
      exact find?_of_nodup hn'.2 h

/-- **The entries are what look-ups find.** -/
theorem mem_entries_iff {m : OrderedMap κ ν} {k : κ} {v : ν} :
    (k, v) ∈ m.entries ↔ m.get? k = some v := by
  refine ⟨fun h => ?_, mem_entries_of_get?⟩
  rw [get?, find?_of_nodup m.nodup h]
  rfl

theorem mem_values_iff {m : OrderedMap κ ν} {v : ν} :
    v ∈ m.values ↔ ∃ k, m.get? k = some v := by
  simp only [values, List.mem_map]
  refine ⟨fun h => ?_, fun h => ?_⟩
  · obtain ⟨⟨k, v⟩, h, rfl⟩ := h
    exact ⟨k, mem_entries_iff.1 h⟩
  · obtain ⟨k, h⟩ := h
    exact ⟨(k, v), mem_entries_iff.2 h, rfl⟩

theorem mem_iff_exists_get? {m : OrderedMap κ ν} {k : κ} : k ∈ m ↔ ∃ v, m.get? k = some v := by
  rw [← isSome_get?_iff, Option.isSome_iff_exists]

omit [DecidableEq κ] in
/-- Pairs of a key and a member of what is stored under it are all different if the members are. -/
theorem nodup_flatMap_entries {β : Type} (m : OrderedMap κ ν) {f : ν → List β}
    (hf : ∀ v, (f v).Nodup) : (m.entries.flatMap fun e => (f e.2).map (e.1, ·)).Nodup := by
  rw [List.nodup_flatMap]
  refine ⟨fun e _ => (hf e.2).map fun x y h => congrArg Prod.snd h, ?_⟩
  have hkeys : m.entries.Pairwise fun e e' => e.1 ≠ e'.1 := List.pairwise_map.1 m.nodup
  refine hkeys.imp fun hne x hx hx' => ?_
  obtain ⟨y, _, rfl⟩ := List.mem_map.1 hx
  obtain ⟨y', _, e⟩ := List.mem_map.1 hx'
  exact hne (congrArg Prod.fst e).symm

theorem insertEntry_of_not_mem {k : κ} {v : ν} : ∀ {es : List (κ × ν)},
    k ∉ es.map Prod.fst → insertEntry k v es = es ++ [(k, v)]
  | [], _ => rfl
  | e :: es, h => by
    have h' := not_or.1 fun he => h (List.mem_cons.2 he)
    have hne : e.1 ≠ k := fun he => h'.1 he.symm
    rw [insertEntry, if_neg hne, insertEntry_of_not_mem h'.2]
    rfl

/-- The entry of a new key comes last. -/
theorem entries_insert_of_not_mem {m : OrderedMap κ ν} {k : κ} {v : ν} (h : k ∉ m) :
    (m.insert k v).entries = m.entries ++ [(k, v)] := insertEntry_of_not_mem h

theorem insertEntry_insertEntry (k : κ) (v w : ν) : ∀ es : List (κ × ν),
    insertEntry k w (insertEntry k v es) = insertEntry k w es
  | [] => if_pos rfl
  | e :: es => by
    by_cases he : e.1 = k
    · rw [insertEntry, if_pos he, insertEntry, if_pos rfl, insertEntry, if_pos he]
    · rw [insertEntry, if_neg he, insertEntry, if_neg he, insertEntry_insertEntry k v w es,
        insertEntry, if_neg he]

/-- Of two values that are put under a key, the second one stays. -/
theorem insert_insert (m : OrderedMap κ ν) (k : κ) (v w : ν) :
    (m.insert k v).insert k w = m.insert k w :=
  ext_entries (insertEntry_insertEntry k v w m.entries)

/-- Inserting entries with different keys overwrites exactly these keys. -/
theorem get?_foldl_insert (f : ν → ν) (k : κ) : ∀ {es : List (κ × ν)} {m : OrderedMap κ ν},
    (es.map Prod.fst).Nodup → (es.foldl (fun m e => m.insert e.1 (f e.2)) m).get? k =
      (((es.find? fun e => e.1 = k).map Prod.snd).map f).or (m.get? k)
  | [], _, _ => rfl
  | e :: es, m, hn => by
    have hn' := List.nodup_cons.1 hn
    rw [List.foldl_cons, get?_foldl_insert f k hn'.2]
    by_cases he : e.1 = k
    · have hnone : es.find? (fun e => decide (e.1 = k)) = none := by
        refine List.find?_eq_none.2 fun d hd h => hn'.1 ?_
        rw [he, ← of_decide_eq_true h]
        exact List.mem_map_of_mem hd
      rw [hnone, List.find?_cons_of_pos (by simpa using he)]
      simp [he]
    · rw [List.find?_cons_of_neg (by simpa using he)]
      have hne : ¬ k = e.1 := fun h => he h.symm
      simp [hne]

omit [DecidableEq κ] in
theorem fst_eq_of_nodup_snd : ∀ {es : List (κ × ν)}, (es.map Prod.snd).Nodup → ∀ {k l : κ} {v : ν},
    (k, v) ∈ es → (l, v) ∈ es → k = l
  | e :: es, hn, k, l, v, hk, hl => by
    have hn' := List.nodup_cons.1 hn
    have hmem : ∀ {x : κ}, (x, v) ∈ es → v ∈ es.map Prod.snd := fun h =>
      List.mem_map_of_mem (f := Prod.snd) h
    rcases List.mem_cons.1 hk with rfl | hk' <;> rcases List.mem_cons.1 hl with e | hl'
    · exact (congrArg Prod.fst e).symm
    · exact absurd (hmem hl') hn'.1
    · exact absurd (e ▸ hmem hk') hn'.1
    · exact fst_eq_of_nodup_snd hn'.2 hk' hl'

/-- Where no value occurs twice, a value belongs to one key. -/
theorem get?_injective {m : OrderedMap κ ν} (h : m.values.Nodup) {k l : κ} {v : ν}
    (hk : m.get? k = some v) (hl : m.get? l = some v) : k = l :=
  fst_eq_of_nodup_snd h (mem_entries_iff.2 hk) (mem_entries_iff.2 hl)

omit [DecidableEq κ] in
/-- Related answers are both missing, or both there and related. -/
theorem rel_cases {r : ν → ν → Prop} {x y : Option ν} (h : Option.Rel r x y) :
    (x = none ∧ y = none) ∨ ∃ v w, x = some v ∧ y = some w ∧ r v w := by
  cases h with
  | none => exact Or.inl ⟨rfl, rfl⟩
  | some hr => exact Or.inr ⟨_, _, rfl, rfl, hr⟩

omit [DecidableEq κ] in
/-- Answers of which both or neither are there are related if they are where both are. -/
theorem rel_of_isSome_eq {r : ν → ν → Prop} {x y : Option ν} (h : x.isSome = y.isSome)
    (hr : ∀ v w, x = some v → y = some w → r v w) : Option.Rel r x y := by
  cases x with
  | none =>
    cases y with
    | none => exact .none
    | some w => cases h
  | some v =>
    cases y with
    | none => cases h
    | some w => exact .some (hr v w rfl rfl)

/-- **Maps are equal up to order if look-ups of the same key find related values.** -/
theorem equivBy_iff {r : ν → ν → Prop} {m n : OrderedMap κ ν} :
    m.EquivBy r n ↔ ∀ k, Option.Rel r (m.get? k) (n.get? k) := by
  constructor
  · intro h k
    obtain ⟨hm, hn⟩ := h
    cases hk : m.get? k with
    | none =>
      have hnone : n.get? k = none := get?_eq_none_iff.2 fun h => get?_eq_none_iff.1 hk (hn k h)
      rw [hnone]
      exact .none
    | some v =>
      obtain ⟨w, hw, hr⟩ := hm (k, v) (mem_entries_iff.2 hk)
      rw [Option.mem_def.1 hw]
      exact .some hr
  · intro h
    refine ⟨fun ⟨k, v⟩ he => ?_, fun k hk => ?_⟩
    · rcases rel_cases (h k) with ⟨hv, _⟩ | ⟨v', w, hv, hw, hr⟩
      · cases hv.symm.trans (mem_entries_iff.1 he)
      · cases hv.symm.trans (mem_entries_iff.1 he)
        exact ⟨w, hw, hr⟩
    · obtain ⟨w, hw⟩ := mem_iff_exists_get?.1 hk
      rcases rel_cases (h k) with ⟨_, hnone⟩ | ⟨v, _, hv, _, _⟩
      · cases hnone.symm.trans hw
      · exact mem_iff_exists_get?.2 ⟨v, hv⟩

theorem equivBy_refl {r : ν → ν → Prop} (hr : ∀ v, r v v) (m : OrderedMap κ ν) : m.EquivBy r m := by
  refine equivBy_iff.2 fun k => ?_
  cases m.get? k with
  | none => exact .none
  | some v => exact .some (hr v)

omit [DecidableEq κ] in
theorem rel_trans {r : ν → ν → Prop} (hr : ∀ u v w, r u v → r v w → r u w) {x y z : Option ν}
    (h : Option.Rel r x y) (h' : Option.Rel r y z) : Option.Rel r x z := by
  cases h with
  | none => exact h'
  | some huv =>
    cases h' with
    | some hvw => exact .some (hr _ _ _ huv hvw)

theorem EquivBy.trans {r : ν → ν → Prop} {m n o : OrderedMap κ ν} (h : m.EquivBy r n)
    (h' : n.EquivBy r o) (hr : ∀ u v w, r u v → r v w → r u w) : m.EquivBy r o :=
  equivBy_iff.2 fun k => rel_trans hr (equivBy_iff.1 h k) (equivBy_iff.1 h' k)

end RegularLanguages.OrderedMap
