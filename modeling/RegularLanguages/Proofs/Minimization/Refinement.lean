import Mathlib.Data.List.Basic
import RegularLanguages.Minimization.Refinement
import RegularLanguages.Proofs.Automaton.Path

/-!
# The refinement loop

What holds of a partition before and after every step, and of the partition that is left when the
agenda is empty.

* `Divides` -- every state but some that are held back belongs to exactly one class, no class is
  empty, and the index of a state is the position of its class;
* `Scheduled` -- the agenda holds the classes that wait, each of them once;
* `Invariant` -- both, with no class that mixes accepting states with others, and where a class
  does not wait, its members agree on the class of their successors;
* `invariant_step`, `invariant_run` -- **a step keeps the invariant, so a run ends with all
  classes stable**.
-/

namespace RegularLanguages.Refinement

variable {a : Automaton} {r : Refinement} {all pending members : List StateName}
  {parts : List (List StateName)} {p q : StateName} {i j : Nat} {c : Symbol}

/-! ## 1. Classes and their index -/

/-- The class at a position holds a state. -/
def Holds (r : Refinement) (i : Nat) (p : StateName) : Prop :=
  ∃ members, r.classes[i]? = some members ∧ p ∈ members

theorem Holds.common (hp : r.Holds i p) (hq : r.Holds i q) :
    ∃ members, r.classes[i]? = some members ∧ p ∈ members ∧ q ∈ members := by
  obtain ⟨members, hm, hp⟩ := hp
  obtain ⟨members', hm', hq⟩ := hq
  obtain rfl : members = members' := Option.some.inj (hm.symm.trans hm')
  exact ⟨members, hm, hp, hq⟩

/-- The states of a list are divided into the classes, except for some that are held back. -/
structure Divides (r : Refinement) (all pending : List StateName) : Prop where
  /-- A state is held back or in one class. -/
  perm : (r.classes.flatten ++ pending).Perm all
  /-- No class is empty. -/
  ne_nil : ∀ members ∈ r.classes, members ≠ []
  /-- The index of a state is the position of its class. -/
  get?_iff : ∀ p, p ∉ pending → ∀ i, r.classIndex.get? p = some i ↔ r.Holds i p

theorem mem_flatten_iff : p ∈ r.classes.flatten ↔ ∃ i, r.Holds i p := by
  rw [List.mem_flatten]
  refine ⟨fun h => ?_, fun h => ?_⟩
  · obtain ⟨members, hm, hp⟩ := h
    obtain ⟨i, hi⟩ := List.mem_iff_getElem?.1 hm
    exact ⟨i, members, hi, hp⟩
  · obtain ⟨i, members, hi, hp⟩ := h
    exact ⟨members, List.mem_of_getElem? hi, hp⟩

theorem holds_addClass_iff : (r.addClass members).Holds i p ↔
    r.Holds i p ∨ (i = r.classes.length ∧ p ∈ members) := by
  unfold Holds addClass
  rcases Nat.lt_trichotomy i r.classes.length with hi | rfl | hi
  · rw [List.getElem?_append_left hi]
    exact ⟨Or.inl, fun h => h.resolve_right fun h => Nat.ne_of_lt hi h.1⟩
  · rw [List.getElem?_concat_length, List.getElem?_eq_none (Nat.le_refl _)]
    simp
  · have hlen : (r.classes ++ [members]).length ≤ i := by
      rw [List.length_append, List.length_singleton]
      exact hi
    rw [List.getElem?_eq_none (Nat.le_of_lt hi), List.getElem?_eq_none hlen]
    simp [Nat.ne_of_gt hi]

theorem get?_foldl_insert_const {κ ν : Type} [DecidableEq κ] {k : κ} {v : ν} {ks : List κ}
    {m : OrderedMap κ ν} : (ks.foldl (fun m k => m.insert k v) m).get? k =
      if k ∈ ks then some v else m.get? k := by
  induction ks generalizing m with
  | nil => simp
  | cons l ks ih =>
    rw [List.foldl_cons, ih, OrderedMap.get?_insert]
    by_cases hk : k ∈ ks
    · simp [hk]
    · simp [hk]

/-- Adding states that were held back as a class. -/
theorem Divides.addClass (hn : all.Nodup) (hm : members ≠ [])
    (h : r.Divides all (members ++ pending)) : (r.addClass members).Divides all pending := by
  have hflat : (r.addClass members).classes.flatten = r.classes.flatten ++ members := by
    rw [Refinement.addClass, List.flatten_append, List.flatten_singleton]
  refine ⟨?_, fun m hmem => ?_, fun p hp i => ?_⟩
  · rw [hflat, List.append_assoc]
    exact h.perm
  · rcases List.mem_append.1 hmem with hmem | hmem
    · exact h.ne_nil m hmem
    · exact List.mem_singleton.1 hmem ▸ hm
  · have hindex : (r.addClass members).classIndex.get? p =
        if p ∈ members then some r.classes.length else r.classIndex.get? p :=
      get?_foldl_insert_const
    rw [hindex, holds_addClass_iff]
    by_cases hpm : p ∈ members
    · have hnew : ¬ r.Holds i p := fun hold => by
        have hdisjoint := (List.nodup_append.1 (h.perm.nodup_iff.2 hn)).2.2
        exact hdisjoint p (mem_flatten_iff.2 ⟨i, hold⟩) p (List.mem_append_left _ hpm) rfl
      simp only [hpm, if_true, Option.some.injEq, hnew, false_or, and_true, eq_comm]
    · have hp' : p ∉ members ++ pending := by
        rw [List.mem_append, not_or]
        exact ⟨hpm, hp⟩
      simp only [hpm, if_false, h.get?_iff p hp' i, and_false, or_false]

theorem Divides.foldl_addClass (hn : all.Nodup) (hparts : ∀ part ∈ parts, part ≠ [])
    (h : r.Divides all (parts.flatten ++ pending)) :
    (parts.foldl Refinement.addClass r).Divides all pending := by
  induction parts generalizing r with
  | nil => exact h
  | cons part parts ih =>
    refine ih (fun q hq => hparts q (List.mem_cons_of_mem part hq)) ?_
    rw [List.flatten_cons, List.append_assoc] at h
    exact h.addClass hn (hparts part List.mem_cons_self)

/-- The states of a class and of what it is replaced by change places. -/
theorem flatten_set_perm {l : List (List StateName)} {x rest : List StateName}
    (hi : l[i]? = some members) (h : members.Perm (x ++ rest)) :
    ((l.set i x).flatten ++ rest).Perm l.flatten := by
  obtain ⟨hlt, rfl⟩ := List.getElem?_eq_some_iff.1 hi
  have hl : l.flatten = (l.take i).flatten ++ (l[i] ++ (l.drop (i + 1)).flatten) := by
    rw [← List.flatten_cons, ← List.flatten_append, List.getElem_cons_drop, List.take_append_drop]
  rw [List.set_eq_take_append_cons_drop, if_pos hlt, List.flatten_append, List.flatten_cons, hl]
  refine List.perm_iff_count.2 fun p => ?_
  have hcount := List.perm_iff_count.1 h p
  rw [List.count_append] at hcount
  simp only [List.count_append]
  omega

/-- Replacing a class by its first part holds the other parts back. -/
theorem Divides.setClass (h : r.Divides all []) {part rest : List StateName}
    (hi : r.classes[i]? = some members) (hne : part ≠ []) (hp : members.Perm (part ++ rest)) :
    Divides { r with classes := r.classes.set i part } all rest := by
  have hlt : i < r.classes.length := (List.getElem?_eq_some_iff.1 hi).1
  refine ⟨?_, fun m hm => ?_, fun p hrest j => ?_⟩
  · have hperm := h.perm
    rw [List.append_nil] at hperm
    exact (flatten_set_perm hi hp).trans hperm
  · rcases List.mem_or_eq_of_mem_set hm with hm | rfl
    · exact h.ne_nil m hm
    · exact hne
  · rw [h.get?_iff p List.not_mem_nil j, Holds, Holds]
    by_cases hj : i = j
    · subst hj
      have hmem : p ∈ members ↔ p ∈ part := by
        rw [hp.mem_iff, List.mem_append]
        exact ⟨fun h => h.resolve_right hrest, Or.inl⟩
      simp [hi, List.getElem?_set_self hlt, hmem]
    · simp only [List.getElem?_set_ne hj]

/-- **Dividing a class into parts leaves a division.** -/
theorem Divides.divide (hn : all.Nodup) (h : r.Divides all [])
    (hi : r.classes[i]? = some members) (hparts : ∀ part ∈ parts, part ≠ [])
    (hp : members.Perm parts.flatten) : (r.divide i parts).Divides all [] := by
  cases parts with
  | nil => exact h
  | cons part parts =>
    refine Divides.foldl_addClass hn (fun q hq => hparts q (List.mem_cons_of_mem part hq)) ?_
    rw [List.append_nil]
    exact h.setClass hi (hparts part List.mem_cons_self) hp

theorem classes_foldl_addClass :
    (parts.foldl addClass r).classes = r.classes ++ parts := by
  induction parts generalizing r with
  | nil => rw [List.foldl_nil, List.append_nil]
  | cons part parts ih => rw [List.foldl_cons, ih, addClass, List.append_assoc]; rfl

/-- Every class after a division was there before or is one of the parts. -/
theorem mem_classes_divide (h : members ∈ (r.divide i parts).classes) :
    members ∈ r.classes ∨ members ∈ parts := by
  cases parts with
  | nil => exact Or.inl h
  | cons part parts =>
    rw [divide, classes_foldl_addClass, List.mem_append] at h
    rcases h with h | h
    · rcases List.mem_or_eq_of_mem_set h with h | rfl
      · exact Or.inl h
      · exact Or.inr List.mem_cons_self
    · exact Or.inr (List.mem_cons_of_mem part h)

/-! ## 2. The agenda -/

/-- The agenda holds the classes that wait, each of them once. -/
structure Scheduled (r : Refinement) : Prop where
  /-- There is a flag for each class. -/
  length_eq : r.waiting.length = r.classes.length
  /-- No class is in the agenda twice. -/
  nodup : r.agenda.Nodup
  /-- A class is in the agenda iff it waits. -/
  mem_agenda_iff : ∀ i, i ∈ r.agenda ↔ r.waiting[i]? = some true

theorem Scheduled.dequeue {rest : List Nat} (h : r.Scheduled) (hi : r.agenda = i :: rest) :
    (r.dequeue i rest).Scheduled := by
  have hn := h.nodup
  rw [hi] at hn
  obtain ⟨hnot, hrest⟩ := List.nodup_cons.1 hn
  refine ⟨(List.length_set).trans h.length_eq, hrest, fun j => ?_⟩
  have hj := h.mem_agenda_iff j
  rw [hi, List.mem_cons] at hj
  show j ∈ rest ↔ (r.waiting.set i false)[j]? = some true
  by_cases e : i = j
  · subst e
    rw [List.getElem?_set]
    simp [hnot]
  · rw [List.getElem?_set_ne e, ← hj]
    exact ⟨Or.inr, fun h => h.resolve_left fun h => e h.symm⟩

theorem Scheduled.addClass (h : r.Scheduled) : (r.addClass members).Scheduled := by
  refine ⟨by simp [Refinement.addClass, h.length_eq], h.nodup, fun j => ?_⟩
  show j ∈ r.agenda ↔ (r.waiting ++ [false])[j]? = some true
  rw [h.mem_agenda_iff, List.getElem?_append]
  split
  · exact Iff.rfl
  · rename_i hj
    rw [List.getElem?_eq_none (Nat.le_of_not_lt hj), List.getElem?_singleton]
    split <;> simp

theorem Scheduled.foldl_addClass (h : r.Scheduled) :
    (parts.foldl Refinement.addClass r).Scheduled := by
  induction parts generalizing r with
  | nil => exact h
  | cons part parts ih => exact ih h.addClass

theorem Scheduled.divide (h : r.Scheduled) : (r.divide i parts).Scheduled := by
  cases parts with
  | nil => exact h
  | cons part parts =>
    have hset : Scheduled { r with classes := r.classes.set i part } :=
      ⟨h.length_eq.trans List.length_set.symm, h.nodup, h.mem_agenda_iff⟩
    exact hset.foldl_addClass

/-- The classes that are put into the agenda are those with more than one member that are not yet
in it. -/
theorem mem_idle_iff : i ∈ (((r.classes.zip r.waiting).zipIdx.filter
    fun e => isIdle e.1.1 e.1.2).map Prod.snd) ↔ ∃ members, r.classes[i]? = some members ∧
      1 < members.length ∧ r.waiting[i]? = some false := by
  rw [List.mem_map]
  refine ⟨fun h => ?_, fun h => ?_⟩
  · obtain ⟨⟨⟨members, w⟩, j⟩, he, rfl⟩ := h
    obtain ⟨hz, hidle⟩ := List.mem_filter.1 he
    obtain ⟨hm, hw⟩ := List.getElem?_zip_eq_some.1 (List.mk_mem_zipIdx_iff_getElem?.1 hz)
    simp only [isIdle, Bool.and_eq_true, decide_eq_true_eq, Bool.not_eq_true'] at hidle
    exact ⟨members, hm, hidle.1, hidle.2 ▸ hw⟩
  · obtain ⟨members, hm, hlen, hw⟩ := h
    refine ⟨((members, false), i), List.mem_filter.2 ⟨?_, by simpa [isIdle] using hlen⟩, rfl⟩
    exact List.mk_mem_zipIdx_iff_getElem?.2 (List.getElem?_zip_eq_some.2 ⟨hm, hw⟩)

theorem nodup_idle : (((r.classes.zip r.waiting).zipIdx.filter
    fun e => isIdle e.1.1 e.1.2).map Prod.snd).Nodup := by
  refine List.Nodup.sublist (List.filter_sublist.map Prod.snd) ?_
  rw [List.zipIdx_map_snd]
  exact List.nodup_range'

/-- Afterwards a class waits if it did before or has more than one member. -/
theorem waiting_queueIdle_iff (h : r.Scheduled) : r.queueIdle.waiting[i]? = some true ↔
    r.waiting[i]? = some true ∨ ∃ members, r.classes[i]? = some members ∧
      1 < members.length ∧ r.waiting[i]? = some false := by
  show (r.classes.zipWith (fun members w => w || isIdle members w) r.waiting)[i]? = some true ↔ _
  rw [List.getElem?_zipWith_eq_some]
  refine ⟨fun h => ?_, fun h => ?_⟩
  · obtain ⟨members, w, hm, hw, e⟩ := h
    cases w with
    | true => exact Or.inl hw
    | false => exact Or.inr ⟨members, hm, by simpa [isIdle] using e, hw⟩
  · rcases h with hw | ⟨members, hm, hlen, hw⟩
    · have hi : i < r.classes.length := h.length_eq ▸ (List.getElem?_eq_some_iff.1 hw).1
      exact ⟨r.classes[i], true, List.getElem?_eq_getElem hi, hw, rfl⟩
    · exact ⟨members, false, hm, hw, by simpa [isIdle] using hlen⟩

theorem Scheduled.queueIdle (h : r.Scheduled) : r.queueIdle.Scheduled := by
  refine ⟨?_, ?_, fun i => ?_⟩
  · show (r.classes.zipWith _ r.waiting).length = r.classes.length
    rw [List.length_zipWith, h.length_eq, Nat.min_self]
  · refine List.nodup_append.2 ⟨h.nodup, nodup_idle, fun i hi j hj e => ?_⟩
    obtain ⟨_, _, _, hw⟩ := mem_idle_iff.1 hj
    rw [← e, (h.mem_agenda_iff i).1 hi] at hw
    cases hw
  · rw [waiting_queueIdle_iff h, ← h.mem_agenda_iff, ← mem_idle_iff]
    exact List.mem_append

theorem Divides.queueIdle (h : r.Divides all pending) : r.queueIdle.Divides all pending :=
  ⟨h.perm, h.ne_nil, h.get?_iff⟩

/-! ## 3. Stable classes -/

/-- The members of a class agree, for every symbol, on having no successor or on the class of the
successor. -/
def Stable (a : Automaton) (r : Refinement) (i : Nat) : Prop :=
  ∀ p q c, r.Holds i p → r.Holds i q → successorClass a r c p = successorClass a r c q

/-- The classes divide the states, none mixes accepting states with others, and the agenda holds
those that wait. -/
structure Consistent (a : Automaton) (r : Refinement) : Prop where
  /-- The states are divided into the classes. -/
  divides : r.Divides a.stateNames []
  /-- The agenda holds the classes that wait. -/
  scheduled : r.Scheduled
  /-- No class mixes accepting states with others. -/
  accepting : ∀ members ∈ r.classes, ∀ p ∈ members, ∀ q ∈ members,
    a.isAccepting p = a.isAccepting q

/-- What holds of a refinement before and after every step. -/
structure Invariant (a : Automaton) (r : Refinement) : Prop extends Consistent a r where
  /-- A class that does not wait is stable. -/
  stable : ∀ i, r.waiting[i]? ≠ some true → r.Stable a i

theorem Consistent.dequeue {rest : List Nat} (h : Consistent a r) (hi : r.agenda = i :: rest) :
    Consistent a (r.dequeue i rest) :=
  ⟨⟨h.divides.perm, h.divides.ne_nil, h.divides.get?_iff⟩, h.scheduled.dequeue hi, h.accepting⟩

/-- Once all classes with more than one member wait, the others are stable. -/
theorem Consistent.queueIdle (h : Consistent a r) : Invariant a r.queueIdle := by
  refine ⟨⟨h.divides.queueIdle, h.scheduled.queueIdle, h.accepting⟩,
    fun i hw p q c hp hq => ?_⟩
  obtain ⟨members, hm, hp, hq⟩ := hp.common hq
  have hmem : r.classes[i]? = some members := hm
  have hlen : ¬ 1 < members.length := by
    intro hlen
    rw [ne_eq, waiting_queueIdle_iff h.scheduled, not_or] at hw
    have hi : i < r.waiting.length :=
      h.scheduled.length_eq ▸ (List.getElem?_eq_some_iff.1 hmem).1
    cases hb : r.waiting[i] with
    | true => exact hw.1 (List.getElem?_eq_some_iff.2 ⟨hi, hb⟩)
    | false => exact hw.2 ⟨members, hmem, hlen, List.getElem?_eq_some_iff.2 ⟨hi, hb⟩⟩
  match members, hlen, hp, hq with
  | [x], _, hp, hq => rw [List.mem_singleton.1 hp, List.mem_singleton.1 hq]
  | _ :: _ :: rest, hlen, _, _ => exact absurd (Nat.succ_lt_succ (Nat.zero_lt_succ _)) hlen

/-! ## 4. One step -/

theorem length_groups (a : Automaton) (r : Refinement) (i : Nat) (c : Symbol) :
    (groups a r i c).length =
      (OrderedSet.ofList ((r.classes.getD i []).map (successorClass a r c))).size := by
  rw [groups, List.length_map, groupBy, List.length_map]
  rfl

/-- If a symbol makes one group at most, the members agree on it. -/
theorem successorClass_eq_of_groups (h : (groups a r i c).length ≤ 1) (hp : r.Holds i p)
    (hq : r.Holds i q) : successorClass a r c p = successorClass a r c q := by
  obtain ⟨members, hm, hp, hq⟩ := hp.common hq
  have hget : r.classes.getD i [] = members := by
    rw [List.getD_eq_getElem?_getD, hm, Option.getD_some]
  rw [length_groups, hget] at h
  exact OrderedSet.eq_of_mem_of_size_le_one h (OrderedSet.mem_ofList.2 (List.mem_map_of_mem hp))
    (OrderedSet.mem_ofList.2 (List.mem_map_of_mem hq))

/-- A class that no symbol divides is stable. -/
theorem stable_of_parts? (ha : a.WellFormed) (h : parts? a r i = none) : r.Stable a i := by
  intro p q c hp hq
  by_cases hc : c ∈ a.alphabet
  · have hgroups := List.find?_eq_none.1 h _ (List.mem_map_of_mem hc)
    rw [decide_eq_true_eq, Nat.not_lt] at hgroups
    exact successorClass_eq_of_groups hgroups hp hq
  · have hnone : ∀ n, a.step? n c = none := fun n => by
      rw [Automaton.step?, ha.successors_eq_nil hc, List.head?_nil]
    rw [successorClass, successorClass, hnone, hnone]

/-- The parts of a class hold its members, and none is empty. -/
theorem parts?_spec (hm : r.classes[i]? = some members) (h : parts? a r i = some parts) :
    members.Perm parts.flatten ∧ ∀ part ∈ parts, part ≠ [] := by
  obtain ⟨c, _, rfl⟩ := List.mem_map.1 (List.mem_of_find?_eq_some h)
  have hperm := flatten_groups_perm a r i c
  rw [List.getD_eq_getElem?_getD, hm, Option.getD_some] at hperm
  exact ⟨hperm.symm, fun _ => ne_nil_of_mem_groups⟩

/-- Dividing a class keeps everything but the stability of the others. -/
theorem Consistent.divide (h : Consistent a r) (hm : r.classes[i]? = some members)
    (hparts : parts? a r i = some parts) : Consistent a (r.divide i parts) := by
  obtain ⟨hperm, hne⟩ := parts?_spec hm hparts
  refine ⟨h.divides.divide a.states.nodup hm hne hperm, h.scheduled.divide, ?_⟩
  intro part hpart p hp q hq
  rcases mem_classes_divide hpart with hold | hnew
  · exact h.accepting part hold p hp q hq
  · have hmem : ∀ n ∈ part, n ∈ members := fun n hn =>
      hperm.mem_iff.2 (List.mem_flatten.2 ⟨part, hnew, hn⟩)
    exact h.accepting members (List.mem_of_getElem? hm) p (hmem p hp) q (hmem q hq)

/-- A class that nothing divides leaves the agenda. -/
theorem Invariant.dequeue (ha : a.WellFormed) {rest : List Nat} (h : Invariant a r)
    (hi : r.agenda = i :: rest) (hparts : parts? a (r.dequeue i rest) i = none) :
    Invariant a (r.dequeue i rest) := by
  refine ⟨h.toConsistent.dequeue hi, fun j hj => ?_⟩
  by_cases e : i = j
  · exact e ▸ stable_of_parts? ha hparts
  · have hwait : (r.waiting.set i false)[j]? ≠ some true := hj
    rw [List.getElem?_set_ne e] at hwait
    exact h.stable j hwait

/-- **A step keeps the invariant.** -/
theorem invariant_step (ha : a.WellFormed) {s : Refinement} (h : Invariant a r)
    (hs : step a r = some s) : Invariant a s := by
  unfold step at hs
  split at hs
  · cases hs
  · rename_i i rest hi
    have hdequeued := h.toConsistent.dequeue hi
    split at hs
    · rename_i hparts
      cases hs
      exact h.dequeue ha hi hparts
    · rename_i parts hparts
      cases hs
      have hlt : i < r.classes.length := by
        have hw := (h.scheduled.mem_agenda_iff i).1 (hi ▸ List.mem_cons_self)
        exact h.scheduled.length_eq ▸ (List.getElem?_eq_some_iff.1 hw).1
      exact (hdequeued.divide (List.getElem?_eq_getElem hlt) hparts).queueIdle

/-! ## 5. All steps -/

theorem step_eq_none_iff : step a r = none ↔ r.agenda = [] := by
  unfold step
  cases h : r.agenda with
  | nil => simp
  | cons i rest =>
    simp only [List.cons_ne_nil, iff_false]
    split <;> exact Option.some_ne_none _

/-- **A run keeps the invariant and ends with an empty agenda.** -/
theorem invariant_run (ha : a.WellFormed) (h : Invariant a r) :
    Invariant a (run a r) ∧ (run a r).agenda = [] := by
  fun_induction run a r with
  | case1 r hnone => exact ⟨h, step_eq_none_iff.1 hnone⟩
  | case2 r s hs ih => exact ih (invariant_step ha h hs)

/-- At the end all classes are stable. -/
theorem stable_run (ha : a.WellFormed) (h : Invariant a r) (i : Nat) :
    (run a r).Stable a i := by
  obtain ⟨hinv, hagenda⟩ := invariant_run ha h
  refine hinv.stable i fun hw => ?_
  have hi := (hinv.scheduled.mem_agenda_iff i).2 hw
  rw [hagenda] at hi
  exact absurd hi List.not_mem_nil

/-! ## 6. The first partition -/

theorem divides_empty (h : pending.Perm all) : Divides empty all pending :=
  ⟨h, fun _ hm => absurd hm List.not_mem_nil, fun p _ i => by simp [empty, Holds]⟩

theorem scheduled_empty : Scheduled empty :=
  ⟨rfl, List.nodup_nil, fun i => by simp [empty]⟩

/-- Classes that hold all states and do not mix them make a consistent refinement. -/
theorem invariant_ofClasses {classes : List (List StateName)}
    (hperm : classes.flatten.Perm a.stateNames)
    (hacc : ∀ members ∈ classes, ∀ p ∈ members, ∀ q ∈ members,
      a.isAccepting p = a.isAccepting q) : Invariant a (ofClasses classes) := by
  have hne : ∀ part ∈ classes.filter (fun members => !List.isEmpty members), part ≠ [] := by
    intro part hpart
    simpa using (List.mem_filter.1 hpart).2
  have hflat : ((classes.filter fun members => !List.isEmpty members).flatten ++ []).Perm
      a.stateNames := by
    rw [List.append_nil, List.flatten_filter_not_isEmpty]
    exact hperm
  refine Consistent.queueIdle ⟨?_, scheduled_empty.foldl_addClass, ?_⟩
  · exact (divides_empty hflat).foldl_addClass a.states.nodup hne
  · rw [classes_foldl_addClass]
    intro members hm
    exact hacc members (List.mem_filter.1 hm).1

/-- **The first partition satisfies the invariant.** -/
theorem invariant_initialRefinement (a : Automaton) : Invariant a a.initialRefinement := by
  refine invariant_ofClasses ?_ fun members hm p hp q hq => ?_
  · rw [List.flatten_cons, List.flatten_cons, List.flatten_nil, List.append_nil]
    exact List.filter_append_perm _ _
  · simp only [List.mem_cons, List.not_mem_nil, or_false] at hm
    rcases hm with rfl | rfl
    · rw [(List.mem_filter.1 hp).2, (List.mem_filter.1 hq).2]
    · have hp' := (List.mem_filter.1 hp).2
      have hq' := (List.mem_filter.1 hq).2
      rw [Bool.not_eq_true'] at hp' hq'
      rw [hp', hq']

end RegularLanguages.Refinement
