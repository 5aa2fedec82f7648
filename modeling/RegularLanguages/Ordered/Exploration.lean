import RegularLanguages.Ordered.Set

/-!
# Breadth-first exploration

Everything that can be reached from some elements by following a successor function, in the order
in which a breadth-first search comes upon it. Epsilon closures, reachable states and the state
sets of the subset construction are explorations.

* `explore` -- reads the set it builds from left to right and appends the successors of each
  member;
* `Reaches` -- what can be reached at all;
* `mem_explore_iff` -- **an exploration finds exactly that**, if its bound is not too small;
* `Worklist` -- the same search with a queue of what is still to be looked at, and no bound.
-/

namespace RegularLanguages

variable {α : Type}

/-! ## 1. The search -/

section Search

variable [DecidableEq α]

/-- Appends the successors of the members of `seen` from position `i` on, one member a step, for
at most the given number of steps. -/
def exploreFrom (next : α → List α) : Nat → Nat → OrderedSet α → OrderedSet α
  | 0, _, seen => seen
  | steps + 1, i, seen =>
    match seen.toList[i]? with
    | none => seen
    | some a => exploreFrom next steps (i + 1) (seen.append (next a))

/-- The elements reachable from `init` along `next`, in breadth-first order. The bound is a number
that the count of reachable elements does not exceed. -/
def explore (next : α → List α) (bound : Nat) (init : List α) : OrderedSet α :=
  exploreFrom next bound 0 (OrderedSet.ofList init)

end Search

/-! ## 2. What it finds -/

/-- The elements that can be reached from those of a list along a successor function. -/
inductive Reaches (next : α → List α) (init : List α) : α → Prop where
  | init {a : α} (h : a ∈ init) : Reaches next init a
  | step {a b : α} (ha : Reaches next init a) (hb : b ∈ next a) : Reaches next init b

/-- A number that no list of different reachable elements exceeds in length. -/
def BoundsReach (next : α → List α) (init : List α) (bound : Nat) : Prop :=
  ∀ l : List α, l.Nodup → (∀ a ∈ l, Reaches next init a) → l.length ≤ bound

variable [DecidableEq α] {next : α → List α} {init : List α}

theorem reaches_of_mem_exploreFrom {a : α} : ∀ {steps i : Nat} {seen : OrderedSet α},
    (∀ b ∈ seen, Reaches next init b) → a ∈ exploreFrom next steps i seen → Reaches next init a
  | 0, _, _, h, ha => h a ha
  | steps + 1, i, seen, h, ha => by
    unfold exploreFrom at ha
    split at ha
    · exact h a ha
    · rename_i b hb
      refine reaches_of_mem_exploreFrom (fun c hc => ?_) ha
      rcases OrderedSet.mem_append.1 hc with hc | hc
      · exact h c hc
      · exact .step (h b (List.mem_of_getElem? hb)) hc

theorem mem_exploreFrom_of_mem {a : α} : ∀ {steps i : Nat} {seen : OrderedSet α},
    a ∈ seen → a ∈ exploreFrom next steps i seen
  | 0, _, _, h => h
  | steps + 1, i, seen, h => by
    unfold exploreFrom
    split
    · exact h
    · exact mem_exploreFrom_of_mem (OrderedSet.mem_append.2 (Or.inl h))

/-- With enough steps left for all reachable elements, the result is closed under successors. -/
theorem next_mem_exploreFrom {bound : Nat} (hb : BoundsReach next init bound) :
    ∀ {steps i : Nat} {seen : OrderedSet α}, (∀ b ∈ seen, Reaches next init b) →
      (∀ j b, j < i → seen.toList[j]? = some b → ∀ c ∈ next b, c ∈ seen) → bound ≤ steps + i →
      ∀ a ∈ exploreFrom next steps i seen, ∀ c ∈ next a, c ∈ exploreFrom next steps i seen
  | 0, i, seen, hr, hd, hi, a, ha, c, hc => by
    have hlen := hb seen.toList seen.nodup hr
    have ha' : a ∈ seen.toList := ha
    obtain ⟨j, hj, e⟩ := List.mem_iff_getElem.1 ha'
    refine hd j a (by omega) ?_ c hc
    rw [List.getElem?_eq_getElem hj, e]
  | steps + 1, i, seen, hr, hd, hi, a, ha, c, hc => by
    unfold exploreFrom at ha ⊢
    split at ha
    · rename_i hnone
      have hlen := List.getElem?_eq_none_iff.1 hnone
      obtain ⟨j, hj, e⟩ := List.mem_iff_getElem.1 (OrderedSet.mem_def.1 ha)
      refine hd j a (by omega) ?_ c hc
      rw [List.getElem?_eq_getElem hj, e]
    · rename_i b hsome
      refine next_mem_exploreFrom hb (fun d h => ?_) (fun j d hj hget e he => ?_)
        (by omega) a ha c hc
      · rcases OrderedSet.mem_append.1 h with h | h
        · exact hr d h
        · exact .step (hr b (List.mem_of_getElem? hsome)) h
      · have hpre := seen.toList_prefix_append (next b)
        have hi' : i < seen.toList.length := (List.getElem?_eq_some_iff.1 hsome).1
        have hold : seen.toList[j]? = some d := by
          obtain ⟨rest, hrest⟩ := hpre
          rw [← hrest, List.getElem?_append_left (by omega)] at hget
          exact hget
        rcases Nat.lt_or_eq_of_le (Nat.le_of_lt_succ hj) with hlt | rfl
        · exact OrderedSet.mem_append.2 (Or.inl (hd j d hlt hold e he))
        · obtain rfl : b = d := Option.some.inj (hsome.symm.trans hold)
          exact OrderedSet.mem_append.2 (Or.inr he)

/-- **An exploration finds exactly what can be reached**, if the bound is not too small. -/
theorem mem_explore_iff {bound : Nat} (hb : BoundsReach next init bound) {a : α} :
    a ∈ explore next bound init ↔ Reaches next init a := by
  have hinit : ∀ b ∈ OrderedSet.ofList init, Reaches next init b := fun b h =>
    .init (OrderedSet.mem_ofList.1 h)
  constructor
  · exact reaches_of_mem_exploreFrom hinit
  · intro h
    induction h with
    | init h => exact mem_exploreFrom_of_mem (OrderedSet.mem_ofList.2 h)
    | step _ hb' ih =>
      exact next_mem_exploreFrom hb hinit (fun j _ hj => absurd hj (Nat.not_lt_zero j))
        (Nat.le_refl _) _ ih _ hb'

omit [DecidableEq α] in
/-- A list of everything that can be reached bounds the exploration by its length. -/
theorem boundsReach_of_subset {all : List α} (h : ∀ a, Reaches next init a → a ∈ all) :
    BoundsReach next init all.length := fun _ hn hl =>
  hn.length_le_of_subset fun a ha => h a (hl a ha)

/-! ## 3. The search with a queue -/

/-- How far a breadth-first search is. -/
structure Worklist (α : Type) where
  /-- The elements that are found, in this order. -/
  found : OrderedSet α
  /-- The elements that are still to be looked at, the next one first. -/
  pending : List α

namespace Worklist

/-- Notes an element. A new one is found, and is looked at after all others. -/
def note (r : Worklist α) (a : α) : Worklist α :=
  if a ∈ r.found then r else ⟨r.found.insert a, r.pending ++ [a]⟩

/-- The search from some elements, all of which are still to be looked at. -/
def ofList (init : List α) : Worklist α := init.foldl note ⟨∅, []⟩

/-- Takes an element off the queue and notes its successors. There is no step when nothing is left
to be looked at. -/
def step (next : α → List α) (r : Worklist α) : Option (Worklist α) :=
  match r.pending with
  | [] => none
  | a :: rest => some ((next a).foldl note ⟨r.found, rest⟩)

/-- The search after so many steps, or where it ends before. -/
def after (next : α → List α) : Nat → Worklist α → Worklist α
  | 0, r => r
  | n + 1, r =>
    match step next r with
    | none => r
    | some r' => after next n r'

end Worklist

end RegularLanguages
