import RegularLanguages.Automaton.Basic
import RegularLanguages.Ordered.Exploration

/-!
# Sets of states

The states of a subset construction are sets of names. A set is kept as its sorted list, so that
equal sets are equal values and have the same name.

* `StateSet` -- a strictly increasing list of names; `ofList` sorts and drops repetitions;
* `joined` -- the members separated by commas;
* `Automaton.closure`, `Automaton.move` -- what epsilon moves, and one symbol, lead to.
-/

namespace RegularLanguages

/-! ## 1. Sorted sets -/

/-- A finite set of state names. -/
structure StateSet where
  /-- The members in increasing order. -/
  members : List StateName
  /-- Every member is smaller than all behind it. -/
  sorted : members.Pairwise (· < ·)

namespace StateSet

instance : DecidableEq StateSet := fun s t =>
  if h : s.members = t.members then
    isTrue (by cases s; cases t; cases h; rfl)
  else
    isFalse fun e => h (e ▸ rfl)

instance : Membership StateName StateSet := ⟨fun s name => name ∈ s.members⟩

theorem mem_def {s : StateSet} {name : StateName} : name ∈ s ↔ name ∈ s.members := Iff.rfl

instance (s : StateSet) (name : StateName) : Decidable (name ∈ s) :=
  inferInstanceAs (Decidable (name ∈ s.members))

instance : Inhabited StateSet := ⟨⟨[], List.Pairwise.nil⟩⟩

/-- A sorted list with a name put in its place. -/
def insertSorted (name : StateName) : List StateName → List StateName
  | [] => [name]
  | n :: ns =>
    if name < n then name :: n :: ns
    else if name = n then n :: ns
    else n :: insertSorted name ns

theorem mem_insertSorted {name m : StateName} {ns : List StateName} :
    m ∈ insertSorted name ns ↔ m = name ∨ m ∈ ns := by
  induction ns with
  | nil => simp [insertSorted]
  | cons n ns ih =>
    simp only [insertSorted]
    split
    · simp
    · split
      · rename_i e
        subst e
        simp
      · simp [ih, or_left_comm]

theorem lt_of_not_lt_of_ne {s t : String} (h : ¬ s < t) (e : s ≠ t) : t < s := by
  apply Decidable.byContradiction
  intro h'
  exact e (String.le_antisymm (String.not_lt.1 h') (String.not_lt.1 h))

theorem sorted_insertSorted {name : StateName} {ns : List StateName}
    (h : ns.Pairwise (· < ·)) : (insertSorted name ns).Pairwise (· < ·) := by
  induction ns with
  | nil => simp [insertSorted]
  | cons n ns ih =>
    have hn := List.pairwise_cons.1 h
    simp only [insertSorted]
    split
    · rename_i hlt
      refine List.pairwise_cons.2 ⟨fun m hm => ?_, h⟩
      rcases List.mem_cons.1 hm with rfl | hm
      · exact hlt
      · exact String.lt_trans hlt (hn.1 m hm)
    · split
      · exact h
      · rename_i hlt hne
        refine List.pairwise_cons.2 ⟨fun m hm => ?_, ih hn.2⟩
        rcases mem_insertSorted.1 hm with rfl | hm
        · exact lt_of_not_lt_of_ne hlt hne
        · exact hn.1 m hm

/-- The set with one more member. -/
def insert (s : StateSet) (name : StateName) : StateSet :=
  ⟨insertSorted name s.members, sorted_insertSorted s.sorted⟩

/-- The set of the names in a list. -/
def ofList (names : List StateName) : StateSet :=
  names.foldr (fun name s => s.insert name) ⟨[], List.Pairwise.nil⟩

@[simp] theorem mem_insert {s : StateSet} {name m : StateName} :
    m ∈ s.insert name ↔ m = name ∨ m ∈ s := mem_insertSorted

@[simp] theorem mem_ofList {names : List StateName} {m : StateName} :
    m ∈ ofList names ↔ m ∈ names := by
  induction names with
  | nil => simp [ofList, mem_def]
  | cons n ns ih =>
    have e : ofList (n :: ns) = (ofList ns).insert n := rfl
    rw [e, mem_insert, ih, List.mem_cons]

/-- The set without one of its members. -/
def erase (s : StateSet) (name : StateName) : StateSet :=
  ⟨s.members.filter (· ≠ name), s.sorted.sublist List.filter_sublist⟩

/-- Whether the set has no members. -/
def isEmpty (s : StateSet) : Bool := s.members.isEmpty

/-- The members in order, separated by commas. Names that contain commas can make different sets
look the same. -/
def joined (s : StateSet) : StateName := ",".intercalate s.members

end StateSet

/-! ## 2. Moves of sets -/

namespace Automaton

/-- The states that epsilon moves lead to from the members of a set, the members included. Each
further one is the target of a move, so the number of moves bounds how many there are. -/
def closure (a : Automaton) (s : StateSet) : StateSet :=
  .ofList (explore (fun name => a.successors name .epsilon)
    (s.members.length + a.transitionCount) s.members).toList

/-- The states that one symbol leads to from the members of a set. -/
def move (a : Automaton) (s : StateSet) (c : Symbol) : StateSet :=
  .ofList (s.members.flatMap fun name => a.successors name (.symbol c))

/-- The set that reading one symbol leads to, epsilon moves before the next one included. -/
def next (a : Automaton) (s : StateSet) (c : Symbol) : StateSet :=
  a.closure (a.move s c)

/-- The states in which a run may be before anything is read. -/
def initialSet (a : Automaton) : StateSet := a.closure (.ofList [a.start])

/-- Whether a member of the set accepts. -/
def anyAccepting (a : Automaton) (s : StateSet) : Bool := s.members.any a.isAccepting

end Automaton

end RegularLanguages
