import RegularLanguages.Automaton.Construction
import RegularLanguages.Ordered.Grouping

/-!
# Minimization by partition refinement

A partition of the states of an automaton is refined until all members of every class agree, for
every symbol, on the class of their successor, where having no successor counts as a class of its
own. Every class then becomes one state.

* `Refinement` -- the classes, the class of each state, and the classes that have to be looked at
  again;
* `Refinement.step` -- takes one class from the agenda and splits it by the first symbol on which
  its members disagree;
* `excess_step` -- why this ends: a step splits a class or shortens the agenda;
* `Refinement.run` -- all steps;
* `initialRefinement` -- the first division, into accepting and other states;
* `representative` -- the state that stands for a class: the start for its own class, else the
  first member;
* `quotient` -- the automaton of the representatives;
* `partitionRefinement` -- all of it, for the reachable states. A missing move counts as different
  from a move into a state from which nothing is accepted, so such states stay, and those that
  differ in their moves stay apart.
-/

namespace RegularLanguages

/-! ## 1. Partitions -/

/-- A partition of states under refinement. Classes are referred to by their position. -/
structure Refinement where
  /-- The classes. -/
  classes : List (List StateName)
  /-- The position of the class of each state. -/
  classIndex : OrderedMap StateName Nat
  /-- For each class, whether it waits in the agenda. -/
  waiting : List Bool
  /-- The classes to look at, in this order. -/
  agenda : List Nat

namespace Refinement

/-- The refinement without classes. -/
def empty : Refinement := ⟨[], ∅, [], []⟩

/-- Adds a class at the end. -/
def addClass (r : Refinement) (members : List StateName) : Refinement :=
  { r with
    classes := r.classes ++ [members]
    classIndex := members.foldl (fun m s => m.insert s r.classes.length) r.classIndex
    waiting := r.waiting ++ [false] }

/-- Replaces a class by parts of it: the first part takes its place, the others come last. -/
def divide (r : Refinement) (i : Nat) : List (List StateName) → Refinement
  | [] => r
  | part :: parts => parts.foldl addClass { r with classes := r.classes.set i part }

/-- Whether a class that is not in the agenda has more than one member, so that it may have to be
divided. -/
def isIdle (members : List StateName) (waiting : Bool) : Bool := 1 < members.length && !waiting

/-- Puts all classes with more than one member into the agenda, unless they are there. -/
def queueIdle (r : Refinement) : Refinement :=
  let idle := (r.classes.zip r.waiting).zipIdx.filter fun e => isIdle e.1.1 e.1.2
  { r with
    waiting := r.classes.zipWith (fun members q => q || isIdle members q) r.waiting
    agenda := r.agenda ++ idle.map Prod.snd }

/-- The partition into the given classes, of which empty ones are left out. -/
def ofClasses (classes : List (List StateName)) : Refinement :=
  ((classes.filter fun c => !c.isEmpty).foldl addClass empty).queueIdle

/-! ## 2. One step -/

/-- The class of the first successor of a state on a symbol. -/
def successorClass (a : Automaton) (r : Refinement) (c : Symbol) (s : StateName) : Option Nat :=
  (a.step? s c).bind r.classIndex.get?

/-- The members of a class, grouped by the class of their successor. -/
def groups (a : Automaton) (r : Refinement) (i : Nat) (c : Symbol) : List (List StateName) :=
  (groupBy (successorClass a r c) (r.classes.getD i [])).map Prod.snd

/-- The groups of a class by the first symbol that makes more than one. -/
def parts? (a : Automaton) (r : Refinement) (i : Nat) : Option (List (List StateName)) :=
  (a.alphabet.toList.map (groups a r i)).find? fun parts => 1 < parts.length

/-- The refinement with the first class of the agenda taken off it. -/
def dequeue (r : Refinement) (i : Nat) (rest : List Nat) : Refinement :=
  { r with waiting := r.waiting.set i false, agenda := rest }

/-- Looks at the first class of the agenda. If it is divided, any other class may have to be
divided again. There is no step when the agenda is empty. -/
def step (a : Automaton) (r : Refinement) : Option Refinement :=
  match r.agenda with
  | [] => none
  | i :: rest =>
    match parts? a (r.dequeue i rest) i with
    | none => some (r.dequeue i rest)
    | some parts => some ((r.dequeue i rest).divide i parts).queueIdle

/-! ## 3. Steps come to an end -/

/-- How many more classes there can be: the members of all classes but the first of each. -/
def excess (r : Refinement) : Nat := (r.classes.flatMap List.tail).length

theorem excess_addClass (r : Refinement) (members : List StateName) :
    (r.addClass members).excess = r.excess + members.tail.length := by
  simp only [excess, addClass, List.flatMap_append, List.length_append, List.flatMap_cons,
    List.flatMap_nil, List.append_nil]

theorem excess_foldl_addClass (parts : List (List StateName)) (r : Refinement) :
    (parts.foldl addClass r).excess = r.excess + (parts.flatMap List.tail).length := by
  induction parts generalizing r with
  | nil => rfl
  | cons p ps ih =>
    rw [List.foldl_cons, ih, excess_addClass, List.flatMap_cons, List.length_append]
    omega

/-- What replacing one element of a list does to the lists made from its elements. -/
theorem length_flatMap_set {α β : Type} (f : α → List β) (x d : α) : ∀ (l : List α) (i : Nat),
    i < l.length →
      ((l.set i x).flatMap f).length + (f (l.getD i d)).length = (l.flatMap f).length + (f x).length
  | a :: l, 0, _ => by
    simp only [List.set_cons_zero, List.flatMap_cons, List.length_append, List.getD_cons_zero]
    omega
  | a :: l, i + 1, h => by
    have ih := length_flatMap_set f x d l i (Nat.lt_of_succ_lt_succ h)
    simp only [List.set_cons_succ, List.flatMap_cons, List.length_append, List.getD_cons_succ]
    omega

/-- The parts of a class hold exactly its members. -/
theorem flatten_groups_perm (a : Automaton) (r : Refinement) (i : Nat) (c : Symbol) :
    (groups a r i c).flatten.Perm (r.classes.getD i []) := by
  have h := flatMap_groupBy_perm (successorClass a r c) (r.classes.getD i [])
  rwa [List.flatMap_def] at h

theorem ne_nil_of_mem_groups {a : Automaton} {r : Refinement} {i : Nat} {c : Symbol}
    {part : List StateName} (h : part ∈ groups a r i c) : part ≠ [] := by
  obtain ⟨⟨k, g⟩, hg, rfl⟩ := List.mem_map.1 h
  exact ne_nil_of_mem_groupBy hg

theorem length_flatMap_tail : ∀ {parts : List (List StateName)}, (∀ p ∈ parts, p ≠ []) →
    (parts.flatMap List.tail).length + parts.length = parts.flatten.length
  | [], _ => rfl
  | p :: ps, h => by
    have ih := length_flatMap_tail fun q hq => h q (List.mem_cons_of_mem _ hq)
    have hp := List.length_pos_iff.2 (h p List.mem_cons_self)
    simp only [List.flatMap_cons, List.flatten_cons, List.length_append, List.length_cons,
      List.length_tail]
    omega

/-- Splitting a class into more than one part leaves less to be divided. -/
theorem excess_divide_lt {a : Automaton} {r : Refinement} {i : Nat} {parts : List (List StateName)}
    (h : parts? a r i = some parts) : (r.divide i parts).excess < r.excess := by
  have hmem := List.mem_of_find?_eq_some h
  have hlen : 1 < parts.length := by simpa using List.find?_some h
  obtain ⟨c, _, rfl⟩ := List.mem_map.1 hmem
  have hne := fun p (hp : p ∈ groups a r i c) => ne_nil_of_mem_groups hp
  have hall := (flatten_groups_perm a r i c).length_eq
  have hpred := length_flatMap_tail hne
  have hi : i < r.classes.length := by
    apply Decidable.byContradiction
    intro hi
    have e : r.classes.getD i [] = [] := by
      simp [List.getD, List.getElem?_eq_none (Nat.le_of_not_lt hi)]
    rw [e, List.length_nil] at hall
    omega
  generalize groups a r i c = ps at *
  match ps, hlen with
  | p :: q :: rest, _ =>
    have hset := length_flatMap_set List.tail p [] r.classes i hi
    rw [List.length_tail, ← hall] at hset
    rw [divide, excess_foldl_addClass]
    simp only [excess, List.flatMap_cons, List.flatten_cons, List.length_append, List.length_cons,
      List.length_tail] at *
    omega

@[simp] theorem excess_queueIdle (r : Refinement) : r.queueIdle.excess = r.excess := rfl

@[simp] theorem excess_dequeue (r : Refinement) (i : Nat) (rest : List Nat) :
    (r.dequeue i rest).excess = r.excess := rfl

/-- **A step splits a class or shortens the agenda.** -/
theorem excess_step {a : Automaton} {r s : Refinement} (h : step a r = some s) :
    s.excess < r.excess ∨ s.excess = r.excess ∧ s.agenda.length < r.agenda.length := by
  unfold step at h
  split at h
  · simp at h
  · rename_i i rest hw
    split at h
    · obtain rfl := Option.some.inj h
      exact Or.inr ⟨rfl, by simp [dequeue, hw]⟩
    · rename_i parts hp
      obtain rfl := Option.some.inj h
      exact Or.inl (by simpa using excess_divide_lt hp)

/-! ## 4. All steps -/

/-- The refinement at which the agenda is empty. -/
def run (a : Automaton) (r : Refinement) : Refinement :=
  match _h : step a r with
  | none => r
  | some s => run a s
termination_by (r.excess, r.agenda.length)
decreasing_by
  rcases excess_step _h with hlt | ⟨heq, hlt⟩
  · exact Prod.Lex.left _ _ hlt
  · rw [heq]
    exact Prod.Lex.right _ hlt

end Refinement

/-! ## 5. One state for each class -/

namespace Automaton

/-- The division of all states into accepting and other ones. -/
def initialRefinement (a : Automaton) : Refinement :=
  .ofClasses
    [a.stateNames.filter a.isAccepting, a.stateNames.filter fun name => !a.isAccepting name]

/-- The state that stands for the class of a state. -/
def representative (a : Automaton) (classes : List (List StateName)) (name : StateName) :
    StateName :=
  match classes.find? fun members => name ∈ members with
  | none => name
  | some members => if a.start ∈ members then a.start else members.headD name

/-- The automaton in which every class is one state, with the moves of its representative. -/
def quotient (a : Automaton) (classes : List (List StateName)) : Automaton :=
  ofRows a.start a.alphabet.toList
    ((a.states.values.filter fun s => a.representative classes s.name = s.name).map fun s =>
      s.row (a.representative classes))

/-- The deterministic automaton in which indistinguishable states are one. -/
def partitionRefinement (a : Automaton) : Automaton :=
  let pruned := a.reachable
  pruned.quotient (pruned.initialRefinement.run pruned).classes

end Automaton

end RegularLanguages
