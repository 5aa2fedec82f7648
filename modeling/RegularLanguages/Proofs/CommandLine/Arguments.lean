import RegularLanguages.CommandLine.Command

/-!
# Stating commands

A command can be stated in its usual form, with the options anywhere among the other arguments, as
long as these look like no options themselves. Behind two dashes they may look like anything, so
every file with a name and all words can be passed.

* `Form.of_eq_plain_iff` -- what looks like no option: what does not begin with a dash, and a dash
  alone;
* `foldlM_step?_plain`, `foldlM_step?_strategy`, `step?_switch` -- what one group of arguments
  contributes;
* `parse?_check`, `parse?_minimize`, `parse?_toRegex` -- **the usual forms state their commands**;
* `exists_parse?_check`, `exists_parse?_minimize`, `exists_parse?_toRegex` -- **every such command can
  be stated**, whatever the file is called.
-/

namespace RegularLanguages

variable {allowed : AllowedOptions} {mode : ArgumentMode} {a : Arguments} {arg file : String}
  {args before after option words : List String} {s : Strategy}

/-! ## 1. Arguments that look like no option -/

theorem Form.ofLong_ne_plain (name : List Char) : Form.ofLong name ≠ .plain := by
  unfold Form.ofLong
  split
  · nofun
  · split
    · split
      · nofun
      · nofun
    · nofun

/-- **What looks like no option is taken for none**, and nothing else is. -/
theorem Form.of_eq_plain_iff : Form.of arg.toList = .plain ↔ IsPlain arg := by
  unfold IsPlain
  generalize arg.toList = cs
  fun_cases Form.of cs with
  | case1 name => exact iff_of_false (Form.ofLong_ne_plain name) (by simp)
  | case2 => exact iff_of_false (by nofun) (by simp)
  | case3 value => exact iff_of_false (by nofun) (by simp)
  | case4 value hvalue => exact iff_of_false (by nofun) (by simp)
  | case5 c cs => exact iff_of_false (by nofun) (by simp)
  | case6 cs hlong hs heq hvalue hunknown =>
    refine iff_of_true rfl ?_
    cases cs with
    | nil => exact Or.inr (by nofun)
    | cons c cs =>
      by_cases hc : c = '-'
      · subst hc
        cases cs with
        | nil => exact Or.inl rfl
        | cons d cs => exact absurd rfl (hunknown d cs)
      · refine Or.inr fun h => hc ?_
        exact Option.some.inj h

namespace Arguments

/-! ## 2. What arguments contribute -/

/-- Arguments of which each is added are all added. -/
theorem foldlM_step?_of_add
    (h : ∀ x ∈ args, ∀ a : Arguments, step? allowed (mode, a) x = some (mode, a.add x)) :
    args.foldlM (step? allowed) (mode, a) = some (mode, { a with plain := a.plain ++ args }) := by
  induction args generalizing a with
  | nil =>
    rw [List.append_nil]
    rfl
  | cons x args ih =>
    obtain ⟨hx, hargs⟩ := List.forall_mem_cons.1 h
    rw [List.foldlM_cons, hx a]
    show args.foldlM (step? allowed) (mode, a.add x) = _
    rw [ih hargs, add, List.append_assoc]
    rfl

/-- Where options have ended, all arguments are plain. -/
theorem foldlM_step?_plainOnly :
    args.foldlM (step? allowed) (.plainOnly, a) =
      some (.plainOnly, { a with plain := a.plain ++ args }) :=
  foldlM_step?_of_add fun _ _ _ => rfl

/-- So are everywhere those that look like no options. -/
theorem foldlM_step?_plain (h : ∀ x ∈ args, IsPlain x) :
    args.foldlM (step? allowed) (.any, a) = some (.any, { a with plain := a.plain ++ args }) := by
  refine foldlM_step?_of_add fun x hx a => ?_
  unfold step?
  rw [Form.of_eq_plain_iff.2 (h x hx)]

/-- **Each of the ways chooses the strategy**, where none has been chosen. -/
theorem foldlM_step?_strategy (ho : option ∈ s.options) (hallowed : allowed.strategy = true)
    (hnone : a.strategy = none) :
    option.foldlM (step? allowed) (.any, a) = some (.any, { a with strategy := some s }) := by
  obtain ⟨_, switch⟩ := allowed
  obtain ⟨plain, _, switched⟩ := a
  subst hallowed hnone
  simp only [Strategy.options, List.mem_cons, List.not_mem_nil, or_false] at ho
  rcases ho with rfl | rfl | rfl | rfl | rfl
  all_goals
    cases s
    · rfl
    · rfl

/-- The switch is turned on by its name behind two dashes. -/
theorem step?_switch {name : List Char} (hform : Form.of arg.toList = .switch name)
    (hallowed : allowed.switch = some (String.ofList name)) (hoff : a.switched = false) :
    step? allowed (.any, a) arg = some (.any, { a with switched := true }) := by
  unfold step?
  rw [hform]
  show (if allowed.switch = some (String.ofList name) then a.switch?.map (ArgumentMode.any, ·)
    else none) = _
  rw [if_pos hallowed]
  unfold switch?
  rw [hoff]
  rfl

/-! ## 3. Sorting them -/

/-- Once all arguments are sorted, the name of a strategy must not be missing. -/
theorem sort?_of_foldlM (h : args.foldlM (step? allowed) (.any, ⟨[], none, false⟩) = some (mode, a))
    (hmode : mode ≠ .strategyName) : sort? allowed args = some a := by
  unfold sort?
  rw [h]
  cases mode with
  | any => rfl
  | strategyName => exact absurd rfl hmode
  | plainOnly => rfl

theorem sort?_plain (h : ∀ x ∈ args, IsPlain x) : sort? allowed args = some ⟨args, none, false⟩ :=
  sort?_of_foldlM (foldlM_step?_plain h) (by decide)

theorem sort?_endOfOptions : sort? allowed ("--" :: args) = some ⟨args, none, false⟩ := by
  have hstep : step? allowed (.any, ⟨[], none, false⟩) "--" =
      some (.plainOnly, ⟨[], none, false⟩) := rfl
  have hall : ("--" :: args).foldlM (step? allowed) (.any, ⟨[], none, false⟩) =
      some (.plainOnly, ⟨args, none, false⟩) := by
    rw [List.foldlM_cons, hstep]
    exact foldlM_step?_plainOnly
  exact sort?_of_foldlM hall (by decide)

/-- A choice of a strategy may stand anywhere among arguments that look like no options. -/
theorem sort?_strategy (hbefore : ∀ x ∈ before, IsPlain x) (hafter : ∀ x ∈ after, IsPlain x)
    (ho : option ∈ s.options) (hallowed : allowed.strategy = true) :
    sort? allowed (before ++ (option ++ after)) = some ⟨before ++ after, some s, false⟩ := by
  have hall : (before ++ (option ++ after)).foldlM (step? allowed) (.any, ⟨[], none, false⟩) =
      some (.any, ⟨before ++ after, some s, false⟩) := by
    rw [List.foldlM_append, foldlM_step?_plain hbefore]
    show (option ++ after).foldlM (step? allowed) (.any, ⟨before, none, false⟩) = _
    rw [List.foldlM_append, foldlM_step?_strategy ho hallowed rfl]
    exact foldlM_step?_plain hafter
  exact sort?_of_foldlM hall (by decide)

/-- So may the switch. -/
theorem sort?_switch {name : List Char} (hbefore : ∀ x ∈ before, IsPlain x)
    (hafter : ∀ x ∈ after, IsPlain x) (hform : Form.of arg.toList = .switch name)
    (hallowed : allowed.switch = some (String.ofList name)) :
    sort? allowed (before ++ arg :: after) = some ⟨before ++ after, none, true⟩ := by
  have hall : (before ++ arg :: after).foldlM (step? allowed) (.any, ⟨[], none, false⟩) =
      some (.any, ⟨before ++ after, none, true⟩) := by
    rw [List.foldlM_append, foldlM_step?_plain hbefore]
    show (arg :: after).foldlM (step? allowed) (.any, ⟨before, none, false⟩) = _
    rw [List.foldlM_cons, step?_switch hform hallowed rfl]
    exact foldlM_step?_plain hafter
  exact sort?_of_foldlM hall (by decide)

end Arguments

/-! ## 4. The usual forms -/

namespace Command

/-- A name and the arguments behind it state what the sorted arguments do. -/
theorem parse?_of_sort? {name : String} {c : Option Command}
    (hname : allowedOptions? name = some allowed) (hsort : Arguments.sort? allowed args = some a)
    (hc : ofArguments? name a = c) : parse? (name :: args) = c := by
  show ((allowedOptions? name).bind fun allowed =>
    (Arguments.sort? allowed args).bind (ofArguments? name)) = c
  rw [hname]
  show (Arguments.sort? allowed args).bind (ofArguments? name) = c
  rw [hsort]
  exact hc

/-- **The usual form of a check**: a file and words. -/
theorem parse?_check (hname : file ≠ "") (hplain : ∀ x ∈ file :: words, IsPlain x) :
    parse? ("check" :: file :: words) = some (.check file words) :=
  parse?_of_sort? rfl (Arguments.sort?_plain hplain) (if_neg hname)

/-- **The usual forms of a minimization**: a file, and before or behind it the choice of a strategy.
Without a choice it is by refining a partition. -/
theorem parse?_minimize (hname : file ≠ "") (hplain : IsPlain file) :
    parse? ["minimize", file] = some (.minimize file .partition) ∧
      ∀ s : Strategy, ∀ option ∈ s.options,
        parse? ("minimize" :: (option ++ [file])) = some (.minimize file s) ∧
          parse? ("minimize" :: file :: option) = some (.minimize file s) := by
  have hfile : ∀ x ∈ [file], IsPlain x := List.forall_mem_singleton.2 hplain
  have hnone : ∀ x ∈ ([] : List String), IsPlain x := List.forall_mem_nil IsPlain
  refine ⟨parse?_of_sort? rfl (Arguments.sort?_plain hfile) (if_neg hname), fun s option ho => ?_⟩
  constructor
  · exact parse?_of_sort? rfl (Arguments.sort?_strategy hnone hfile ho rfl) (if_neg hname)
  · have hsort : Arguments.sort? ⟨true, none⟩ ([file] ++ (option ++ [])) = _ :=
      Arguments.sort?_strategy hfile hnone ho rfl
    rw [List.append_nil] at hsort
    exact parse?_of_sort? rfl hsort (if_neg hname)

/-- **The usual forms of asking for an expression**: a file, and before or behind it the switch that
leaves the expression as it is found. -/
theorem parse?_toRegex (hname : file ≠ "") (hplain : IsPlain file) :
    parse? ["to-regex", file] = some (.toRegex file true) ∧
      parse? ["to-regex", "--skip-simp", file] = some (.toRegex file false) ∧
      parse? ["to-regex", file, "--skip-simp"] = some (.toRegex file false) := by
  have hfile : ∀ x ∈ [file], IsPlain x := List.forall_mem_singleton.2 hplain
  have hnone : ∀ x ∈ ([] : List String), IsPlain x := List.forall_mem_nil IsPlain
  have hform : Form.of "--skip-simp".toList = .switch "skip-simp".toList := rfl
  refine ⟨?_, ?_, ?_⟩
  · exact parse?_of_sort? rfl (Arguments.sort?_plain hfile) (if_neg hname)
  · exact parse?_of_sort? rfl (Arguments.sort?_switch hnone hfile hform rfl) (if_neg hname)
  · exact parse?_of_sort? rfl (Arguments.sort?_switch hfile hnone hform rfl) (if_neg hname)

end Command

/-! ## 5. Any file -/

/-- Words can be checked against any file with a name. -/
theorem exists_parse?_check (hfile : file ≠ "") (words : List String) :
    ∃ args, Command.parse? args = some (.check file words) := by
  refine ⟨"check" :: "--" :: file :: words, ?_⟩
  exact Command.parse?_of_sort? rfl Arguments.sort?_endOfOptions (if_neg hfile)

/-- The automaton of any file with a name can be minimized by either strategy. -/
theorem exists_parse?_minimize (hfile : file ≠ "") (strategy : Strategy) :
    ∃ args, Command.parse? args = some (.minimize file strategy) := by
  refine ⟨["minimize", "-s", strategy.name, "--", file], ?_⟩
  cases strategy
  all_goals exact if_neg hfile

/-- The expression of any file with a name can be asked for, simplified or not. -/
theorem exists_parse?_toRegex (hfile : file ≠ "") (simplify : Bool) :
    ∃ args, Command.parse? args = some (.toRegex file simplify) := by
  cases simplify with
  | true => exact ⟨["to-regex", "--", file], if_neg hfile⟩
  | false => exact ⟨["to-regex", "--skip-simp", "--", file], if_neg hfile⟩

end RegularLanguages
