import RegularLanguages.Pipeline

/-!
# Arguments

The arguments behind the name of a command are sorted into options and others. Options may stand
anywhere; behind `--` there are none, and a single dash is none.

* `Form` -- what one argument looks like;
* `IsPlain`, `Strategy.options` -- what looks like no option, and how a strategy is chosen;
* `Arguments.step?` -- sorts one argument;
* `Arguments.sort?` -- sorts them all, unless one is not allowed, given twice or lacks its value.
-/

namespace RegularLanguages

/-- Which options a command has. -/
structure AllowedOptions where
  /-- Whether a strategy may be chosen. -/
  strategy : Bool
  /-- The name of its switch, if it has one. -/
  switch : Option String
  deriving DecidableEq

/-- What an argument looks like. -/
inductive Form where
  /-- No option. -/
  | plain
  /-- Two dashes alone. -/
  | endOfOptions
  /-- The choice of a strategy, with the name given in the same argument or not. -/
  | strategy (name : Option (List Char))
  /-- Two dashes and a name. -/
  | switch (name : List Char)
  /-- A dash and a letter that means nothing. -/
  | unknown
  deriving DecidableEq

/-- The form of an argument behind two dashes. -/
def Form.ofLong (name : List Char) : Form :=
  if name = [] then .endOfOptions
  else if name.takeWhile (· ≠ '=') = "strategy".toList then
    match name.dropWhile (· ≠ '=') with
    | [] => .strategy none
    | _ :: value => .strategy (some value)
  else .switch name

/-- The form of an argument. -/
def Form.of : List Char → Form
  | '-' :: '-' :: name => .ofLong name
  | ['-', 's'] => .strategy none
  | '-' :: 's' :: '=' :: value => .strategy (some value)
  | '-' :: 's' :: value => .strategy (some value)
  | '-' :: _ :: _ => .unknown
  | _ => .plain

/-- An argument looks like no option if it does not begin with a dash or is a dash alone. -/
def IsPlain (arg : String) : Prop := arg.toList = ['-'] ∨ arg.toList.head? ≠ some '-'

/-- The ways to choose a strategy: the long option with the name behind it or in the same argument,
and the short one, where the sign between them can be left out, too. -/
def Strategy.options (s : Strategy) : List (List String) :=
  [["--strategy", s.name], ["--strategy=" ++ s.name], ["-s", s.name], ["-s=" ++ s.name],
    ["-s" ++ s.name]]

/-- What the next argument is taken for. -/
inductive ArgumentMode where
  /-- What its form says. -/
  | any
  /-- The name of a strategy. -/
  | strategyName
  /-- No option. -/
  | plainOnly
  deriving DecidableEq

/-- The arguments of a command, sorted. -/
structure Arguments where
  /-- Those that are no options, in order. -/
  plain : List String
  /-- The strategy chosen. -/
  strategy : Option Strategy
  /-- Whether the switch is given. -/
  switched : Bool
  deriving DecidableEq

namespace Arguments

/-- One more argument that is no option. -/
def add (a : Arguments) (arg : String) : Arguments := { a with plain := a.plain ++ [arg] }

/-- Chooses a strategy by its name. It must not be chosen twice. -/
def choose? (a : Arguments) (name : List Char) : Option Arguments :=
  if a.strategy.isSome then none
  else (Strategy.ofName? (String.ofList name)).map fun s => { a with strategy := some s }

/-- Turns the switch on. It must not be given twice. -/
def switch? (a : Arguments) : Option Arguments :=
  if a.switched then none else some { a with switched := true }

/-- Sorts one argument, and says what the next one is taken for. -/
def step? (allowed : AllowedOptions) (s : ArgumentMode × Arguments) (arg : String) :
    Option (ArgumentMode × Arguments) :=
  match s with
  | (.plainOnly, a) => some (.plainOnly, a.add arg)
  | (.strategyName, a) => (a.choose? arg.toList).map (.any, ·)
  | (.any, a) =>
    match Form.of arg.toList with
    | .plain => some (.any, a.add arg)
    | .endOfOptions => some (.plainOnly, a)
    | .strategy none => if allowed.strategy then some (.strategyName, a) else none
    | .strategy (some name) => if allowed.strategy then (a.choose? name).map (.any, ·) else none
    | .switch name =>
      if allowed.switch = some (String.ofList name) then a.switch?.map (.any, ·) else none
    | .unknown => none

/-- Sorts the arguments of a command. -/
def sort? (allowed : AllowedOptions) (args : List String) : Option Arguments :=
  match args.foldlM (step? allowed) (.any, ⟨[], none, false⟩) with
  | none => none
  | some (.strategyName, _) => none
  | some (_, a) => some a

end Arguments

end RegularLanguages
