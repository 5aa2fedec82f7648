import RegularLanguages.CommandLine.Arguments
import RegularLanguages.Automaton.Description
import RegularLanguages.Files
import RegularLanguages.Pipeline

/-!
# Commands

    check FILE WORD*                       which of the words the automaton accepts
    minimize FILE [--strategy S]           the minimal automaton
    to-regex FILE [--skip-simp]            an expression for the language of the automaton
    compile REGEX WORD* [--strategy S] [--skip-min]
                                           the automaton of an expression, and its verdicts
    scan LEXER INPUT                       the lexemes of a text

* `Command.parse?` -- the command that a list of arguments states, if they are right;
* `Command.run` -- what a command prints, or why it fails;
* `execute` -- the exit code and what is printed: 2 for wrong arguments, 1 for a failure, and
  nothing is printed then.
-/

namespace RegularLanguages

/-- What the program is asked to do. -/
inductive Command where
  | check (file : String) (words : List String)
  | minimize (file : String) (strategy : Strategy)
  | toRegex (file : String) (simplify : Bool)
  | compile (regex : String) (words : List String) (strategy : Strategy) (minimize : Bool)
  | scan (lexer input : String)
  deriving DecidableEq

namespace Command

/-! ## 1. Reading -/

/-- The options of the command of a name; a name without options is no command. -/
def allowedOptions? : String → Option AllowedOptions
  | "check" => some ⟨false, none⟩
  | "minimize" => some ⟨true, none⟩
  | "to-regex" => some ⟨false, some "skip-simp"⟩
  | "compile" => some ⟨true, some "skip-min"⟩
  | "scan" => some ⟨false, none⟩
  | _ => none

/-- The command of a name with sorted arguments. Files must have names. -/
def ofArguments? (name : String) (a : Arguments) : Option Command :=
  let strategy := a.strategy.getD .partition
  match name, a.plain with
  | "check", file :: words => if file = "" then none else some (.check file words)
  | "minimize", [file] => if file = "" then none else some (.minimize file strategy)
  | "to-regex", [file] => if file = "" then none else some (.toRegex file !a.switched)
  | "compile", regex :: words => some (.compile regex words strategy !a.switched)
  | "scan", [lexer, input] => if lexer = "" ∨ input = "" then none else some (.scan lexer input)
  | _, _ => none

/-- The command that a list of arguments states. -/
def parse? : List String → Option Command
  | [] => none
  | name :: args => do
    let allowed ← allowedOptions? name
    let sorted ← Arguments.sort? allowed args
    ofArguments? name sorted

/-- The files that a command reads. -/
def paths : Command → List String
  | .check file _ => [file]
  | .minimize file _ => [file]
  | .toRegex file _ => [file]
  | .compile _ _ _ _ => []
  | .scan lexer input => [lexer, input]

/-! ## 2. Running -/

/-- The deterministic automaton of a file: the one described if it is deterministic, else the one
of the subset construction. -/
def loadDeterministic (content : FileContent) : Except Failure Automaton := do
  let a ← Automaton.load content
  return if a.isDeterministic then a else a.determinize

/-- One line for each word, with the verdict of the automaton. -/
def verdicts (a : Automaton) (words : List String) : String :=
  String.join (words.map fun w =>
    w ++ "\t" ++ (if a.accepts w.toList then "accept" else "reject") ++ "\n")

/-- One line for each lexeme. -/
def lexemeLines (lexemes : List Lexer.Lexeme) : String :=
  String.join (lexemes.map fun l =>
    l.className ++ "\t" ++ l.relevance.name ++ "\t" ++ Text.escapeAll l.text ++ "\n")

/-- What a command prints, given the contents of files. -/
def run (files : String → FileContent) : Command → Except Failure String
  | .check file words => do
    let a ← loadDeterministic (files file)
    return verdicts a words
  | .minimize file strategy => do
    let a ← loadDeterministic (files file)
    return (a.minimize strategy).render ++ "\n"
  | .toRegex file simplify => do
    let a ← loadDeterministic (files file)
    return (a.decompile { simplify := simplify }).render ++ "\n"
  | .compile regex words strategy minimized => do
    let e ← (Regex.parse regex).mapError Failure.description
    let a := e.compile { strategy := strategy, minimize := minimized }
    return a.render ++ "\n" ++ verdicts a words
  | .scan lexer input => do
    let l ← Lexer.load (files lexer)
    let lexemes ← l.scanFile (files input)
    return lexemeLines lexemes

end Command

/-! ## 3. The whole program -/

/-- How the program ends. -/
inductive Outcome where
  /-- This was printed. -/
  | printed (text : String)
  | failed (failure : Failure)
  | wrongUsage
  deriving DecidableEq

/-- The exit code of an outcome. -/
def Outcome.exitCode : Outcome → Nat
  | .printed _ => 0
  | .failed _ => 1
  | .wrongUsage => 2

/-- The standard output of an outcome. -/
def Outcome.output : Outcome → String
  | .printed text => text
  | .failed _ => ""
  | .wrongUsage => ""

/-- What the program does with its arguments, given the contents of files. -/
def execute (files : String → FileContent) (args : List String) : Outcome :=
  match Command.parse? args with
  | none => .wrongUsage
  | some command =>
    match command.run files with
    | .ok text => .printed text
    | .error failure => .failed failure

end RegularLanguages
