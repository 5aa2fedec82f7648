import RegularLanguages.CommandLine.Command

/-!
# The program

Reads the files that the command names, and prints what it answers.
-/

namespace RegularLanguages

/-- The content of a file on disk. -/
def readFile (path : String) : IO FileContent := do
  try
    let bytes ← IO.FS.readBinFile path
    return some bytes
  catch _ =>
    return none

/-- The contents of all files that a list of arguments mentions as files. -/
def readFiles (args : List String) : IO (List (String × FileContent)) :=
  match Command.parse? args with
  | none => return []
  | some command => command.paths.mapM fun path => do return (path, ← readFile path)

end RegularLanguages

/-- Runs the program: reads, prints, and ends with the exit code. -/
def main (args : List String) : IO UInt32 := do
  let contents ← RegularLanguages.readFiles args
  let outcome := RegularLanguages.execute (fun path => (contents.lookup path).join) args
  IO.print outcome.output
  match outcome with
  | .failed failure => IO.eprintln ("Error: " ++ failure.message)
  | _ => pure ()
  return outcome.exitCode.toUInt32
