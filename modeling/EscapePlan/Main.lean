import EscapePlan.CommandLine.Program

/-!
# The command line

Reads the files that the arguments name, runs the program on them and prints what comes
of it.
-/

namespace EscapePlan

/-- Reads a file. -/
def readContent (path : String) : IO FileContent := do
  try
    return .ok (← IO.FS.readBinFile path)
  catch error =>
    match error with
    | .noFileOrDirectory _ _ _ => return .error .missing
    | .inappropriateType _ _ _ => return .error .directory
    | error => return .error (.other (toString error))

/-- Reads the files that the arguments name. -/
def readContents (arguments : List String) : IO (List (String × FileContent)) :=
  match Command.ofArguments arguments with
  | .ok command => command.files.mapM fun path => return (path.text, ← readContent path.text)
  | .error _ => return []

end EscapePlan

open EscapePlan in
/-- Runs the program. -/
def main (arguments : List String) : IO UInt32 := do
  let contents ← readContents arguments
  let start ← IO.monoNanosNow
  let contentOf (path : String) : FileContent :=
    ((contents.find? (·.1 = path)).map (·.2)).getD (.error .missing)
  let outcome ← IO.lazyPure fun _ => runProgram contentOf arguments
  let stop ← IO.monoNanosNow
  IO.print (outcome.output ((stop - start) / 1000))
  IO.eprint outcome.complaint
  return outcome.exitCode
