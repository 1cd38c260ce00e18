import Pseudocode.Console.Command

/-!
# The program

The command line on a real terminal.
-/

namespace Pseudocode.Console

instance : Terminal IO where
  put text := do
    let out ← IO.getStdout
    out.putStr text
    out.flush
  warn line := IO.eprintln line
  ask prompt := do
    let out ← IO.getStdout
    out.putStr prompt
    out.flush
    let line ← (← IO.getStdin).getLine
    if line.isEmpty then return none
    else if line.endsWith "\n" then return some (String.ofList line.toList.dropLast)
    else return some line
  textAt path := do
    try return .text (← IO.FS.readFile path)
    catch _ => return .nothing

/-- How the program is used. -/
def usage : String :=
  "usage: pseudocode [-v] [program] [--inputs VALUES] [--files DIR] " ++
    "[--dryrun | --step | --check]\n" ++
    "                  [--trace-format csv|markdown|text] [--max-iterations N] " ++
    "[--max-depth N] [--no-echo]"

end Pseudocode.Console

open Pseudocode.Console in
/-- Runs the command and turns its end into an exit status. -/
def main (arguments : List String) : IO UInt32 := do
  match ← (command arguments : IO Exit) with
  | .status code => return code.toUInt32
  | .refused .help =>
    IO.println usage
    return 0
  | .refused .misuse =>
    IO.eprintln usage
    return 2
  | .broken _ | .exhausted =>
    IO.eprintln "The program stopped unexpectedly."
    return 1
