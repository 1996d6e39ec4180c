import ScriptCore.CommandLine
import ScriptCore.Json.Reader

/-!
# The program

Carries out the command its arguments describe, and prints what that command prints.
-/

open ScriptCore

/-- Print the result of a command, or its failure on the error stream. -/
def main (arguments : List String) : IO UInt32 := do
  match CommandLine.respond Json.parse? .plain arguments with
  | .ok output =>
      IO.print output
      return 0
  | .error failure =>
      IO.eprintln failure.message
      return 1
