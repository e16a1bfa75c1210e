import Homoicon.CommandLine

/-!
# The program

Runs a script, code given as an argument, or the lines of the input one after the other.
-/

namespace Homoicon.CommandLine

/-- Prints a report; false if it is one of an error. -/
def Report.print (r : Report) : IO Bool := do
  IO.print r.output
  match r.failure with
  | some text =>
    IO.eprintln (red text)
    pure false
  | none => pure true

/-- Runs the lines of the input until it ends. -/
partial def interact (json : Bool) (m : Machine) : IO UInt32 := do
  IO.print "homoicon> "
  (← IO.getStdout).flush
  let line ← (← IO.getStdin).getLine
  if line.isEmpty then return 0
  let code := line.trimAscii.toString
  if code.isEmpty then interact json m
  else
    let r := report json m code
    let _ ← r.print
    match r.machine with
    | some after => interact json after
    | none => pure 3

/-- Runs sources one after the other until one fails. -/
def runAll (json : Bool) : Machine → List String → IO UInt32
  | _, [] => pure 0
  | m, source :: rest => do
    let r := report json m source
    let fine ← r.print
    match r.machine with
    | some after => if fine then runAll json after rest else pure 1
    | none => pure 3

/-- Does what the arguments ask for. -/
def run (line : CommandLine) : IO UInt32 := do
  match Interpreter.boot line.config with
  | .error _ =>
    IO.eprintln (red "cannot set up the library")
    pure 2
  | .ok m =>
    if line.isInteractive then interact line.json m
    else
      match line.file with
      | none => runAll line.json m line.code.toList
      | some name =>
        try
          let source ← IO.FS.readFile name
          runAll line.json m (source :: line.code.toList)
        catch e =>
          IO.eprintln (red ("cannot read " ++ name ++ ": " ++ toString e))
          pure 2

end Homoicon.CommandLine

/-- The program. -/
def main (arguments : List String) : IO UInt32 := do
  match Homoicon.CommandLine.read arguments with
  | .error text =>
    IO.eprintln (Homoicon.CommandLine.red text)
    pure 2
  | .ok line => line.run
