import Homoicon.Interpreter
import Homoicon.Json.Reader

/-!
# The command line

What the arguments of the program ask for, and how the outcome of a run is reported: a value after
`==` on the output, an error in red on the error output.
-/

namespace Homoicon

/-- Bytes of the stack of the thread that evaluates. -/
def evalStackBytes : Nat := 268435456

/-- The limits of the program.  A frame of this evaluator and a rule that is matched by it are
reckoned with the bytes that they need at most. -/
def programConfig : Config :=
  { maxDepth := evalStackBytes / 4096
    stackBytes := evalStackBytes - evalStackBytes / 8
    stackUse := fun frames rules => 65536 * frames + 16384 * rules }

/-- What the arguments ask for. -/
structure CommandLine where
  /-- A script to run. -/
  file : Option String := none
  /-- Code to run after the script. -/
  code : Option String := none
  /-- Values are shown as JSON. -/
  json : Bool := false
  config : Config := programConfig
deriving Inhabited

namespace CommandLine

/-- How the program is called. -/
def usage : String := "usage: homoicon [FILE] [-e CODE] [--json] [--eval-dose N] [--ballast N]"

/-- Reads the arguments that are left into what those before them ask for. -/
def readFrom : CommandLine → List String → Except String CommandLine
  | line, [] => .ok line
  | line, "--json" :: rest => readFrom { line with json := true } rest
  | line, "-e" :: code :: rest | line, "--eval" :: code :: rest =>
    readFrom { line with code := some code } rest
  | line, "--eval-dose" :: n :: rest =>
    match n.toInt? with
    | some dose => readFrom { line with config := line.config.withEvalDose dose } rest
    | none => .error usage
  | line, "--ballast" :: n :: rest =>
    match n.toInt? with
    | some ballast => readFrom { line with config := { line.config with ballast } } rest
    | none => .error usage
  | line, name :: rest =>
    if name.startsWith "-" || line.file.isSome then .error usage
    else readFrom { line with file := some name } rest

/-- Reads the arguments of the program. -/
def read (arguments : List String) : Except String CommandLine := readFrom {} arguments

/-- Whether code is read from the input, as no other is given. -/
def isInteractive (line : CommandLine) : Bool := line.file.isNone && line.code.isNone

/-- A text shown in red. -/
def red (text : String) : String := "\x1b[38;5;9m" ++ text ++ "\x1b[39m"

/-- What a run leaves: its output, its report of an error, and the machine if it can go on. -/
structure Report where
  output : String
  failure : Option String := none
  machine : Option Machine := none
deriving Inhabited

/-- Runs code on a machine and reports on it.  What the code prints comes before its value. -/
def report (json : Bool) (m : Machine) (code : String) : Report :=
  match Interpreter.execute Json.standard json code { m with printed := "" } with
  | .ok (.ok text) after =>
    let shown := if text.isEmpty then "" else "== " ++ text ++ "\n"
    { output := after.printed ++ shown, machine := some after }
  | .ok (.error text) after =>
    { output := after.printed, failure := some text, machine := some after }
  | .error (.error e) after =>
    { output := after.printed, failure := some e.display, machine := some after }
  | .error _ after => { output := after.printed, failure := some "evaluator failed" }

end CommandLine

end Homoicon
