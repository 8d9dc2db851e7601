import PatchCode.CommandLine

/-! The program: reads its source, runs, and writes what the run leaves. -/

namespace PatchCode.CommandLine

partial def readAll (input : IO.FS.Stream) (text : String) : IO String := do
  let line ← input.getLine
  if line.isEmpty then return text else readAll input (text ++ line)

/-- The source of a run: its file, or else the standard input. -/
def readSource (o : Options) : IO String := do
  match o.input with
  | some path => IO.FS.readFile path
  | none => readAll (← IO.getStdin) ""

/-- Prints an outcome, and writes its text to the path of the output file. -/
def finish (path : Option String) (outcome : Outcome) : IO UInt32 := do
  (← IO.getStderr).putStr outcome.stderr
  (← IO.getStdout).putStr outcome.stdout
  match path, outcome.output with
  | some path, some text => IO.FS.writeFile path text
  | _, _ => pure ()
  return outcome.exit

end PatchCode.CommandLine

open PatchCode.CommandLine

def main (arguments : List String) : IO UInt32 := do
  match parse arguments with
  | .error e => finish none e.outcome
  | .ok invocation =>
    let source ← match invocation.options? with
      | some options => readSource options
      | none => pure ""
    finish invocation.output? (invocation.outcome source)
