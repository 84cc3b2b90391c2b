import CursorCommand.CommandLine.Run
import CursorCommand.Tree.Json

/-!
# The program

The command line on a real machine. Syntax trees come from outside: the tree of a test file stands
as JSON in the file beside it whose name has `.tree.json` behind it, and without one the file has no
blocks.
-/
namespace CursorCommand

namespace Program

/-- The text of a file, if there is one that is valid UTF-8. -/
def readText? (path : String) : IO (Option String) := do
  try
    return String.fromUTF8? (← IO.FS.readBinFile path)
  catch _ =>
    return none

/-- The files that a run may read: the test file and the settings. -/
def paths (directory : String) (args : List String) : List String :=
  match Options.initial.scan args with
  | .ok (.resolve o) =>
    (o.positionals.take 1 ++ o.config.toList).map (CommandLine.absolute directory)
  | _ => []

def readTree (file : Option String) : IO Node := do
  match file with
  | some path =>
    let text ← readText? (path ++ ".tree.json")
    return (text.bind Node.parse?).getD Node.empty
  | none => return Node.empty

def machine (args : List String) : IO Machine := do
  let directory := (← IO.currentDir).toString
  let files ← (paths directory args).mapM fun path => do return (path, ← readText? path)
  let tree ← readTree (files.head?.map (·.1))
  return {
    directory := directory
    text? := fun path => (files.find? fun f => f.1 == path).bind (·.2)
    tree := fun _ => tree }

/-- Run the command line: print what it has to say, and its error to the error output. -/
def run (args : List String) : IO UInt32 := do
  let outcome := Outcome.ofResult (CommandLine.run (← machine args) args)
  IO.print outcome.stdout
  IO.eprint outcome.stderr
  return UInt32.ofNat outcome.code

end Program

end CursorCommand

/-- Run the command line and report its outcome. -/
def main (args : List String) : IO UInt32 := CursorCommand.Program.run args
