import CursorCommand.Block.Json
import CursorCommand.CommandLine.Arguments
import CursorCommand.Document

/-!
# Running a command line

A run reads the test file, then the settings, and then either lists the blocks of the file or
resolves the command for a cursor in it. The first stage that fails decides the outcome, and a
failed run prints nothing but its error. What a run sees of the machine is a value, so that its
outcome depends on nothing else.
-/
namespace CursorCommand

/-- What a run can see of the machine. -/
structure Machine where
  /-- The working directory, an absolute path. -/
  directory : String
  /-- The text of the file at an absolute path, if there is one that is valid UTF-8. -/
  text? : String → Option String
  /-- The syntax tree of a source text. -/
  tree : String → Node

inductive Failure where
  | arguments (e : ArgumentError)
  | unreadable (path : String)
  | settings (e : Config.LoadError)
  | positionals
  | line (text : String)
  | character (text : String)
  | resolve (e : ResolveError)
  deriving DecidableEq, Repr

namespace Failure

def message : Failure → String
  | .arguments e => e.message
  | .unreadable path => "Failed to read " ++ path
  | .settings e => e.message
  | .positionals => "Expected <FILE> <LINE> <CHARACTER>"
  | .line text => "Invalid line '" ++ text ++ "'"
  | .character text => "Invalid character '" ++ text ++ "'"
  | .resolve e => e.message

end Failure

namespace CommandLine

def version : String := "0.1.0"

/-- What `--version` prints. -/
def versionText : String := "current-test " ++ version ++ "\n"

/-- What `--help` prints, and a run without arguments. -/
def usageText : String :=
  "current-test " ++ version ++ ", resolve the test under the cursor into a command.\n" ++
  "\n" ++
  "Usage: current-test [OPTIONS] <FILE> <LINE> <CHARACTER>\n" ++
  "\n" ++
  "LINE and CHARACTER are zero-based; CHARACTER counts UTF-16 code units.\n" ++
  "\n" ++
  "Available options:\n" ++
  "\n" ++
  "--workspace <DIR>            Workspace root (default: current directory)\n" ++
  "--config <FILE>              JSON settings file with a runCurrentTest section\n" ++
  "--command <TEMPLATE>         Use TEMPLATE instead of the configured command\n" ++
  "--update-snapshots           Resolve the runAndUpdateSnapshots command\n" ++
  "--blocks                     Print the test blocks of FILE as JSON and exit\n" ++
  "--version                    Print the version\n" ++
  "--help                       Print this help message\n" ++
  "\n"

/-- A path from the root of the file system; any other path starts at the given directory. -/
def absolute (directory path : String) : String :=
  if path.toList.head? = some '/' then path
  else if directory.toList.getLast? = some '/' then directory ++ path
  else directory ++ "/" ++ path

/-- A number of 32 bits in decimal digits, with a plus sign or none. -/
def number? (text : String) : Option UInt32 :=
  let digits :=
    match text.toList with
    | '+' :: cs => cs
    | cs => cs
  if digits.isEmpty || !digits.all Char.isDigit then none
  else
    let n := Nat.ofDigitChars 10 digits 0
    if n < UInt32.size then some (UInt32.ofNat n) else none

def kind (o : Options) : CommandKind :=
  if o.updateSnapshots then .runAndUpdateSnapshots else .run

def config (m : Machine) (o : Options) : Except Failure Config :=
  match o.config with
  | none => .ok Config.standard
  | some path =>
    (Config.load path (m.text? (absolute m.directory path))).mapError .settings

def withCommand (c : Config) (o : Options) : Config :=
  match o.command with
  | none => c
  | some template => c.withTemplate (kind o) template

def workspace (m : Machine) (o : Options) : String :=
  match o.workspace with
  | none => m.directory
  | some path => absolute m.directory path

/-- The cursor behind the file among the positional arguments. -/
def cursor : List String → Except Failure Position
  | [line, character] => do
    let some l := number? line | throw (.line line)
    let some c := number? character | throw (.character character)
    return ⟨l, c⟩
  | _ => throw .positionals

def listing (d : Document) (c : Config) : String :=
  (Json.array ((d.blocks c.identifiers).map Block.toJson)).prettyText ++ "\n"

/-- What a run prints whose arguments name a file and, behind it, others. -/
def resolveFile (m : Machine) (o : Options) (file : String) (others : List String) :
    Except Failure String := do
  let path := absolute m.directory file
  let some text := m.text? path | throw (.unreadable path)
  let c ← config m o
  let d : Document := ⟨workspace m o, path, text, m.tree text⟩
  if o.blocks then return listing d c
  let position ← cursor others
  let command ← (resolve (withCommand c o) d (kind o) position).mapError .resolve
  return command ++ "\n"

def run (m : Machine) (args : List String) : Except Failure String :=
  match Options.initial.scan args with
  | .error e => .error (.arguments e)
  | .ok .version => .ok versionText
  | .ok .usage => .ok usageText
  | .ok (.resolve o) =>
    match o.positionals with
    | [] => .ok usageText
    | file :: others => resolveFile m o file others

end CommandLine

/-- How a run ends: its exit code, what it prints, and its error. -/
structure Outcome where
  code : Nat
  stdout : String
  error : Option String
  deriving DecidableEq, Repr

namespace Outcome

def ofResult : Except Failure String → Outcome
  | .ok text => ⟨0, text, none⟩
  | .error e => ⟨1, "", some ("Error: " ++ e.message)⟩

/-- What a run writes to the error output: its error on lines of its own. -/
def stderr (o : Outcome) : String :=
  match o.error with
  | some e => e ++ "\n"
  | none => ""

end Outcome

end CursorCommand
