/-!
# Arguments of the command line

Arguments are read from left to right. An option with a value takes the argument behind it, whatever
that looks like, and of repeated ones the last counts. Asking for the version or the usage ends the
reading there. What starts with two dashes and is no option is refused.
-/
namespace CursorCommand

inductive ValueOption where
  | workspace
  | config
  | command
  deriving DecidableEq, Repr

def ValueOption.flag : ValueOption → String
  | .workspace => "--workspace"
  | .config => "--config"
  | .command => "--command"

inductive Argument where
  | value (option : ValueOption)
  | updateSnapshots
  | blocks
  | version
  | help
  | unknown
  | positional
  deriving DecidableEq, Repr

def Argument.ofText (text : String) : Argument :=
  if text = ValueOption.workspace.flag then .value .workspace
  else if text = ValueOption.config.flag then .value .config
  else if text = ValueOption.command.flag then .value .command
  else if text = "--update-snapshots" then .updateSnapshots
  else if text = "--blocks" then .blocks
  else if text = "--version" then .version
  else if text = "--help" then .help
  else if ['-', '-'].isPrefixOf text.toList then .unknown
  else .positional

structure Options where
  workspace : Option String
  config : Option String
  command : Option String
  updateSnapshots : Bool
  blocks : Bool
  positionals : List String
  deriving DecidableEq, Repr

namespace Options

def initial : Options := ⟨none, none, none, false, false, []⟩

def withValue (o : Options) (value : String) : ValueOption → Options
  | .workspace => { o with workspace := some value }
  | .config => { o with config := some value }
  | .command => { o with command := some value }

end Options

inductive Invocation where
  | version
  | usage
  | resolve (options : Options)
  deriving DecidableEq, Repr

inductive ArgumentError where
  | missingValue (option : ValueOption)
  | unknown (argument : String)
  deriving DecidableEq, Repr

def ArgumentError.message : ArgumentError → String
  | .missingValue option => "Missing value for '" ++ option.flag ++ "'"
  | .unknown argument => "Unknown argument: '" ++ argument ++ "'"

namespace Options

/-- Read arguments, given what those before them ask for. -/
def scan (o : Options) : List String → Except ArgumentError Invocation
  | [] => .ok (.resolve o)
  | a :: rest =>
    match Argument.ofText a with
    | .value option =>
      match rest with
      | [] => .error (.missingValue option)
      | v :: rest => scan (o.withValue v option) rest
    | .updateSnapshots => scan { o with updateSnapshots := true } rest
    | .blocks => scan { o with blocks := true } rest
    | .version => .ok .version
    | .help => .ok .usage
    | .unknown => .error (.unknown a)
    | .positional => scan { o with positionals := o.positionals ++ [a] } rest

end Options

end CursorCommand
