import CursorCommand.Block.Extract
import CursorCommand.Block.Lookup
import CursorCommand.Command
import CursorCommand.Config.Settings
import CursorCommand.Text.Position

/-!
# The command for a cursor

A document is a test file that is open in a workspace. The command for a cursor in it is made from
the configured template and the block around the cursor; a cursor outside all blocks has a command
too. A missing template is reported before a cursor outside the document.
-/
namespace CursorCommand

structure Document where
  workspaceRoot : String
  testFilePath : String
  text : String
  tree : Node

namespace Document

/-- A document without text. -/
def empty : Document := ⟨"", "", "", Node.empty⟩

def blocks (identifiers : List String) (d : Document) : List Block :=
  Block.extract d.text identifiers d.tree

/-- What a command is made for when the given block is the current one. -/
def target (config : Config) (d : Document) (block : Option Block) : Target :=
  { workspaceRoot := d.workspaceRoot
    testFilePath := d.testFilePath
    separator := config.separator
    unknown := config.unknown
    block := block
    unixPaths := config.unixPaths }

end Document

inductive ResolveError where
  | noTemplate (kind : CommandKind)
  | outside (position : Position) (testFilePath : String)
  deriving DecidableEq, Repr

namespace ResolveError

def message : ResolveError → String
  | .noTemplate kind =>
    "Please set " ++ Settings.dotted kind.key ++ " to your test command first"
  | .outside position testFilePath =>
    "Position " ++ toString position.line.toNat ++ ":" ++ toString position.character.toNat ++
      " is outside " ++ testFilePath

end ResolveError

/-- The command of a kind for a cursor in a document. -/
def resolve (config : Config) (d : Document) (kind : CommandKind) (cursor : Position) :
    Except ResolveError String :=
  match config.template? kind with
  | none => .error (.noTemplate kind)
  | some template =>
    match cursor.offset? d.text with
    | none => .error (.outside cursor d.testFilePath)
    | some offset =>
      let block := Block.enclosing? (d.blocks config.identifiers) offset
      .ok ((d.target config block).command template)

end CursorCommand
