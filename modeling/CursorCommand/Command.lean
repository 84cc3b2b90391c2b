import CursorCommand.Path.Relative
import CursorCommand.Template.Basic
import CursorCommand.Title

/-!
# Commands

A command is a template filled for a test file and, where the cursor is in one, a block of it.
-/
namespace CursorCommand

structure Target where
  workspaceRoot : String
  testFilePath : String
  /-- Stands between the titles in a full title. -/
  separator : String
  /-- Stands in for a title that is not known. -/
  unknown : String
  block : Option Block
  /-- Whether paths are written with slashes only. -/
  unixPaths : Bool
  deriving DecidableEq, Repr

namespace Target

/-- A path as the target wants it written. -/
def pathText (t : Target) (path : String) : String :=
  if t.unixPaths then Path.withSlashes path else path

def titles (t : Target) : Titles := Titles.ofBlock t.separator t.unknown t.block

def value (t : Target) : Placeholder → String
  | .workspaceRoot => t.pathText t.workspaceRoot
  | .testFilePath => t.pathText t.testFilePath
  | .relativeTestPath => t.pathText (Path.relative t.workspaceRoot t.testFilePath)
  | .testName => t.titles.own
  | .fullTestName => t.titles.full

def command (t : Target) (template : String) : String := Template.fill t.value template

end Target

end CursorCommand
