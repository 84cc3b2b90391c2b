/-!
# Placeholders

A placeholder is written as its name in braces behind a dollar sign.
-/
namespace CursorCommand

inductive Placeholder where
  | workspaceRoot
  | testFilePath
  | relativeTestPath
  | testName
  | fullTestName
  deriving DecidableEq, Repr

namespace Placeholder

def all : List Placeholder :=
  [.workspaceRoot, .testFilePath, .relativeTestPath, .testName, .fullTestName]

def name : Placeholder → String
  | .workspaceRoot => "workspaceRoot"
  | .testFilePath => "testFilePath"
  | .relativeTestPath => "relativeTestPath"
  | .testName => "testName"
  | .fullTestName => "fullTestName"

/-- A placeholder as a template spells it. -/
def chars (p : Placeholder) : List Char := '$' :: '{' :: p.name.toList ++ ['}']

/-- The placeholder that a text starts with. No spelling is the beginning of another, so there is at
most one. -/
def atFront? (cs : List Char) : Option Placeholder := all.find? fun p => p.chars.isPrefixOf cs

theorem mem_all (p : Placeholder) : p ∈ all := by cases p <;> simp [all]

theorem length_chars_pos (p : Placeholder) : 0 < p.chars.length := by simp [chars]

end Placeholder

end CursorCommand
