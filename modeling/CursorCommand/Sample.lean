/-!
# Sample documents

A sample is a generated test file of any size: top-level suites, in each a chain of nested suites,
and in every suite of the chain some tests. The callees of the tests and the ends of their names
take turns.
-/
namespace CursorCommand

structure Sample where
  /-- Suites at the top level. -/
  suites : Nat
  /-- Suites in each chain, the one at the top level included. -/
  depth : Nat
  /-- Tests directly in every suite. -/
  tests : Nat
  /-- Further statements in every test. -/
  extraLines : Nat
  deriving DecidableEq, Repr

namespace Sample

def small : Sample := ⟨3, 2, 3, 1⟩

def medium : Sample := ⟨10, 3, 5, 3⟩

def large : Sample := ⟨40, 4, 8, 5⟩

/-- How many blocks a sample is announced to have. -/
def expectedBlocks (s : Sample) : Nat := s.suites * (s.depth * (1 + s.tests))

/-- What tests are called with, in turn. -/
def callees : List String := ["it", "test", "it.only", "test.skip", "xit"]

/-- What the names of tests end in, in turn. -/
def decorations : List String := ["", " (async)", " [edge]", " a+b", " $value", " 1.0"]

/-- The entry of a list whose turn it is. -/
def turn (texts : List String) (i : Nat) : String := texts.getD (i % texts.length) ""

/-- Blanks in front of a line that stands in `level` suites. -/
def indent (level : Nat) : String := String.ofList (List.replicate (2 * level) ' ')

/-- A call with a name and a function that stays open. -/
def openLine (level : Nat) (callee name : String) : String :=
  indent level ++ callee ++ "(\"" ++ name ++ "\", () => \x7b"

def closeLine (level : Nat) : String := indent level ++ "\x7d);"

/-- A statement that does not belong to any test block. -/
def valueLine (level i : Nat) : String :=
  indent level ++ "const value_" ++ toString i ++ " = compute(" ++ toString i ++ ");"

/-- A test in the suite with the given path of numbers. -/
def testLines (s : Sample) (level : Nat) (path : String) (i : Nat) : List String :=
  openLine level (turn callees i) ("case " ++ path ++ "." ++ toString i ++ turn decorations i) ::
    (List.range s.extraLines).map (valueLine (level + 1)) ++
      [indent (level + 1) ++ "expect(value).toBeDefined();", closeLine level]

/-- A suite with `nested` others inside each other. -/
def suiteLines (s : Sample) (level : Nat) (path : String) : (nested : Nat) → List String
  | 0 =>
    openLine level "describe" ("suite " ++ path) ::
      (List.range s.tests).flatMap (s.testLines (level + 1) path) ++ [closeLine level]
  | nested + 1 =>
    openLine level "describe" ("suite " ++ path) ::
      (List.range s.tests).flatMap (s.testLines (level + 1) path) ++
        suiteLines s (level + 1) (path ++ ".0") nested ++ [closeLine level]

/-- The lines of a sample, without the empty one behind the last line break. Every top-level suite
has an empty line behind it. -/
def lines (s : Sample) : List String :=
  ["import \x7b compute \x7d from \"./compute\";", ""] ++
    (List.range s.suites).flatMap fun i => s.suiteLines 0 (toString i) (s.depth - 1) ++ [""]

def text (s : Sample) : String := String.join (s.lines.map fun l => l ++ "\n")

end Sample

end CursorCommand
