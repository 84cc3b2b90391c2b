/-!
# Configuration

What the user can choose: a command template for each kind of command, the identifiers that open
test blocks, and how names and paths are written. Everything but the templates has a value from the
start.
-/
namespace CursorCommand

/-- The kinds of command: run the current test, or run it and update its snapshots. -/
inductive CommandKind where
  | run
  | runAndUpdateSnapshots
  deriving DecidableEq, Repr

namespace CommandKind

/-- The setting that holds the template of a kind. -/
def key : CommandKind → String
  | .run => "run"
  | .runAndUpdateSnapshots => "runAndUpdateSnapshots"

end CommandKind

structure Config where
  run : Option String
  runAndUpdateSnapshots : Option String
  /-- What a call that opens a block starts with. -/
  identifiers : List String
  /-- Stands between the titles in a full title; part of a regular expression. -/
  separator : String
  /-- Stands in for a title that is not known; a regular expression. -/
  unknown : String
  /-- Whether paths are written with slashes only. -/
  unixPaths : Bool
  deriving DecidableEq, Repr

namespace Config

/-- The identifiers that open blocks unless the user chooses others. -/
def standardIdentifiers : List String :=
  ["suite", "describe", "xdescribe", "fdescribe", "context", "test", "it", "fit", "xit"]

/-- The configuration of a user who has chosen nothing. -/
def standard : Config := ⟨none, none, standardIdentifiers, "\\s", ".*", false⟩

/-- The template chosen for a kind, which may be empty. -/
def chosen (c : Config) : CommandKind → Option String
  | .run => c.run
  | .runAndUpdateSnapshots => c.runAndUpdateSnapshots

/-- The template to use for a kind: an empty one is none. -/
def template? (c : Config) (kind : CommandKind) : Option String :=
  (c.chosen kind).filter fun t => t != ""

def withTemplate (c : Config) (kind : CommandKind) (template : String) : Config :=
  match kind with
  | .run => { c with run := some template }
  | .runAndUpdateSnapshots => { c with runAndUpdateSnapshots := some template }

theorem chosen_withTemplate_of_ne (c : Config) {kind other : CommandKind} (h : other ≠ kind)
    (template : String) : (c.withTemplate kind template).chosen other = c.chosen other := by
  cases kind with
  | run =>
    cases other with
    | run => exact (h rfl).elim
    | runAndUpdateSnapshots => rfl
  | runAndUpdateSnapshots =>
    cases other with
    | run => rfl
    | runAndUpdateSnapshots => exact (h rfl).elim

end Config

end CursorCommand
