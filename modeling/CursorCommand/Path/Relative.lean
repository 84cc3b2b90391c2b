import CursorCommand.Path.Route

/-!
# Relative paths

The way from one path to another, worked out on their text alone: up to where the routes part, then
down. A path with a drive letter is compared without regard to the case of ASCII letters, and there
is no way between two drives.
-/
namespace CursorCommand

namespace Path

/-- The drive letter at the front of a path. -/
def drive? : List Char → Option Char
  | letter :: ':' :: _ => if letter.isAlpha then some letter else none
  | _ => none

/-- Two parts with the same letters, whatever the case of ASCII letters. -/
def sameLetters (a b : List Char) : Bool := a.map Char.toLower == b.map Char.toLower

/-- Two parts name the same step, given whether case is ignored. -/
def samePart (ignoreCase : Bool) (a b : List Char) : Bool :=
  if ignoreCase then sameLetters a b else a == b

/-- What is left of two lists behind the part that they share. -/
def diverge {α : Type} (same : α → α → Bool) : List α → List α → List α × List α
  | a :: as, b :: bs => if same a b then diverge same as bs else (a :: as, b :: bs)
  | as, bs => (as, bs)

/-- The parts of the way between two routes. -/
def wayParts (ignoreCase : Bool) (root path : Route) : List (List Char) :=
  let rest := diverge (samePart ignoreCase) root.parts path.parts
  List.replicate rest.1.length parent ++ rest.2

/-- The separator that a path is written with: the backslash if it has no slash. -/
def separatorOf (path : List Char) : Char :=
  if path.contains '\\' && !path.contains '/' then '\\' else '/'

/-- Whether two paths lie on drives with different letters. -/
def differentDrives (root path : List Char) : Bool :=
  match drive? root, drive? path with
  | some a, some b => a.toLower != b.toLower
  | _, _ => false

/-- The way from `root` to `path`, in the characters of a path. -/
def relativeChars (root path : List Char) : List Char :=
  if differentDrives root path then path
  else
    let ignoreCase := (drive? root).isSome || (drive? path).isSome
    [separatorOf path].intercalate
      (wayParts ignoreCase (Route.ofPath root) (Route.ofPath path))

/-- The way from `root` to `path`; empty when they are the same, and `path` itself when it lies on
another drive. -/
def relative (root path : String) : String :=
  String.ofList (relativeChars root.toList path.toList)

def withSlashes (path : String) : String :=
  String.ofList (path.toList.map fun c => if c = '\\' then '/' else c)

end Path

end CursorCommand
