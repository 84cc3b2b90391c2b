/-!
# Normalised paths

A path is split at slashes and backslashes. What is left of it after normalising is a route: steps
up, then names. Empty parts and `.` do nothing; `..` takes back the name before it and is a step up
where there is none.
-/
namespace CursorCommand

namespace Path

/-- Slash and backslash both separate. -/
def isSeparator (c : Char) : Bool := c == '/' || c == '\\'

def parent : List Char := ['.', '.']

end Path

/-- Steps up, followed by names. -/
structure Route where
  ups : Nat
  names : List (List Char)
  deriving DecidableEq, Repr

namespace Route

def here : Route := ⟨0, []⟩

def step (r : Route) (part : List Char) : Route :=
  if part = [] ∨ part = ['.'] then r
  else if part = Path.parent then
    match r.names with
    | [] => ⟨r.ups + 1, []⟩
    | n :: ns => ⟨r.ups, (n :: ns).dropLast⟩
  else ⟨r.ups, r.names ++ [part]⟩

def ofPath (path : List Char) : Route := (path.splitOnP Path.isSeparator).foldl step here

def parts (r : Route) : List (List Char) := List.replicate r.ups Path.parent ++ r.names

end Route

end CursorCommand
