import CursorCommand.Block.Basic

/-!
# Titles

A test runner selects tests by a regular expression on their titles. The title of a block is its
name with every metacharacter escaped; the full title has the titles of the enclosing blocks before
it. A name that is not known, or empty, is stood in for by an expression of the user's choice.
-/
namespace CursorCommand

namespace Title

/-- The characters with a meaning of their own in a regular expression. -/
def metacharacters : List Char :=
  ['|', '\\', '{', '}', '(', ')', '[', ']', '^', '$', '+', '*', '?', '.']

def escapeChar (c : Char) : List Char :=
  if metacharacters.contains c then ['\\', c] else [c]

/-- A regular expression for exactly the given text. -/
def escape (name : String) : String := String.ofList (name.toList.flatMap escapeChar)

def ofName? (name : Option String) : Option String :=
  match name with
  | some text => if text.isEmpty then none else some (escape text)
  | none => none

/-- The title of a name, where `unknown` stands in for one that is not known. -/
def ofName (unknown : String) (name : Option String) : String := (ofName? name).getD unknown

end Title

/-- The title of a block and the full title with the enclosing blocks. -/
structure Titles where
  own : String
  full : String
  deriving DecidableEq, Repr

namespace Titles

/-- The titles of a block, or of a cursor outside all blocks. A block of which nothing at all is
known is treated as none. -/
def ofBlock (separator unknown : String) : Option Block → Titles
  | none => ⟨unknown, unknown⟩
  | some b =>
    if (Title.ofName? b.name).isNone && b.parents.isEmpty then ⟨unknown, unknown⟩
    else
      ⟨Title.ofName unknown b.name,
        separator.intercalate ((b.parents ++ [b.name]).map (Title.ofName unknown))⟩

/-- The stand-in for a block of which nothing is known is what its titles would be anyway. -/
theorem ofBlock_some (separator unknown : String) (b : Block) :
    ofBlock separator unknown (some b) =
      ⟨Title.ofName unknown b.name,
        separator.intercalate ((b.parents ++ [b.name]).map (Title.ofName unknown))⟩ := by
  rw [ofBlock]
  split
  · rename_i h
    rw [Bool.and_eq_true, Option.isNone_iff_eq_none, List.isEmpty_iff] at h
    simp [Title.ofName, h.1, h.2]
  · rfl

end Titles

end CursorCommand
