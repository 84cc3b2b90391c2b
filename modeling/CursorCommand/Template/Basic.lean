import CursorCommand.Template.Placeholder

/-!
# Command templates

A template is read once from left to right into placeholders and the characters between them.
Filling it puts a value in the place of every placeholder; values are never read again, and a dollar
sign or a brace that spells no placeholder stays.
-/
namespace CursorCommand

namespace Template

/-- A placeholder of a template, or a character that belongs to none. -/
inductive Piece where
  | char (c : Char)
  | placeholder (p : Placeholder)
  deriving DecidableEq, Repr

def pieces : List Char → List Piece
  | [] => []
  | c :: cs =>
    match Placeholder.atFront? (c :: cs) with
    | some p => .placeholder p :: pieces ((c :: cs).drop p.chars.length)
    | none => .char c :: pieces cs
termination_by cs => cs.length
decreasing_by
  · have := p.length_chars_pos
    simp only [List.length_drop, List.length_cons]
    omega
  · exact Nat.lt_succ_self _

def Piece.fill (value : Placeholder → String) : Piece → List Char
  | .char c => [c]
  | .placeholder p => (value p).toList

/-- A template with a value for every placeholder. -/
def fill (value : Placeholder → String) (template : String) : String :=
  String.ofList ((pieces template.toList).flatMap (Piece.fill value))

end Template

end CursorCommand
