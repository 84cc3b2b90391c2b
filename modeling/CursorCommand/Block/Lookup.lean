import CursorCommand.Block.Basic

/-!
# The block around an offset

Among the blocks that contain an offset, taken in order, each one whose span lies within the best so
far becomes the best. On a list of nested blocks this ends at the narrowest, and of equal spans at
the last.
-/
namespace CursorCommand

namespace Block

/-- The better of the best so far and a candidate: the candidate, unless it reaches outside. Each
block stands with its index. -/
def narrower : Option (Block × Nat) → Block × Nat → Option (Block × Nat)
  | none, c => some c
  | some best, c => if c.1.Within best.1 then some c else some best

/-- The block around an offset, with its index in the list. -/
def enclosingIdx? (blocks : List Block) (offset : Nat) : Option (Block × Nat) :=
  (blocks.zipIdx.filter fun b => b.1.Contains offset).foldl narrower none

def enclosing? (blocks : List Block) (offset : Nat) : Option Block :=
  (enclosingIdx? blocks offset).map (·.1)

end Block

end CursorCommand
