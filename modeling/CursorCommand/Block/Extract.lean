import CursorCommand.Block.Basic
import CursorCommand.Tree.Call

/-!
# The blocks of a syntax tree

Every call that opens a block gives one, wherever it stands below the root, and the blocks come in
the order in which their calls start. The names of the enclosing blocks are handed down the tree and
grow at opening calls only, whatever other nodes lie between.
-/
namespace CursorCommand

namespace Node

mutual

/-- The blocks of a node and of all below it, when blocks with the given names enclose it. -/
def blocks (source : List Char) (identifiers : List String) (parents : List (Option String)) :
    Node → List Block
  | .mk head children =>
    if opensBlock source identifiers (.mk head children) then
      let name := blockName? source (.mk head children)
      ⟨name, parents, head.start, head.stop⟩ ::
        blocksOfAll source identifiers (parents ++ [name]) children
    else blocksOfAll source identifiers parents children

def blocksOfAll (source : List Char) (identifiers : List String)
    (parents : List (Option String)) : List Node → List Block
  | [] => []
  | n :: ns =>
    blocks source identifiers parents n ++ blocksOfAll source identifiers parents ns

end

end Node

namespace Block

/-- The blocks of a source text with the given tree. The root itself is never one. -/
def extract (source : String) (identifiers : List String) (root : Node) : List Block :=
  Node.blocksOfAll source.toList identifiers [] root.children

end Block

end CursorCommand
