import CursorCommand.Block.Lookup
import CursorCommand.Proofs.Block.Extraction
import CursorCommand.Proofs.Tree.Shift

/-!
# Shifted blocks

Extraction from a shifted tree gives the shifted blocks, and a search among shifted blocks at a
shifted offset finds the shifted block. Subtrees without opening calls add nothing.
-/
namespace CursorCommand

namespace Block

/-- The block with its span moved by `k` bytes. -/
def shift (k : Nat) (b : Block) : Block := { b with start := b.start + k, stop := b.stop + k }

variable {k : Nat}

@[simp] theorem shift_contains_shift {b : Block} {offset : Nat} :
    (b.shift k).Contains (offset + k) ↔ b.Contains offset := by
  simp [Contains, shift]

@[simp] theorem shift_within_shift {a b : Block} :
    (a.shift k).Within (b.shift k) ↔ a.Within b := by
  simp [Within, shift]

theorem narrower_shift (best : Option (Block × Nat)) (c : Block × Nat) :
    narrower (best.map (Prod.map (shift k) id)) (Prod.map (shift k) id c) =
      (narrower best c).map (Prod.map (shift k) id) := by
  cases best with
  | none => rfl
  | some b =>
    simp only [narrower, Option.map_some, Prod.map_fst, shift_within_shift]
    split <;> rfl

theorem foldl_narrower_shift (best : Option (Block × Nat)) (cs : List (Block × Nat)) :
    (cs.map (Prod.map (shift k) id)).foldl narrower (best.map (Prod.map (shift k) id)) =
      (cs.foldl narrower best).map (Prod.map (shift k) id) := by
  induction cs generalizing best with
  | nil => rfl
  | cons c cs ih => rw [List.map_cons, List.foldl_cons, narrower_shift, ih, List.foldl_cons]

theorem enclosingIdx?_shift (bs : List Block) (offset : Nat) :
    enclosingIdx? (bs.map (shift k)) (offset + k) =
      (enclosingIdx? bs offset).map (Prod.map (shift k) id) := by
  have hcandidates : ((bs.map (shift k)).zipIdx.filter fun c => c.1.Contains (offset + k)) =
      (bs.zipIdx.filter fun c => c.1.Contains offset).map (Prod.map (shift k) id) := by
    simp only [List.zipIdx_map, List.filter_map, Function.comp_def, Prod.map_fst,
      shift_contains_shift]
  rw [enclosingIdx?, hcandidates, enclosingIdx?]
  exact foldl_narrower_shift none _

theorem enclosing?_shift (bs : List Block) (offset : Nat) :
    enclosing? (bs.map (shift k)) (offset + k) = (enclosing? bs offset).map (shift k) := by
  rw [enclosing?, enclosingIdx?_shift, Option.map_map, enclosing?, Option.map_map]
  rfl

end Block

namespace Node

variable {identifiers : List String}

theorem blocksOfAll_eq_flatMap (source : List Char) (parents : List (Option String))
    (ns : List Node) :
    blocksOfAll source identifiers parents ns = ns.flatMap (blocks source identifiers parents) := by
  induction ns with
  | nil => rfl
  | cons n ns ih => rw [blocksOfAll, ih, List.flatMap_cons]

theorem blocks_shift (above source : List Char) (parents : List (Option String)) (n : Node) :
    blocks (above ++ source) identifiers parents (n.shift (Measure.utf8.length above)) =
      (blocks source identifiers parents n).map (Block.shift (Measure.utf8.length above)) := by
  induction n generalizing parents with
  | mk head children ih =>
    have hall : ∀ names, blocksOfAll (above ++ source) identifiers names
        (shiftAll (Measure.utf8.length above) children) =
        (blocksOfAll source identifiers names children).map
          (Block.shift (Measure.utf8.length above)) := by
      intro names
      rw [blocksOfAll_eq_flatMap, blocksOfAll_eq_flatMap, shiftAll_eq_map, List.flatMap_map,
        List.map_flatMap]
      exact List.flatMap_congr fun c hc => ih c hc names
    have hopens := opensBlock_shift above source identifiers (n := .mk head children)
    have hname := blockName?_shift above source (n := .mk head children)
    rw [shift] at hopens hname ⊢
    rw [blocks, blocks, hopens, hname]
    split
    · exact congrArg₂ List.cons rfl (hall _)
    · exact hall parents

/-- A tree in which no call opens a block has no blocks. -/
theorem blocks_eq_nil {source : List Char} {n : Node}
    (h : ∀ p ∈ n.places, ¬ p.node.Opens source identifiers) (parents : List (Option String)) :
    blocks source identifiers parents n = [] := by
  have hnone : n.places.filter (Place.opens source identifiers) = [] := by
    apply List.filter_eq_nil_iff.mpr
    intro p hp hopens
    exact h p hp (opensBlock_iff.mp hopens)
  rw [blocks_eq, hnone]
  rfl

end Node

/-- The blocks of a longer source: its tree has, behind subtrees without opening calls, the children
of the old tree, each moved by what stands in front. -/
theorem Block.extract_shift {above source : String} {identifiers : List String}
    {root tree : Node} {front : List Node}
    (htree : tree.children =
      front ++ root.children.map (Node.shift (Measure.utf8.length above.toList)))
    (hfront : ∀ n ∈ front, ∀ p ∈ n.places, ¬ p.node.Opens (above ++ source).toList identifiers) :
    extract (above ++ source) identifiers tree =
      (extract source identifiers root).map (shift (Measure.utf8.length above.toList)) := by
  have hnone : front.flatMap (Node.blocks (above ++ source).toList identifiers []) = [] :=
    List.flatMap_eq_nil_iff.mpr fun n hn => Node.blocks_eq_nil (hfront n hn) []
  rw [extract, extract, Node.blocksOfAll_eq_flatMap, Node.blocksOfAll_eq_flatMap, htree,
    List.flatMap_append, hnone, List.nil_append, List.flatMap_map, List.map_flatMap,
    String.toList_append]
  exact List.flatMap_congr fun n _ => Node.blocks_shift above.toList source.toList [] n

end CursorCommand
