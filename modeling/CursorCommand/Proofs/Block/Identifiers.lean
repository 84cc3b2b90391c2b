import CursorCommand.Proofs.Block.Extraction

/-!
# Blocks for fewer identifiers

A call that opens a block for some identifiers does so for any that include them. So the blocks for
fewer identifiers are among those for more, and what a block has lost there are the names of the
calls around it that no longer open one. Of a list of identifiers only its members matter.
-/
namespace CursorCommand

namespace Node

variable {source : List Char} {fewer more : List String}

theorem Opens.mono {n : Node} (h : n.Opens source fewer) (hids : fewer ⊆ more) :
    n.Opens source more := by
  obtain ⟨f, b, hf, hlead, hid⟩ := h.callee
  exact ⟨h.kind, h.arguments, f, b, hf, hlead, hids hid⟩

theorem openings_eq_filter (hids : fewer ⊆ more) (root : Node) :
    root.openings source fewer =
      (root.openings source more).filter (·.node.Opens source fewer) := by
  rw [openings, openings, List.filter_filter]
  apply List.filter_congr
  intro p _
  rw [Bool.eq_iff_iff, Bool.and_eq_true, decide_eq_true_iff, Place.opens, Place.opens,
    opensBlock_iff, opensBlock_iff]
  exact ⟨fun h => ⟨h, h.mono hids⟩, And.left⟩

/-- Identifiers open blocks as a set: neither their order nor their repetitions show. -/
theorem openings_congr {as bs : List String} (h : ∀ id, id ∈ as ↔ id ∈ bs) (root : Node) :
    root.openings source as = root.openings source bs := by
  have hall : ∀ p ∈ root.openings source bs, decide (p.node.Opens source as) = true := by
    intro p hp
    obtain ⟨-, -, hopens⟩ := mem_openings.mp hp
    exact decide_eq_true (hopens.mono fun id => (h id).mpr)
  rw [openings_eq_filter fun id => (h id).mp, List.filter_eq_self.mpr hall]

end Node

namespace Block

/-- The block `b` is the block `c` without the names of those calls around it, outermost first
`around`, that open no block for the identifiers. -/
structure Thinned (source : List Char) (identifiers : List String) (around : List Place)
    (b c : Block) : Prop where
  name : b.name = c.name
  start : b.start = c.start
  stop : b.stop = c.stop
  all : c.parents = around.map (Place.name source)
  left : b.parents =
    (around.filter (·.node.Opens source identifiers)).map (Place.name source)

theorem Thinned.parents_sublist {source : List Char} {identifiers : List String}
    {around : List Place} {b c : Block} (h : Thinned source identifiers around b c) :
    b.parents.Sublist c.parents := by
  rw [h.all, h.left]
  exact List.filter_sublist.map _

end Block

theorem Place.thinned_block (source : List Char) (identifiers : List String) (calls : List Place)
    (p : Place) :
    Block.Thinned source identifiers (calls.filter (·.Above p))
      (p.block source (calls.filter (·.node.Opens source identifiers)))
      (p.block source calls) where
  name := rfl
  start := rfl
  stop := rfl
  all := rfl
  left := by rw [block, List.filter_comm]

/-- The blocks for fewer identifiers are those of the calls, among the calls for more, that still
open one, in the same order; each is the same block but for the parents whose calls no longer open
one. Lists of identifiers with the same members give the same blocks. -/
theorem extract_fewer_identifiers (source : String) (root : Node) :
    (∀ fewer more : List String, fewer ⊆ more →
      let calls := root.openings source.toList more
      let kept := calls.filter (·.node.Opens source.toList fewer)
      let block := Place.block source.toList calls
      calls.Pairwise (fun p q => p.address < q.address) ∧
      (∀ p, p ∈ calls ↔ p.address ≠ [] ∧ root.at? p.address = some p.node ∧
        p.node.Opens source.toList more) ∧
      Block.extract source more root = calls.map block ∧
      kept = root.openings source.toList fewer ∧
      (kept.map block).Sublist (Block.extract source more root) ∧
      List.Forall₂ (fun b p => b.parents.Sublist (block p).parents ∧
          b.Thinned source.toList fewer (calls.filter (·.Above p)) (block p))
        (Block.extract source fewer root) kept) ∧
    ∀ as bs : List String, (∀ id, id ∈ as ↔ id ∈ bs) →
      Block.extract source as root = Block.extract source bs root := by
  constructor
  · intro fewer more hids calls kept block
    have hmore : Block.extract source more root = calls.map block :=
      Block.extract_eq source more root
    have hkept : kept = root.openings source.toList fewer := (Node.openings_eq_filter hids root).symm
    refine ⟨Node.openings_pairwise_lt source.toList more root, fun p => Node.mem_openings, hmore,
      hkept, hmore ▸ List.filter_sublist.map block, ?_⟩
    rw [Block.extract_eq, ← hkept, List.forall₂_map_left_iff, List.forall₂_same]
    intro p _
    have hthinned := Place.thinned_block source.toList fewer calls p
    exact ⟨hthinned.parents_sublist, hthinned⟩
  · intro as bs hsame
    rw [Block.extract_eq, Block.extract_eq, Node.openings_congr hsame]

/-- The tree of `it('a',d('b',it('c')))`. -/
def nestedCallTree : Node :=
  let node (kind : NodeKind) (start stop : Nat) (field : Option NodeField) : List Node → Node :=
    .mk ⟨kind, start, stop, field, true, false⟩
  node .other 0 22 none [
    node .callExpression 0 22 none [
      node .identifier 0 2 (some .function) [],
      node .arguments 2 22 (some .arguments) [
        node .string 3 6 none [],
        node .callExpression 7 21 none [
          node .identifier 7 8 (some .function) [],
          node .arguments 8 21 (some .arguments) [
            node .string 9 12 none [],
            node .callExpression 13 20 none [
              node .identifier 13 15 (some .function) [],
              node .arguments 15 20 (some .arguments) [
                node .string 16 19 none []]]]]]]]

/-- A call between two others that no longer opens a block. -/
theorem nestedCallTree_fewer_identifiers :
    let source := "it('a',d('b',it('c')))"
    let inner : Block := ⟨some "c", [some "a"], 13, 20⟩
    ["it"] ⊆ ["it", "d"] ∧ (∀ id, id ∈ ["it", "d"] ↔ id ∈ ["d", "it", "d"]) ∧
      (Block.extract source ["it"] nestedCallTree)[1]? = some inner ∧
      (∃ c ∈ Block.extract source ["it", "d"] nestedCallTree,
        c.parents = [some "a", some "b"] ∧ inner.parents.Sublist c.parents) ∧
      Block.extract source ["it", "d"] nestedCallTree =
        Block.extract source ["d", "it", "d"] nestedCallTree := by
  intro source inner
  have hids : ["it"] ⊆ ["it", "d"] := by decide
  have hsame : ∀ id, id ∈ ["it", "d"] ↔ id ∈ ["d", "it", "d"] := by
    intro id
    simp only [List.mem_cons, List.not_mem_nil, or_false]
    tauto
  have hfewer : Block.extract source ["it"] nestedCallTree =
      [⟨some "a", [], 0, 22⟩, inner] := by decide +kernel
  have hmore : Block.extract source ["it", "d"] nestedCallTree =
      [⟨some "a", [], 0, 22⟩, ⟨some "b", [some "a"], 7, 21⟩,
        ⟨some "c", [some "a", some "b"], 13, 20⟩] := by decide +kernel
  obtain ⟨-, -, -, -, hsublist, hcounterparts⟩ :=
    (extract_fewer_identifiers source nestedCallTree).1 ["it"] ["it", "d"] hids
  rw [hfewer] at hcounterparts
  obtain ⟨_, _, -, hrest, hkept⟩ := List.forall₂_cons_left_iff.mp hcounterparts
  obtain ⟨p, _, ⟨hparents, hthinned⟩, -, rfl⟩ := List.forall₂_cons_left_iff.mp hrest
  rw [hkept] at hsublist
  have hmem := hsublist.subset (List.mem_map_of_mem (List.mem_cons_of_mem _ List.mem_cons_self))
  refine ⟨hids, hsame, by rw [hfewer]; rfl, ⟨_, hmem, ?_, hparents⟩,
    (extract_fewer_identifiers source nestedCallTree).2 _ _ hsame⟩
  -- Of the three blocks only one starts where the inner call does.
  rw [hmore] at hmem
  have hstart := hthinned.start
  simp only [List.mem_cons, List.not_mem_nil, or_false] at hmem
  rcases hmem with hc | hc | hc
  · rw [hc] at hstart
    cases hstart
  · rw [hc] at hstart
    cases hstart
  · rw [hc]

end CursorCommand
