import CursorCommand.Block.Extract
import CursorCommand.Proofs.Tree.OpeningCall
import Mathlib.Data.List.Forall2

/-!
# The blocks of a tree, one for each opening call

Extraction walks the tree once and hands the names of the enclosing blocks down. Here its result is
described without the walk: the places of the opening calls in pre-order, where the parents of a
block are the opening calls whose address is a proper beginning of its own.
-/
namespace CursorCommand

/-- The block as it stands inside blocks with the given names. -/
def Block.inside (parents : List (Option String)) (b : Block) : Block :=
  { b with parents := parents ++ b.parents }

theorem Block.inside_inside (ps qs : List (Option String)) (b : Block) :
    (b.inside qs).inside ps = b.inside (ps ++ qs) := by
  simp [Block.inside]

namespace Place

variable {source : List Char} {identifiers : List String}

def opens (source : List Char) (identifiers : List String) (p : Place) : Bool :=
  p.node.opensBlock source identifiers

def name (source : List Char) (p : Place) : Option String := p.node.blockName? source

/-- The block of a call, when the given places hold the opening calls. -/
def block (source : List Char) (openings : List Place) (p : Place) : Block :=
  ⟨p.name source, (openings.filter (·.Above p)).map (name source), p.node.start, p.node.stop⟩

/-- The blocks of opening calls inside blocks with the given names. -/
def blocks (source : List Char) (parents : List (Option String)) (openings : List Place) :
    List Block := openings.map fun p => (p.block source openings).inside parents

theorem block_under (i : Nat) (os : List Place) (p : Place) :
    (p.under i).block source (os.map (under i)) = p.block source os := by
  have hf : (fun q => decide (q.Above (p.under i))) ∘ under i = fun q => decide (q.Above p) := by
    funext q
    simp
  simp only [block, name, List.filter_map, hf, List.map_map, under_node]
  rfl

theorem block_append_left {os rest : List Place} {p : Place} (h : ∀ q ∈ rest, ¬ q.Above p) :
    p.block source (os ++ rest) = p.block source os := by
  have hr : rest.filter (·.Above p) = [] := by simpa using h
  rw [block, List.filter_append, hr, List.append_nil, block]

theorem block_append_right {os rest : List Place} {p : Place} (h : ∀ q ∈ os, ¬ q.Above p) :
    p.block source (os ++ rest) = p.block source rest := by
  have ho : os.filter (·.Above p) = [] := by simpa using h
  rw [block, List.filter_append, ho, List.nil_append, block]

theorem block_cons {os : List Place} {p q : Place} (h : q.Above p) :
    p.block source (q :: os) = (p.block source os).inside [q.name source] := by
  rw [block, List.filter_cons_of_pos (by simpa using h)]
  rfl

theorem not_above_root (p : Place) (n : Node) : ¬ p.Above ⟨[], n⟩ := by
  rintro ⟨h, hne⟩
  exact hne (List.prefix_nil.mp h)

/-- In the order of addresses a place is below earlier ones only. -/
theorem filter_above {before after : List Place} {q : Place}
    (h : (before ++ q :: after).Pairwise fun p q => p.address < q.address) :
    (before ++ q :: after).filter (·.Above q) = before.filter (·.Above q) := by
  have hlater : (q :: after).filter (·.Above q) = [] := by
    apply List.filter_eq_nil_iff.mpr
    intro r hr habove
    have hlt := (of_decide_eq_true habove).lt
    rcases List.mem_cons.mp hr with rfl | hr
    · exact lt_irrefl _ hlt
    · exact lt_asymm hlt ((List.pairwise_cons.mp (List.pairwise_append.mp h).2.1).1 r hr)
  rw [List.filter_append, hlater, List.append_nil]

end Place

namespace Node

variable {source : List Char} {identifiers : List String}

/-- The opening calls below the root of a tree, in pre-order. -/
def openings (source : List Char) (identifiers : List String) (root : Node) : List Place :=
  root.placesBelow.filter (Place.opens source identifiers)

theorem filter_placesFrom_cons (k : Nat) (c : Node) (cs : List Node) :
    (placesFrom k (c :: cs)).filter (Place.opens source identifiers) =
      (c.places.filter (Place.opens source identifiers)).map (Place.under k) ++
        (placesFrom (k + 1) cs).filter (Place.opens source identifiers) := by
  rw [placesFrom, List.filter_append, List.filter_map]
  rfl

/-- The names handed down come before the names of the opening calls in between. -/
theorem blocksOfAll_eq {cs : List Node}
    (h : ∀ c ∈ cs, ∀ parents, blocks source identifiers parents c =
      Place.blocks source parents (c.places.filter (Place.opens source identifiers)))
    (k : Nat) (parents : List (Option String)) :
    blocksOfAll source identifiers parents cs =
      Place.blocks source parents ((placesFrom k cs).filter (Place.opens source identifiers)) := by
  induction cs generalizing k with
  | nil => rfl
  | cons c cs ih =>
    have hrest := ih (fun d hd => h d (List.mem_cons_of_mem c hd)) (k + 1)
    rw [blocksOfAll, h c List.mem_cons_self, hrest, filter_placesFrom_cons, Place.blocks,
      Place.blocks, Place.blocks, List.map_append, List.map_map]
    congr 1
    · -- No later sibling is above a place of the first one, nor the other way round.
      apply List.map_congr_left
      intro p _
      rw [Function.comp_apply, Place.block_append_left, Place.block_under]
      intro q hq habove
      obtain ⟨i, a, ha, hi⟩ := exists_address_of_mem_placesFrom (List.mem_of_mem_filter hq)
      have hhead := habove.1
      rw [ha, Place.under_address, List.cons_prefix_cons] at hhead
      omega
    · apply List.map_congr_left
      intro p hp
      rw [Place.block_append_right]
      intro q hq
      obtain ⟨i, a, ha, hi⟩ := exists_address_of_mem_placesFrom (List.mem_of_mem_filter hp)
      obtain ⟨r, -, rfl⟩ := List.mem_map.mp hq
      exact Place.not_above_of_head_ne (by omega) ha

theorem blocks_eq (n : Node) (parents : List (Option String)) :
    blocks source identifiers parents n =
      Place.blocks source parents (n.places.filter (Place.opens source identifiers)) := by
  induction n generalizing parents with
  | mk head children ih =>
    have hall := blocksOfAll_eq ih 0
    rw [blocks, places]
    split
    · rename_i hopens
      have hroot : Place.opens source identifiers ⟨[], .mk head children⟩ = true := hopens
      dsimp only
      rw [hall, List.filter_cons_of_pos hroot, Place.blocks, Place.blocks, List.map_cons]
      refine congrArg₂ List.cons ?_ (List.map_congr_left fun p hp => ?_)
      · have hnone : ∀ os : List Place,
            os.filter (·.Above ⟨[], .mk head children⟩) = [] := fun os =>
          List.filter_eq_nil_iff.mpr fun p _ => by simpa using Place.not_above_root p _
        rw [Place.block, hnone]
        simp [Block.inside, Place.name, Node.start, Node.stop, Node.head]
      · obtain ⟨i, a, ha, -⟩ := exists_address_of_mem_placesFrom (List.mem_of_mem_filter hp)
        have habove : Place.Above ⟨[], .mk head children⟩ p :=
          ⟨List.nil_prefix, by rw [ha]; exact (List.cons_ne_nil i a).symm⟩
        rw [Place.block_cons habove, Block.inside_inside]
        rfl
    · rename_i hopens
      rw [List.filter_cons_of_neg (by simpa [Place.opens] using hopens), hall]

theorem mem_openings {root : Node} {p : Place} :
    p ∈ root.openings source identifiers ↔
      p.address ≠ [] ∧ root.at? p.address = some p.node ∧ p.node.Opens source identifiers := by
  rw [openings, List.mem_filter, mem_placesBelow, Place.opens, opensBlock_iff, and_assoc]

theorem openings_pairwise_lt (source : List Char) (identifiers : List String) (root : Node) :
    (root.openings source identifiers).Pairwise fun p q => p.address < q.address :=
  (placesBelow_pairwise_lt root).filter _

end Node

theorem Block.extract_eq (source : String) (identifiers : List String) (root : Node) :
    Block.extract source identifiers root =
      (root.openings source.toList identifiers).map
        (Place.block source.toList (root.openings source.toList identifiers)) := by
  rw [Block.extract, Node.blocksOfAll_eq fun c _ => Node.blocks_eq c]
  rfl

/-- What a block should say of the call at a place, when the given places hold the opening calls:
its span, the name that it gives, and the names that the calls above it give, outermost first. -/
structure Place.Describes (source : List Char) (openings : List Place) (p : Place)
    (b : Block) : Prop where
  start : b.start = p.node.start
  stop : b.stop = p.node.stop
  name : p.node.Named source b.name
  parents : List.Forall₂ (fun q name => q.node.Named source name)
    (openings.filter (·.Above p)) b.parents

/-- Extraction gives one block for each opening call below the root, in pre-order, and each block
says what it should. -/
theorem extract_describes_opening_calls (source : String) (identifiers : List String)
    (root : Node) :
    ∃ openings : List Place,
      openings.Pairwise (fun p q => p.address < q.address) ∧
      (∀ p, p ∈ openings ↔ p.address ≠ [] ∧ root.at? p.address = some p.node ∧
        p.node.Opens source.toList identifiers) ∧
      List.Forall₂ (Place.Describes source.toList openings) openings
        (Block.extract source identifiers root) := by
  have hmem : ∀ p, p ∈ root.openings source.toList identifiers ↔ _ := fun p => Node.mem_openings
  refine ⟨root.openings source.toList identifiers,
    Node.openings_pairwise_lt source.toList identifiers root, hmem, ?_⟩
  rw [Block.extract_eq, List.forall₂_map_right_iff, List.forall₂_same]
  intro p hp
  refine ⟨rfl, rfl, ((hmem p).mp hp).2.2.named, ?_⟩
  rw [Place.block, List.forall₂_map_right_iff, List.forall₂_same]
  intro q hq
  exact ((hmem q).mp (List.mem_of_mem_filter hq)).2.2.named

/-- The tree of `it.b('a',it())`. -/
def chainedCallTree : Node :=
  let node (kind : NodeKind) (start stop : Nat) (field : Option NodeField) : List Node → Node :=
    .mk ⟨kind, start, stop, field, true, false⟩
  node .other 0 14 none [
    node .callExpression 0 14 none [
      node .memberExpression 0 4 (some .function) [
        node .identifier 0 2 (some .object) [], node .other 3 4 none []],
      node .arguments 4 14 (some .arguments) [
        node .string 5 8 none [],
        node .callExpression 9 13 none [
          node .identifier 9 11 (some .function) [],
          node .arguments 11 13 (some .arguments) []]]]]

/-- An identifier behind a member, and a call without a literal inside another one. -/
theorem chainedCallTree_described :
    let source := "it.b('a',it())"
    ∃ openings : List Place,
      openings.Pairwise (fun p q => p.address < q.address) ∧
      (∀ p, p ∈ openings ↔ p.address ≠ [] ∧ chainedCallTree.at? p.address = some p.node ∧
        p.node.Opens source.toList ["it"]) ∧
      List.Forall₂ (Place.Describes source.toList openings) openings
        [⟨some "a", [], 0, 14⟩, ⟨none, [some "a"], 9, 13⟩] := by
  intro source
  have hblocks : Block.extract source ["it"] chainedCallTree =
      [⟨some "a", [], 0, 14⟩, ⟨none, [some "a"], 9, 13⟩] := by decide +kernel
  exact hblocks ▸ extract_describes_opening_calls source ["it"] chainedCallTree

end CursorCommand
