import CursorCommand.Proofs.Block.Extraction
import CursorCommand.Proofs.Tree.Span

/-!
# Parents by span

Extraction never compares spans. On a nested tree the parents that it hands down are nevertheless
those that the spans show: `Block.Laminar` says this of a list of blocks alone, and the blocks of a
nested tree are laminar when no identifier is empty.
-/
namespace CursorCommand

/-- All that satisfies `P` in front of `x` satisfies `Q`, and so does `x`. -/
theorem length_filter_lt {α : Type} {P Q : α → Prop} [DecidablePred P] [DecidablePred Q]
    {front rest : List α} {x : α} (h : ∀ y ∈ front, P y → Q y) (hx : Q x) :
    (front.filter (P ·)).length < ((front ++ x :: rest).filter (Q ·)).length := by
  have hfront : (front.filter (P ·)).length ≤ (front.filter (Q ·)).length := by
    rw [← List.countP_eq_length_filter, ← List.countP_eq_length_filter]
    apply List.countP_mono_left
    intro y hy hP
    exact decide_eq_true (h y hy (of_decide_eq_true hP))
  have hrest : (x :: rest).filter (Q ·) = x :: rest.filter (Q ·) :=
    List.filter_cons_of_pos (decide_eq_true hx)
  rw [List.filter_append, hrest, List.length_append, List.length_cons]
  omega

namespace Block

/-- Blocks in pre-order that lie one inside the other or apart, and whose parents are the earlier
blocks around them. -/
structure Laminar (bs : List Block) : Prop where
  nonempty : ∀ b ∈ bs, b.start < b.stop
  nested : bs.Pairwise fun a b => a.stop ≤ b.start ∨ b.Within a
  parents : ∀ before b after, bs = before ++ b :: after →
    b.parents = (before.filter (b.Within ·)).map name

namespace Laminar

variable {bs before after : List Block} {b : Block}

theorem starts (h : Laminar bs) : bs.Pairwise fun a b => a.start ≤ b.start := by
  apply h.nested.imp_of_mem
  intro a b ha _ hab
  have hpos := h.nonempty a ha
  rcases hab with hab | hab
  · omega
  · exact hab.1

theorem depth_eq (h : Laminar bs) (hb : bs = before ++ b :: after) :
    b.depth = (before.filter (b.Within ·)).length := by
  rw [depth, h.parents before b after hb, List.length_map]

/-- Of two blocks one inside the other, the later is the deeper. -/
theorem depth_lt {a : Block} {between : List Block}
    (h : Laminar (before ++ a :: between ++ b :: after)) (hab : b.Within a) :
    a.depth < b.depth := by
  have hfront : before ++ a :: between ++ b :: after =
      before ++ a :: (between ++ b :: after) := by simp
  rw [h.depth_eq hfront, h.depth_eq rfl]
  exact length_filter_lt (fun c _ hac => hab.trans hac) hab

end Laminar

end Block

namespace Node

variable {source : List Char} {identifiers : List String} {root : Node}

/-- The spans of two opening calls say whether one is above the other. -/
theorem Nested.above_iff {p q : Place} (h : root.Nested) (hids : "" ∉ identifiers)
    (hp : p ∈ root.openings source identifiers) (hq : q ∈ root.openings source identifiers)
    (hlt : p.address < q.address) (os : List Place) :
    p.Above q ↔ (q.block source os).Within (p.block source os) := by
  obtain ⟨-, hpn, -⟩ := mem_openings.mp hp
  obtain ⟨-, hqn, hopens⟩ := mem_openings.mp hq
  constructor
  · intro habove
    exact h.within_of_prefix hpn hqn habove.1
  · intro hwithin
    refine ⟨?_, fun heq => lt_irrefl _ (heq ▸ hlt)⟩
    by_contra hpre
    have happart := h.stop_le_start hpn hqn hlt hpre
    have hpos := (h.at? hqn).start_lt_stop hids hopens
    have hstop : q.node.stop ≤ p.node.stop := hwithin.2
    omega

theorem Nested.laminar (source : String) (h : root.Nested) (hids : "" ∉ identifiers) :
    Block.Laminar (Block.extract source identifiers root) := by
  rw [Block.extract_eq]
  generalize hos : root.openings source.toList identifiers = os
  have hsorted : os.Pairwise fun p q => p.address < q.address :=
    hos ▸ openings_pairwise_lt source.toList identifiers root
  have habove : ∀ p ∈ os, ∀ q ∈ os, p.address < q.address →
      (p.Above q ↔ (q.block source.toList os).Within (p.block source.toList os)) :=
    fun p hp q hq hlt => h.above_iff hids (hos ▸ hp) (hos ▸ hq) hlt os
  constructor
  · intro b hb
    obtain ⟨p, hp, rfl⟩ := List.mem_map.mp hb
    obtain ⟨-, hpn, hopens⟩ := mem_openings.mp (hos ▸ hp)
    exact (h.at? hpn).start_lt_stop hids hopens
  · apply List.pairwise_map.mpr
    apply hsorted.imp_of_mem
    intro p q hp hq hlt
    by_cases hpre : p.address <+: q.address
    · exact .inr ((habove p hp q hq hlt).mp ⟨hpre, fun heq => lt_irrefl _ (heq ▸ hlt)⟩)
    · obtain ⟨-, hpn, -⟩ := mem_openings.mp (hos ▸ hp)
      obtain ⟨-, hqn, -⟩ := mem_openings.mp (hos ▸ hq)
      exact .inl (h.stop_le_start hpn hqn hlt hpre)
  · intro before b after hsplit
    obtain ⟨ps, rest, hps, rfl, hrest⟩ := List.map_eq_append_iff.mp hsplit
    obtain ⟨q, qs, rfl, rfl, -⟩ := List.map_eq_cons_iff.mp hrest
    have hearlier : ps.filter (·.Above q) =
        ps.filter fun p => (q.block source.toList os).Within (p.block source.toList os) := by
      apply List.filter_congr
      intro p hp
      apply decide_eq_decide.mpr
      apply habove p (by simp [hps, hp]) q (by simp [hps])
      rw [hps] at hsorted
      exact (List.pairwise_append.mp hsorted).2.2 p hp q List.mem_cons_self
    have hfilter : os.filter (·.Above q) =
        ps.filter fun p => (q.block source.toList os).Within (p.block source.toList os) := by
      rw [hps, Place.filter_above (hps ▸ hsorted), hearlier, hps]
    rw [List.filter_map, List.map_map]
    exact congrArg (List.map (Place.name source.toList)) hfilter

end Node

/-- On a well-formed tree the blocks are not empty and lie inside the source, they start in order,
two of them are apart or the later lies inside the earlier, and the parents of a block are the
earlier blocks that it lies inside. -/
theorem extract_parents_by_span (source : String) (identifiers : List String) (root : Node)
    (h : root.WellFormed source.toList) (hids : "" ∉ identifiers) :
    let blocks := Block.extract source identifiers root
    (∀ b ∈ blocks, b.start < b.stop ∧ b.stop ≤ Measure.utf8.length source.toList) ∧
    blocks.Pairwise (fun a b => a.start ≤ b.start) ∧
    blocks.Pairwise (fun a b => a.stop ≤ b.start ∨ b.Within a) ∧
    ∀ j b, blocks[j]? = some b →
      b.parents = ((blocks.take j).filter (b.Within ·)).map Block.name ∧
      b.depth = ((blocks.take j).filter (b.Within ·)).length := by
  intro blocks
  have hlam : Block.Laminar blocks := h.nested.laminar source hids
  refine ⟨fun b hb => ⟨hlam.nonempty b hb, ?_⟩, hlam.starts, hlam.nested, ?_⟩
  · rw [show blocks = _ from Block.extract_eq source identifiers root] at hb
    obtain ⟨p, hp, rfl⟩ := List.mem_map.mp hb
    obtain ⟨-, hpn, -⟩ := Node.mem_openings.mp hp
    exact Measure.Boundary.le_length _ (h.boundary p (Node.mem_places.mpr hpn)).2
  · intro j b hj
    obtain ⟨hlt, rfl⟩ := List.getElem?_eq_some_iff.mp hj
    have hsplit : blocks = blocks.take j ++ blocks[j] :: blocks.drop (j + 1) := by
      rw [List.getElem_cons_drop, List.take_append_drop]
    exact ⟨hlam.parents _ _ _ hsplit, hlam.depth_eq hsplit⟩

theorem chainedCallTree_parents_by_span :
    let inner : Block := ⟨none, [some "a"], 9, 13⟩
    let blocks := Block.extract "it.b('a',it())" ["it"] chainedCallTree
    chainedCallTree.WellFormed "it.b('a',it())".toList ∧ "" ∉ ["it"] ∧
      blocks[1]? = some inner ∧
      inner.parents = ((blocks.take 1).filter (inner.Within ·)).map Block.name := by
  have hwell : chainedCallTree.WellFormed "it.b('a',it())".toList := by decide +kernel
  have hids : "" ∉ ["it"] := by decide
  have hinner : (Block.extract "it.b('a',it())" ["it"] chainedCallTree)[1]? =
      some ⟨none, [some "a"], 9, 13⟩ := by decide +kernel
  exact ⟨hwell, hids, hinner,
    ((extract_parents_by_span _ _ _ hwell hids).2.2.2 1 _ hinner).1⟩

end CursorCommand
