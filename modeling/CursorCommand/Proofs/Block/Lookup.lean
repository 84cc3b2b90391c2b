import CursorCommand.Block.Lookup
import CursorCommand.Proofs.Block.Nesting
import Mathlib.Data.List.Induction

/-!
# The block around an offset, by depth

A span contains the offset behind its last byte, so two blocks that touch both contain the offset
between them. In a laminar list the running best then stays with the left one: it is the last block
that ends at the offset, and where none does the last that contains it. Either is the deepest of its
kind, and no other is as deep.
-/
namespace CursorCommand

namespace Block

variable {bs : List Block} {offset : Nat}

/-- The block at an index has a property, and every other block that has it is less deep. -/
structure Deepest (bs : List Block) (P : Block → Prop) (b : Block) (index : Nat) : Prop where
  get : bs[index]? = some b
  holds : P b
  deeper : ∀ i c, bs[i]? = some c → P c → i ≠ index → c.depth < b.depth

theorem getLast?_filter_zipIdx {P : Block → Prop} [DecidablePred P] {b : Block} {index : Nat}
    (h : (bs.zipIdx.filter fun c => P c.1).getLast? = some (b, index)) :
    ∃ before after, bs = before ++ b :: after ∧ before.length = index ∧ P b ∧
      ∀ c ∈ after, ¬ P c := by
  induction bs using List.reverseRecOn with
  | nil => cases h
  | append_singleton bs x ih =>
    rw [List.zipIdx_append, List.filter_append] at h
    by_cases hx : P x
    · have hlast : (([x].zipIdx (0 + bs.length)).filter fun c => P c.1) = [(x, bs.length)] := by
        simp [hx]
      rw [hlast, List.getLast?_concat] at h
      obtain ⟨rfl, rfl⟩ := Prod.mk.inj (Option.some.inj h)
      exact ⟨bs, [], rfl, rfl, hx, by simp⟩
    · have hlast : (([x].zipIdx (0 + bs.length)).filter fun c => P c.1) = [] := by
        simp [hx]
      rw [hlast, List.append_nil] at h
      obtain ⟨before, after, rfl, hindex, hb, hafter⟩ := ih h
      refine ⟨before, after ++ [x], by simp, hindex, hb, ?_⟩
      intro c hc
      rcases List.mem_append.mp hc with hc | hc
      · exact hafter c hc
      · rwa [List.mem_singleton.mp hc]

theorem foldl_narrower_ne_none (cs : List (Block × Nat)) (b : Block × Nat) :
    cs.foldl narrower (some b) ≠ none := by
  induction cs generalizing b with
  | nil => simp
  | cons c cs ih =>
    rw [List.foldl_cons, narrower]
    split
    · exact ih c
    · exact ih b

theorem enclosingIdx?_eq_none_iff :
    enclosingIdx? bs offset = none ↔ ∀ b ∈ bs, ¬ b.Contains offset := by
  have hempty : (bs.zipIdx.filter fun c => c.1.Contains offset) = [] ↔
      ∀ b ∈ bs, ¬ b.Contains offset := by
    rw [List.filter_eq_nil_iff]
    constructor
    · intro h b hb
      obtain ⟨i, hi⟩ := List.getElem?_of_mem hb
      simpa using h (b, i) (List.mk_mem_zipIdx_iff_getElem?.mpr hi)
    · intro h c hc
      simpa using h c.1 (List.fst_mem_of_mem_zipIdx hc)
  rw [← hempty, enclosingIdx?]
  cases bs.zipIdx.filter fun c => c.1.Contains offset with
  | nil => simp
  | cons c cs => simpa [narrower] using foldl_narrower_ne_none cs c

theorem exists_getLast?_filter_zipIdx {P : Block → Prop} [DecidablePred P]
    (h : ∃ b ∈ bs, P b) :
    ∃ b index, (bs.zipIdx.filter fun c => P c.1).getLast? = some (b, index) := by
  obtain ⟨b, hb, hP⟩ := h
  obtain ⟨i, hi⟩ := List.getElem?_of_mem hb
  have hmem : (b, i) ∈ bs.zipIdx.filter fun c => P c.1 :=
    List.mem_filter.mpr ⟨List.mk_mem_zipIdx_iff_getElem?.mpr hi, decide_eq_true hP⟩
  have hne := List.ne_nil_of_mem hmem
  exact ⟨_, _, List.getLast?_eq_some_getLast hne⟩

/-- The last block with a property is the one at an index behind which no block has it. -/
theorem getLast?_filter_zipIdx_eq {P : Block → Prop} [DecidablePred P] {b : Block} {index : Nat}
    (hget : bs[index]? = some b) (hb : P b) (hafter : ∀ i c, index < i → bs[i]? = some c → ¬ P c) :
    (bs.zipIdx.filter fun c => P c.1).getLast? = some (b, index) := by
  obtain ⟨last, i, hlast⟩ := exists_getLast?_filter_zipIdx ⟨b, List.mem_of_getElem? hget, hb⟩
  obtain ⟨before, after, rfl, rfl, hP, hnone⟩ := getLast?_filter_zipIdx hlast
  have hgetLast : (before ++ last :: after)[before.length]? = some last := by simp
  rcases Nat.lt_trichotomy index before.length with hlt | rfl | hgt
  · exact (hafter before.length last hlt hgetLast hP).elim
  · obtain rfl := Option.some.inj (hget.symm.trans hgetLast)
    exact hlast
  · rw [List.getElem?_append_right (Nat.le_of_lt hgt), List.getElem?_cons,
      if_neg (Nat.sub_ne_zero_of_lt hgt)] at hget
    exact (hnone b (List.mem_of_getElem? hget) hb).elim

namespace Laminar

/-- Candidates that contain the offset: one that ends there keeps out all that start there. -/
theorem foldl_narrower (offset : Nat) {cs : List (Block × Nat)}
    (hpos : ∀ c ∈ cs, c.1.start < c.1.stop)
    (hnested : cs.Pairwise fun c d => c.1.stop ≤ d.1.start ∨ d.1.Within c.1)
    (hin : ∀ c ∈ cs, c.1.Contains offset) :
    cs.foldl narrower none = ((cs.filter fun c => c.1.stop = offset).getLast?).or cs.getLast? := by
  induction cs using List.reverseRecOn with
  | nil => rfl
  | append_singleton cs c ih =>
    obtain ⟨hcs, -, hc⟩ := List.pairwise_append.mp hnested
    have hlast : ∀ d ∈ cs, d.1.stop ≤ c.1.start ∨ c.1.Within d.1 :=
      fun d hd => hc d hd c List.mem_cons_self
    have hcpos := hpos c (by simp)
    have hcin := hin c (by simp)
    have hold := ih (fun d hd => hpos d (by simp [hd])) hcs (fun d hd => hin d (by simp [hd]))
    rw [List.foldl_append, hold, List.foldl_cons, List.foldl_nil, List.filter_append,
      List.getLast?_concat]
    cases hends : (cs.filter fun c => c.1.stop = offset).getLast? with
    | some e =>
      have hmem := List.mem_of_getLast? hends
      have hstop : e.1.stop = offset := by simpa using (List.mem_filter.mp hmem).2
      have hwithin := hlast e (List.mem_of_mem_filter hmem)
      by_cases hcstop : c.1.stop = offset
      · have hce : c.1.Within e.1 := hwithin.resolve_left (by omega)
        simp [narrower, hce, hcstop]
      · have hce : ¬ c.1.Within e.1 := by
          intro hw
          have hle := hw.2
          have hge := hcin.2
          omega
        simp [narrower, hce, hcstop, hends]
    | none =>
      have hnone := List.getLast?_eq_none_iff.mp hends
      rw [hnone]
      cases hb : cs.getLast? with
      | none => by_cases hcstop : c.1.stop = offset <;> simp [narrower, hcstop]
      | some b =>
        have hmem := List.mem_of_getLast? hb
        have hstop : b.1.stop ≠ offset := by
          simpa using List.filter_eq_nil_iff.mp hnone b hmem
        have hbin := hin b (by simp [hmem])
        have hcb : c.1.Within b.1 := by
          apply (hlast b hmem).resolve_left
          intro hle
          have hlow := hcin.1
          have hhigh := hbin.2
          omega
        by_cases hcstop : c.1.stop = offset <;> simp [narrower, hcb, hcstop]

theorem enclosingIdx?_eq (h : Laminar bs) (offset : Nat) :
    enclosingIdx? bs offset =
      ((bs.zipIdx.filter fun c => c.1.stop = offset).getLast?).or
        (bs.zipIdx.filter fun c => c.1.Contains offset).getLast? := by
  have hmem : ∀ c ∈ bs.zipIdx, c.1 ∈ bs := fun c hc => List.fst_mem_of_mem_zipIdx hc
  have hnested : bs.zipIdx.Pairwise fun c d => c.1.stop ≤ d.1.start ∨ d.1.Within c.1 := by
    have hfst := h.nested
    rw [← List.zipIdx_map_fst 0 bs] at hfst
    exact List.pairwise_map.mp hfst
  have hends : (bs.zipIdx.filter fun c => c.1.Contains offset).filter
      (fun c => c.1.stop = offset) = bs.zipIdx.filter fun c => c.1.stop = offset := by
    rw [List.filter_filter]
    apply List.filter_congr
    intro c hc
    have hpos := h.nonempty c.1 (hmem c hc)
    rw [← Bool.decide_and]
    refine decide_eq_decide.mpr ⟨fun hboth => hboth.1, fun hstop => ⟨hstop, ?_⟩⟩
    exact ⟨by omega, by omega⟩
  rw [enclosingIdx?, foldl_narrower offset, hends]
  · exact fun c hc => h.nonempty c.1 (hmem c (List.mem_of_mem_filter hc))
  · exact hnested.filter _
  · exact fun c hc => by simpa using (List.mem_filter.mp hc).2

/-- When the blocks with a property lie inside each other, the last of them is the deepest. -/
theorem deepest_of_last (h : Laminar bs) {P : Block → Prop} [DecidablePred P]
    (hchain : ∀ c ∈ bs, ∀ b ∈ bs, P c → P b → ¬ c.stop ≤ b.start) {b : Block} {index : Nat}
    (hlast : (bs.zipIdx.filter fun c => P c.1).getLast? = some (b, index)) :
    Deepest bs P b index := by
  obtain ⟨before, after, rfl, rfl, hb, hafter⟩ := getLast?_filter_zipIdx hlast
  refine ⟨by simp, hb, ?_⟩
  intro i c hc hP hne
  rcases Nat.lt_or_gt_of_ne hne with hlt | hgt
  · rw [List.getElem?_append_left hlt] at hc
    obtain ⟨front, between, rfl⟩ := List.append_of_mem (List.mem_of_getElem? hc)
    have hwithin := (List.pairwise_append.mp h.nested).2.2 c (by simp) b List.mem_cons_self
    have hapart := hchain c (by simp) b (by simp) hP hb
    exact h.depth_lt (hwithin.resolve_left hapart)
  · rw [List.getElem?_append_right (Nat.le_of_lt hgt), List.getElem?_cons,
      if_neg (Nat.sub_ne_zero_of_lt hgt)] at hc
    exact (hafter c (List.mem_of_getElem? hc) hP).elim

/-- The block around an offset is the last of those with its span, so the blocks that it lies
inside are itself and some before it. -/
theorem filter_within_enclosing (h : Laminar bs) {b : Block} {index : Nat}
    (hfound : enclosingIdx? bs offset = some (b, index)) :
    ∃ before after, bs = before ++ b :: after ∧ before.length = index ∧
      bs.filter (b.Within ·) = before.filter (b.Within ·) ++ [b] := by
  have hsplit : ∃ before after, bs = before ++ b :: after ∧ before.length = index ∧
      ∀ c ∈ after, ¬ (c.start = b.start ∧ c.stop = b.stop) := by
    rw [enclosingIdx?_eq h, Option.or_eq_some_iff] at hfound
    rcases hfound with hlast | ⟨-, hlast⟩
    · obtain ⟨before, after, hbs, hindex, hb, hafter⟩ :=
        getLast?_filter_zipIdx (P := (·.stop = offset)) hlast
      exact ⟨before, after, hbs, hindex, fun c hc hspan => hafter c hc (hspan.2.trans hb)⟩
    · obtain ⟨before, after, hbs, hindex, hb, hafter⟩ :=
        getLast?_filter_zipIdx (P := (·.Contains offset)) hlast
      refine ⟨before, after, hbs, hindex, fun c hc hspan => hafter c hc ?_⟩
      rwa [Contains, hspan.1, hspan.2]
  obtain ⟨before, after, rfl, hindex, hafter⟩ := hsplit
  refine ⟨before, after, rfl, hindex, ?_⟩
  have hnone : after.filter (b.Within ·) = [] := by
    apply List.filter_eq_nil_iff.mpr
    intro c hc hwithin
    have hbc : b.Within c := of_decide_eq_true hwithin
    have hpos := h.nonempty b (by simp)
    have hlater := (List.pairwise_cons.mp (List.pairwise_append.mp h.nested).2.1).1 c hc
    have hcb : c.Within b := hlater.resolve_left fun hle => by
      have hlow := hbc.1
      omega
    exact hafter c hc ⟨Nat.le_antisymm hbc.1 hcb.1, Nat.le_antisymm hcb.2 hbc.2⟩
  have hself : (b :: after).filter (b.Within ·) = b :: after.filter (b.Within ·) :=
    List.filter_cons_of_pos (decide_eq_true (Within.refl b))
  rw [List.filter_append, hself, hnone]

theorem deepest_ending (h : Laminar bs) (hends : ∃ b ∈ bs, b.stop = offset) :
    ∃ b index, enclosingIdx? bs offset = some (b, index) ∧
      Deepest bs (·.stop = offset) b index := by
  obtain ⟨b, index, hlast⟩ := exists_getLast?_filter_zipIdx hends
  refine ⟨b, index, by rw [enclosingIdx?_eq h, hlast, Option.some_or],
    h.deepest_of_last ?_ hlast⟩
  intro c _ d hd hcstop hdstop
  have hpos := h.nonempty d hd
  omega

/-- At an offset where no block ends, the block around it is the last that contains it. -/
theorem enclosingIdx?_eq_last (h : Laminar bs) (hends : ∀ b ∈ bs, b.stop ≠ offset) :
    enclosingIdx? bs offset = (bs.zipIdx.filter fun c => c.1.Contains offset).getLast? := by
  have hnone : (bs.zipIdx.filter fun c => c.1.stop = offset) = [] := by
    apply List.filter_eq_nil_iff.mpr
    intro c hc
    simpa using hends c.1 (List.fst_mem_of_mem_zipIdx hc)
  rw [enclosingIdx?_eq h, hnone, List.getLast?_nil, Option.none_or]

theorem deepest_containing (h : Laminar bs) (hin : ∃ b ∈ bs, b.Contains offset)
    (hends : ∀ b ∈ bs, b.stop ≠ offset) :
    ∃ b index, enclosingIdx? bs offset = some (b, index) ∧
      Deepest bs (·.Contains offset) b index := by
  obtain ⟨b, index, hlast⟩ := exists_getLast?_filter_zipIdx hin
  refine ⟨b, index, by rw [h.enclosingIdx?_eq_last hends, hlast], h.deepest_of_last ?_ hlast⟩
  intro c hc d _ hcin hdin hle
  have hstop := hends c hc
  have hhigh := hcin.2
  have hlow := hdin.1
  omega

end Laminar

end Block

/-- On a nested tree the block around an offset is the deepest of those that end there, or, where
none does, of those that contain it. -/
theorem enclosing_extracted_deepest (source : String) (identifiers : List String) (root : Node)
    (offset : Nat) (h : root.Nested) (hids : "" ∉ identifiers) :
    let blocks := Block.extract source identifiers root
    ((∀ b ∈ blocks, ¬ b.Contains offset) → Block.enclosingIdx? blocks offset = none) ∧
    ((∃ b ∈ blocks, b.stop = offset) →
      ∃ b index, Block.enclosingIdx? blocks offset = some (b, index) ∧
        Block.Deepest blocks (·.stop = offset) b index) ∧
    ((∃ b ∈ blocks, b.Contains offset) → (∀ b ∈ blocks, b.stop ≠ offset) →
      ∃ b index, Block.enclosingIdx? blocks offset = some (b, index) ∧
        Block.Deepest blocks (·.Contains offset) b index) := by
  intro blocks
  have hlam : Block.Laminar blocks := h.laminar source hids
  exact ⟨Block.enclosingIdx?_eq_none_iff.mpr, hlam.deepest_ending, hlam.deepest_containing⟩

theorem chainedCallTree_enclosing_deepest :
    let blocks := Block.extract "it.b('a',it())" ["it"] chainedCallTree
    chainedCallTree.Nested ∧ "" ∉ ["it"] ∧ (∃ b ∈ blocks, b.stop = 13) ∧
      ∃ b index, Block.enclosingIdx? blocks 13 = some (b, index) ∧
        Block.Deepest blocks (·.stop = 13) b index := by
  have hnested : chainedCallTree.Nested := by decide +kernel
  have hids : "" ∉ ["it"] := by decide
  have hends : ∃ b ∈ Block.extract "it.b('a',it())" ["it"] chainedCallTree, b.stop = 13 := by
    decide +kernel
  exact ⟨hnested, hids, hends, (enclosing_extracted_deepest _ _ _ 13 hnested hids).2.1 hends⟩

end CursorCommand
