import CursorCommand.Proofs.Block.Lookup

/-!
# The block around an offset in any list

Spans that neither lie inside each other are not compared by the search, so on an arbitrary list it
need not end at the shortest span. It does end at one with no narrower span inside it: what the
search holds is, at every moment, the last and least of its span among the candidates passed, and a
candidate that it passes over is never inside what it holds later.
-/
namespace CursorCommand

namespace Block

def SameSpan (a b : Block) : Prop := a.start = b.start ∧ a.stop = b.stop

instance (a b : Block) : Decidable (a.SameSpan b) := by
  unfold SameSpan
  infer_instance

theorem Within.antisymm {a b : Block} (hab : a.Within b) (hba : b.Within a) : a.SameSpan b :=
  ⟨Nat.le_antisymm hba.1 hab.1, Nat.le_antisymm hab.2 hba.2⟩

/-- Every other candidate inside the best has the span of the best and an earlier index. -/
structure Least (cs : List (Block × Nat)) (best : Block × Nat) : Prop where
  mem : best ∈ cs
  last : ∀ c ∈ cs, c.1.Within best.1 → c ≠ best → c.1.SameSpan best.1 ∧ c.2 < best.2

theorem Least.singleton (c : Block × Nat) : Least [c] c := by
  refine ⟨List.mem_singleton_self c, ?_⟩
  intro d hd _ hne
  exact (hne (List.mem_singleton.mp hd)).elim

/-- One more candidate either becomes the best or is not inside it. -/
theorem Least.narrower {cs : List (Block × Nat)} {best c : Block × Nat} (h : Least cs best)
    (hindex : ∀ d ∈ cs, d.2 < c.2) :
    ∃ next, narrower (some best) c = some next ∧ Least (cs ++ [c]) next := by
  by_cases hc : c.1.Within best.1
  · refine ⟨c, if_pos hc, List.mem_concat_self, ?_⟩
    intro d hd hdc hne
    have hold : d ∈ cs := (List.mem_append.mp hd).resolve_right (by simpa using hne)
    have hspan : d.1.SameSpan best.1 := by
      by_cases hbest : d = best
      · exact ⟨congrArg (·.1.start) hbest, congrArg (·.1.stop) hbest⟩
      · exact (h.last d hold (hdc.trans hc) hbest).1
    -- The candidate lies between an old one and the best, which have the same span.
    have hcd : c.1.Within d.1 := ⟨hspan.1 ▸ hc.1, hspan.2 ▸ hc.2⟩
    exact ⟨hdc.antisymm hcd, hindex d hold⟩
  · refine ⟨best, if_neg hc, List.mem_append_left [c] h.mem, ?_⟩
    intro d hd hdbest hne
    rcases List.mem_append.mp hd with hold | hnew
    · exact h.last d hold hdbest hne
    · exact (hc (List.mem_singleton.mp hnew ▸ hdbest)).elim

/-- The best of candidates that come in the order of their indices. -/
theorem exists_least_foldl {cs : List (Block × Nat)} (hne : cs ≠ [])
    (hindices : cs.Pairwise fun c d => c.2 < d.2) :
    ∃ best, cs.foldl Block.narrower none = some best ∧ Least cs best := by
  induction cs using List.reverseRecOn with
  | nil => exact (hne rfl).elim
  | append_singleton cs c ih =>
    obtain ⟨hcs, -, hc⟩ := List.pairwise_append.mp hindices
    rw [List.foldl_append, List.foldl_cons, List.foldl_nil]
    by_cases hempty : cs = []
    · subst hempty
      exact ⟨c, rfl, .singleton c⟩
    · obtain ⟨best, hbest, hleast⟩ := ih hempty hcs
      rw [hbest]
      exact hleast.narrower fun d hd => hc d hd c List.mem_cons_self

theorem zipIdx_pairwise_lt (bs : List Block) : bs.zipIdx.Pairwise fun c d => c.2 < d.2 := by
  have hindices : (bs.zipIdx.map Prod.snd).Pairwise (· < ·) := by
    rw [List.zipIdx_map_snd]
    exact List.pairwise_lt_range'
  exact List.pairwise_map.mp hindices

/-- The block at an index contains the offset, and every other block that contains it and lies
inside this one has the same span and stands in front. -/
structure Innermost (bs : List Block) (offset : Nat) (b : Block) (index : Nat) : Prop where
  get : bs[index]? = some b
  contains : b.Contains offset
  last : ∀ i c, bs[i]? = some c → c.Contains offset → c.Within b → i ≠ index →
    c.SameSpan b ∧ i < index

variable {bs cs : List Block} {offset : Nat}

theorem Innermost.mem {b : Block} {index : Nat} (h : Innermost bs offset b index) : b ∈ bs :=
  List.mem_of_getElem? h.get

theorem Innermost.of_least {best : Block × Nat}
    (h : Least (bs.zipIdx.filter fun c => c.1.Contains offset) best) :
    Innermost bs offset best.1 best.2 := by
  obtain ⟨hmem, hcontains⟩ := List.mem_filter.mp h.mem
  refine ⟨List.mk_mem_zipIdx_iff_getElem?.mp hmem, of_decide_eq_true hcontains, ?_⟩
  intro i c hc hin hwithin hne
  have hcandidate : (c, i) ∈ bs.zipIdx.filter fun c => c.1.Contains offset :=
    List.mem_filter.mpr ⟨List.mk_mem_zipIdx_iff_getElem?.mpr hc, decide_eq_true hin⟩
  exact h.last (c, i) hcandidate hwithin fun heq => hne (congrArg Prod.snd heq)

theorem exists_innermost (h : ∃ b ∈ bs, b.Contains offset) :
    ∃ b index, enclosingIdx? bs offset = some (b, index) ∧ Innermost bs offset b index := by
  have hne : (bs.zipIdx.filter fun c => c.1.Contains offset) ≠ [] := by
    obtain ⟨b, index, hlast⟩ := exists_getLast?_filter_zipIdx h
    exact List.ne_nil_of_mem (List.mem_of_getLast? hlast)
  obtain ⟨best, hbest, hleast⟩ := exists_least_foldl hne ((zipIdx_pairwise_lt bs).filter _)
  exact ⟨best.1, best.2, hbest, .of_least hleast⟩

/-- Of the blocks around an offset each lies inside every other or around it. -/
def NestedAt (bs : List Block) (offset : Nat) : Prop :=
  ∀ a ∈ bs, ∀ b ∈ bs, a.Contains offset → b.Contains offset → a.Within b ∨ b.Within a

instance (bs : List Block) (offset : Nat) : Decidable (NestedAt bs offset) := by
  unfold NestedAt
  infer_instance

theorem Innermost.within {a b : Block} {index : Nat} (h : Innermost bs offset b index)
    (hnested : NestedAt bs offset) (ha : a ∈ bs) (hin : a.Contains offset) : b.Within a := by
  rcases hnested a ha b h.mem hin h.contains with hab | hba
  · obtain ⟨i, hi⟩ := List.getElem?_of_mem ha
    by_cases hindex : i = index
    · subst hindex
      obtain rfl := Option.some.inj (hi.symm.trans h.get)
      exact .refl a
    · have hspan := (h.last i a hi hin hab hindex).1
      exact ⟨Nat.le_of_eq hspan.1, Nat.le_of_eq hspan.2.symm⟩
  · exact hba

/-- Innermost blocks of lists with the same members have the same span when the blocks are nested. -/
theorem Innermost.sameSpan {a b : Block} {i j : Nat} (ha : Innermost bs offset a i)
    (hb : Innermost cs offset b j) (hnested : NestedAt bs offset)
    (hmem : ∀ c, c ∈ bs ↔ c ∈ cs) : b.SameSpan a := by
  have hother : NestedAt cs offset := fun c hc d hd =>
    hnested c ((hmem c).mpr hc) d ((hmem d).mpr hd)
  have hab := ha.within hnested ((hmem b).mpr hb.mem) hb.contains
  have hba := hb.within hother ((hmem a).mp ha.mem) ha.contains
  exact hba.antisymm hab

/-- In any list a block is found when one contains the offset, and no other block around the offset
lies inside it unless it has the same span and stands in front. Where the blocks around the offset
are nested, their order in the list has no effect on the span that is found. -/
theorem enclosing_innermost (bs : List Block) (offset : Nat) :
    (enclosingIdx? bs offset = none ↔ ∀ b ∈ bs, ¬ b.Contains offset) ∧
    ((∃ b ∈ bs, b.Contains offset) →
      ∃ b index, enclosingIdx? bs offset = some (b, index) ∧ Innermost bs offset b index) ∧
    (NestedAt bs offset → ∀ b index, enclosingIdx? bs offset = some (b, index) →
      ∀ cs, bs.Perm cs → ∃ c i, enclosingIdx? cs offset = some (c, i) ∧ c.SameSpan b) := by
  refine ⟨enclosingIdx?_eq_none_iff, exists_innermost, ?_⟩
  intro hnested b index hfound cs hperm
  have hsome : ∃ a ∈ bs, a.Contains offset := by
    by_contra hnone
    push Not at hnone
    rw [enclosingIdx?_eq_none_iff.mpr hnone] at hfound
    cases hfound
  obtain ⟨a, i, ha, hinner⟩ := exists_innermost hsome
  obtain ⟨rfl, rfl⟩ := Prod.mk.inj (Option.some.inj (ha.symm.trans hfound))
  obtain ⟨c, j, hc, hother⟩ :=
    exists_innermost ⟨a, hperm.mem_iff.mp hinner.mem, hinner.contains⟩
  exact ⟨c, j, hc, hinner.sameSpan hother hnested fun _ => hperm.mem_iff⟩

/-- Two spans that overlap and one, twice, that lies inside both. -/
theorem enclosing_innermost_overlapping :
    let left : Block := ⟨some "left", [], 0, 8⟩
    let right : Block := ⟨some "right", [], 4, 12⟩
    let first : Block := ⟨some "first", [], 5, 7⟩
    let second : Block := ⟨some "second", [some "left"], 5, 7⟩
    let bs := [left, first, right, second]
    (∃ b ∈ bs, b.Contains 6) ∧ Innermost bs 6 second 3 ∧
      NestedAt [left, first, second] 6 ∧ [left, first, second].Perm [second, left, first] ∧
      ∃ c i, enclosingIdx? [second, left, first] 6 = some (c, i) ∧ c.SameSpan second := by
  intro left right first second bs
  have hin : ∃ b ∈ bs, b.Contains 6 := by decide
  have hnested : NestedAt [left, first, second] 6 := by decide
  have hperm : [left, first, second].Perm [second, left, first] := by decide
  obtain ⟨b, index, hfound, hinner⟩ := (enclosing_innermost bs 6).2.1 hin
  have hsecond : enclosingIdx? bs 6 = some (second, 3) := by decide
  obtain ⟨rfl, rfl⟩ := Prod.mk.inj (Option.some.inj (hfound.symm.trans hsecond))
  exact ⟨hin, hinner, hnested, hperm,
    (enclosing_innermost [left, first, second] 6).2.2 hnested second 2 (by decide) _ hperm⟩

end Block

end CursorCommand
