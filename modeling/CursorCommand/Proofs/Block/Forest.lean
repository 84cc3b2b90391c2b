import CursorCommand.Proofs.Block.Nesting

/-!
# The forest of the blocks

The blocks come in one flat list, and their depths alone give back which of them encloses which: the
parent of a block is the last block in front of it that is one level up. No span is used, so this
holds of every tree. It comes from the order of addresses, in which all that stands between a place
and one below it is below that place as well.
-/
namespace CursorCommand

namespace Place

variable {source : List Char} {p q r : Place} {os before after : List Place}

/-- The last of the places above `q` has the others above it. -/
theorem exists_last_above (h : (before ++ q :: after).Pairwise fun p q => p.address < q.address)
    (hne : before.filter (·.Above q) ≠ []) :
    ∃ front p between, before = front ++ p :: between ∧ p.Above q ∧
      (before ++ q :: after).filter (·.Above q) =
        (before ++ q :: after).filter (·.Above p) ++ [p] := by
  obtain ⟨above, p, hlast⟩ := (List.eq_nil_or_concat' _).resolve_left hne
  obtain ⟨early, rest, rfl, hearly, hrest⟩ := List.filter_eq_append_iff.mp hlast
  obtain ⟨late, between, rfl, hlate, hp, hbetween⟩ := List.filter_eq_cons_iff.mp hrest
  have hpq : p.Above q := of_decide_eq_true hp
  have hsplit : early ++ (late ++ p :: between) ++ q :: after =
      (early ++ late) ++ p :: (between ++ q :: after) := by simp
  have hfront : ∀ r ∈ early ++ late, r.Above q ↔ r.Above p := by
    intro r hr
    rw [hsplit] at h
    have hrp := (List.pairwise_append.mp h).2.2 r hr p List.mem_cons_self
    exact ⟨fun hrq => hrq.between hrp hpq.lt, fun habove => habove.trans hpq⟩
  refine ⟨early ++ late, p, between, by simp, hpq, ?_⟩
  have habove : (early ++ late).filter (·.Above q) = (early ++ late).filter (·.Above p) :=
    List.filter_congr fun r hr => decide_eq_decide.mpr (hfront r hr)
  have hnone : late.filter (·.Above q) = [] := List.filter_eq_nil_iff.mpr hlate
  rw [filter_above h, hlast, hsplit, filter_above (hsplit ▸ h), ← habove, List.filter_append,
    hearly, hnone, List.append_nil]

/-- A place is further down than the places above it. -/
theorem length_filter_above_lt
    (h : (before ++ p :: after).Pairwise fun p q => p.address < q.address) (hpr : p.Above r) :
    ((before ++ p :: after).filter (·.Above p)).length <
      ((before ++ p :: after).filter (·.Above r)).length := by
  rw [filter_above h]
  exact length_filter_lt (fun s _ hsp => hsp.trans hpr) hpr

/-- Among the given places `p` is the nearest above `q`. -/
structure Nearest (os : List Place) (p q : Place) : Prop where
  above : p.Above q
  nearest : ∀ r ∈ os, r.Above q → r = p ∨ r.Above p

theorem Nearest.of_filter_above (h : p.Above q)
    (hfilter : os.filter (·.Above q) = os.filter (·.Above p) ++ [p]) : Nearest os p q := by
  refine ⟨h, fun r hr hrq => ?_⟩
  have hmem : r ∈ os.filter (·.Above q) := List.mem_filter.mpr ⟨hr, decide_eq_true hrq⟩
  rw [hfilter, List.mem_append, List.mem_singleton] at hmem
  rcases hmem with habove | rfl
  · exact .inr (of_decide_eq_true (List.mem_filter.mp habove).2)
  · exact .inl rfl

theorem depth_block (os : List Place) (p : Place) :
    (p.block source os).depth = (os.filter (·.Above p)).length := List.length_map _

theorem parents_block (hfilter : os.filter (·.Above q) = os.filter (·.Above p) ++ [p]) :
    (q.block source os).parents =
      (p.block source os).parents ++ [(p.block source os).name] := by
  rw [block, hfilter, List.map_append]
  rfl

/-- A place with others above it has a nearest one, and whatever stands between the two is below
that one. -/
theorem exists_nearest {j : Nat} (h : os.Pairwise fun p q => p.address < q.address)
    (hq : os[j]? = some q) (hne : os.filter (·.Above q) ≠ []) :
    ∃ i p, i < j ∧ os[i]? = some p ∧ p.Nearest os q ∧
      os.filter (·.Above q) = os.filter (·.Above p) ++ [p] ∧
      ∀ k r, i < k → k < j → os[k]? = some r → p.Above r := by
  obtain ⟨before, after, rfl, rfl⟩ : ∃ before after, os = before ++ q :: after ∧
      before.length = j := by
    obtain ⟨hj, rfl⟩ := List.getElem?_eq_some_iff.mp hq
    refine ⟨os.take j, os.drop (j + 1), ?_, List.length_take_of_le (Nat.le_of_lt hj)⟩
    rw [List.getElem_cons_drop, List.take_append_drop]
  obtain ⟨front, p, between, rfl, habove, hfilter⟩ := exists_last_above h (filter_above h ▸ hne)
  have hp : (front ++ p :: between ++ q :: after)[front.length]? = some p := by simp
  refine ⟨front.length, p, by simp, hp, .of_filter_above habove hfilter, hfilter, ?_⟩
  intro k r hik hkj hr
  have hordered := List.pairwise_iff_getElem.mp h
  obtain ⟨hi, hpi⟩ := List.getElem?_eq_some_iff.mp hp
  obtain ⟨hk, hrk⟩ := List.getElem?_eq_some_iff.mp hr
  obtain ⟨hj, hqj⟩ := List.getElem?_eq_some_iff.mp hq
  have hpr := hordered _ _ hi hk hik
  have hrq := hordered _ _ hk hj hkj
  rw [hpi, hrk] at hpr
  rw [hrk, hqj] at hrq
  exact habove.between hpr hrq

end Place

namespace Block

/-- The block `b` at `i` is the last in front of the block `c` at `j` that is one level up: all that
stand between the two are at least as deep as `c`. -/
structure ParentByDepth (bs : List Block) (i j : Nat) (b c : Block) : Prop where
  lt : i < j
  get : bs[i]? = some b
  level : b.depth + 1 = c.depth
  between : ∀ k d, i < k → k < j → bs[k]? = some d → c.depth ≤ d.depth

variable {bs : List Block}

/-- Where every block that is not at the top has a parent in front, the first is at the top. -/
theorem depth_head_eq_zero (h : ∀ j c, bs[j]? = some c → 0 < c.depth →
    ∃ i b, ParentByDepth bs i j b c) : ∀ b ∈ bs.head?, b.depth = 0 := by
  intro b hb
  rw [List.head?_eq_getElem?] at hb
  by_contra hdepth
  obtain ⟨i, a, hparent⟩ := h 0 b hb (Nat.pos_of_ne_zero hdepth)
  exact Nat.not_lt_zero i hparent.lt

/-- Then a block is at most one level below the one in front of it. -/
theorem isChain_depth_le (h : ∀ j c, bs[j]? = some c → 0 < c.depth →
    ∃ i b, ParentByDepth bs i j b c) : bs.IsChain fun b c => c.depth ≤ b.depth + 1 := by
  rw [List.isChain_iff_getElem]
  intro k hk
  rcases Nat.eq_zero_or_pos bs[k + 1].depth with hzero | hpos
  · omega
  · obtain ⟨i, b, hparent⟩ := h (k + 1) _ (List.getElem?_eq_getElem hk) hpos
    rcases Nat.lt_or_eq_of_le (Nat.le_of_lt_succ hparent.lt) with hik | rfl
    · have hbetween := hparent.between k _ hik (Nat.lt_succ_self k)
        (List.getElem?_eq_getElem (Nat.lt_of_succ_lt hk))
      omega
    · obtain rfl := Option.some.inj
        (hparent.get.symm.trans (List.getElem?_eq_getElem (Nat.lt_of_succ_lt hk)))
      exact Nat.le_of_eq hparent.level.symm

end Block

/-- The parent that depths tell is the block of the nearest place above, and its name ends the
parents. -/
theorem Place.exists_parentByDepth {source : List Char} {os : List Place} {j : Nat} {c : Block}
    (h : os.Pairwise fun p q => p.address < q.address)
    (hc : (os.map (Place.block source os))[j]? = some c) (hdepth : 0 < c.depth) :
    ∃ i b, Block.ParentByDepth (os.map (Place.block source os)) i j b c ∧
      (∃ p q, os[i]? = some p ∧ os[j]? = some q ∧ Nearest os p q) ∧
      c.parents = b.parents ++ [b.name] := by
  rw [List.getElem?_map, Option.map_eq_some_iff] at hc
  obtain ⟨q, hq, rfl⟩ := hc
  rw [depth_block] at hdepth
  obtain ⟨i, p, hij, hp, hnearest, hfilter, hbetween⟩ :=
    exists_nearest h hq (List.ne_nil_of_length_pos hdepth)
  refine ⟨i, p.block source os, ⟨hij, by simp [hp], ?_, ?_⟩, ⟨p, q, hp, hq, hnearest⟩,
    parents_block hfilter⟩
  · rw [depth_block, depth_block, hfilter, List.length_append, List.length_singleton]
  · intro k d hik hkj hd
    rw [List.getElem?_map, Option.map_eq_some_iff] at hd
    obtain ⟨r, hr, rfl⟩ := hd
    have hpr := hbetween k r hik hkj hr
    obtain ⟨front, back, rfl⟩ := List.append_of_mem (List.mem_of_getElem? hp)
    rw [depth_block, depth_block, hfilter, List.length_append, List.length_singleton]
    exact length_filter_above_lt h hpr

/-- The depths of the blocks are those of a forest in pre-order, and the parent of a block in it, the
last block in front that is one level up, is the block of the nearest opening call around its own. -/
theorem extract_forest (source : String) (identifiers : List String) (root : Node) :
    let blocks := Block.extract source identifiers root
    let openings := root.openings source.toList identifiers
    blocks = openings.map (Place.block source.toList openings) ∧
    (∀ p, p ∈ openings ↔ p.address ≠ [] ∧ root.at? p.address = some p.node ∧
      p.node.Opens source.toList identifiers) ∧
    (∀ b ∈ blocks.head?, b.depth = 0) ∧
    blocks.IsChain (fun b c => c.depth ≤ b.depth + 1) ∧
    ∀ (j : Nat) (c : Block), blocks[j]? = some c → 0 < c.depth →
      ∃ (i : Nat) (b : Block), Block.ParentByDepth blocks i j b c ∧
        (∃ p q : Place, openings[i]? = some p ∧ openings[j]? = some q ∧
          p.Nearest openings q) ∧
        c.parents = b.parents ++ [b.name] := by
  intro blocks openings
  have hblocks : blocks = openings.map (Place.block source.toList openings) :=
    Block.extract_eq source identifiers root
  have hsorted := Node.openings_pairwise_lt source.toList identifiers root
  have hparent : ∀ j c, blocks[j]? = some c → 0 < c.depth →
      ∃ i b, Block.ParentByDepth blocks i j b c := by
    rw [hblocks]
    intro j c hc hdepth
    obtain ⟨i, b, hb, -⟩ := Place.exists_parentByDepth hsorted hc hdepth
    exact ⟨i, b, hb⟩
  refine ⟨hblocks, fun p => Node.mem_openings, Block.depth_head_eq_zero hparent,
    Block.isChain_depth_le hparent, ?_⟩
  rw [hblocks]
  intro j c
  exact Place.exists_parentByDepth hsorted

theorem chainedCallTree_forest :
    let blocks := Block.extract "it.b('a',it())" ["it"] chainedCallTree
    let inner : Block := ⟨none, [some "a"], 9, 13⟩
    blocks[1]? = some inner ∧ 0 < inner.depth ∧
      ∃ (i : Nat) (b : Block), Block.ParentByDepth blocks i 1 b inner ∧
        inner.parents = b.parents ++ [b.name] := by
  have hinner : (Block.extract "it.b('a',it())" ["it"] chainedCallTree)[1]? =
      some ⟨none, [some "a"], 9, 13⟩ := by decide +kernel
  obtain ⟨i, b, hparent, -, hnames⟩ :=
    (extract_forest "it.b('a',it())" ["it"] chainedCallTree).2.2.2.2 1 _ hinner Nat.one_pos
  exact ⟨hinner, Nat.one_pos, i, b, hparent, hnames⟩

end CursorCommand
