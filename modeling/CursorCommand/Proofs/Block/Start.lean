import CursorCommand.Proofs.Block.Lookup
import CursorCommand.Proofs.Text.Position

/-!
# A cursor at the start of a block

A call begins with what it calls and a member with what it is taken of. So all that starts together
with an opening call is one chain of members that ends in an identifier, and no second call can stand
in it. In the list of blocks, then, no later block contains the start of an earlier one, and a cursor
at the start of a block is in that block and in none inside it.
-/
namespace CursorCommand

namespace Node

variable {source : List Char} {identifiers : List String} {root : Node}

/-- The child under a field, if there is one, is the first child and starts where the node does. -/
def BeginsWith (f : NodeField) (n : Node) : Prop :=
  ∀ c, n.child? f = some c → n.children.head? = some c ∧ c.start = n.start

/-- A call begins with what it calls, a member with what it is taken of, and an identifier has no
children. -/
structure CalleeFirst (n : Node) : Prop where
  call : n.kind = .callExpression → n.BeginsWith .function
  member : n.kind = .memberExpression → n.BeginsWith .object
  leaf : n.kind = .identifier → n.children = []

theorem beginsWith_iff {f : NodeField} {n : Node} :
    n.BeginsWith f ↔ ∀ c ∈ n.child? f, (n.children.head?.bind field) = some f ∧
      c.start = n.start := by
  constructor
  · intro h c hc
    have hfirst := h c hc
    refine ⟨?_, hfirst.2⟩
    rw [hfirst.1, Option.bind_some]
    simpa using List.find?_some hc
  · intro h c hc
    have hfirst := h c hc
    refine ⟨?_, hfirst.2⟩
    cases hchildren : n.children with
    | nil =>
      rw [hchildren] at hfirst
      cases hfirst.1
    | cons d ds =>
      rw [hchildren, List.head?_cons, Option.bind_some] at hfirst
      rw [child?, hchildren, List.find?_cons_of_pos (by simp [hfirst.1])] at hc
      exact hc

instance (f : NodeField) (n : Node) : Decidable (n.BeginsWith f) :=
  decidable_of_iff _ beginsWith_iff.symm

instance (n : Node) : Decidable n.CalleeFirst :=
  decidable_of_iff
    ((n.kind = .callExpression → n.BeginsWith .function) ∧
      (n.kind = .memberExpression → n.BeginsWith .object) ∧
      (n.kind = .identifier → n.children.isEmpty))
    ⟨fun h => ⟨h.1, h.2.1, fun hk => List.isEmpty_iff.mp (h.2.2 hk)⟩,
      fun h => ⟨h.call, h.member, fun hk => List.isEmpty_iff.mpr (h.leaf hk)⟩⟩

/-- Below a node that begins with a child that is not empty, whatever starts where the node does
lies in that child. -/
theorem Nested.at?_first {n c m : Node} {i : Nat} {a : Address} (h : n.Nested)
    (hc : n.children.head? = some c) (hstart : c.start = n.start) (hpos : c.start < c.stop)
    (hm : n.at? (i :: a) = some m) (hmstart : m.start = n.start) : c.at? a = some m := by
  obtain ⟨d, hd, hdm⟩ := Option.bind_eq_some_iff.mp hm
  cases hchildren : n.children with
  | nil =>
    rw [hchildren] at hc
    cases hc
  | cons first rest =>
    rw [hchildren] at hc hd
    obtain rfl := Option.some.inj hc
    cases i with
    | zero =>
      obtain rfl := Option.some.inj hd
      exact hdm
    | succ i =>
      have hmem : d ∈ rest := List.mem_of_getElem? hd
      have hordered := (h.laid (at?_nil n)).ordered
      rw [hchildren] at hordered
      have hafter := (List.pairwise_cons.mp hordered).1 d hmem
      have hdn : d.Nested := h.child (by rw [hchildren]; exact List.mem_cons_of_mem _ hmem)
      have hwithin := (hdn.span_within hdm).1
      omega

/-- In a chain of members that leads to an identifier, no call starts where the chain does. -/
theorem LeadsTo.kind_ne_call {n b m : Node} {a : Address} (hlead : n.LeadsTo b) (h : n.Nested)
    (hfirst : ∀ p ∈ n.places, p.node.CalleeFirst) (hb : b.start < b.stop)
    (hm : n.at? a = some m) (hstart : m.start = n.start) : m.kind ≠ .callExpression := by
  induction hlead generalizing a with
  | @identifier b hkind =>
    cases a with
    | nil =>
      obtain rfl := Option.some.inj hm
      simp [hkind]
    | cons i a =>
      have hleaf := (hfirst ⟨[], b⟩ (mem_places.mpr rfl)).leaf hkind
      rw [at?_cons, hleaf] at hm
      cases hm
  | @member n o b hkind ho hrest ih =>
    cases a with
    | nil =>
      obtain rfl := Option.some.inj hm
      simp [hkind]
    | cons i a =>
      have hmem := mem_children_of_child? ho
      obtain ⟨hhead, hostart⟩ := (hfirst ⟨[], n⟩ (mem_places.mpr rfl)).member hkind o ho
      have hpos := hrest.start_lt_stop (h.child hmem) hb
      have hinside := h.at?_first hhead hostart hpos hm hstart
      exact ih (h.child hmem) (forall_places_child hfirst hmem) hb hinside
        (hstart.trans hostart.symm)

/-- No call strictly below an opening call starts where it does. -/
theorem Opens.kind_ne_call {n m : Node} {i : Nat} {a : Address}
    (hopens : n.Opens source identifiers) (h : n.Nested) (hids : "" ∉ identifiers)
    (hfirst : ∀ p ∈ n.places, p.node.CalleeFirst) (hm : n.at? (i :: a) = some m)
    (hstart : m.start = n.start) : m.kind ≠ .callExpression := by
  obtain ⟨f, b, hf, hlead, hid⟩ := hopens.callee
  have hmem := mem_children_of_child? hf
  obtain ⟨hhead, hfstart⟩ := (hfirst ⟨[], n⟩ (mem_places.mpr rfl)).call hopens.kind f hf
  have hb := start_lt_stop_of_text_mem hids hid
  have hpos := hlead.start_lt_stop (h.child hmem) hb
  have hinside := h.at?_first hhead hfstart hpos hm hstart
  exact hlead.kind_ne_call (h.child hmem) (forall_places_child hfirst hmem) hb hinside
    (hstart.trans hfstart.symm)

theorem Nested.not_contains_start (source : String) (h : root.Nested) (hids : "" ∉ identifiers)
    (hfirst : ∀ p ∈ root.places, p.node.CalleeFirst) :
    (Block.extract source identifiers root).Pairwise fun b c => ¬ c.Contains b.start := by
  rw [Block.extract_eq]
  apply List.pairwise_map.mpr
  apply (openings_pairwise_lt source.toList identifiers root).imp_of_mem
  intro p q hp hq hlt hcontains
  obtain ⟨-, hpn, hopens⟩ := mem_openings.mp hp
  obtain ⟨-, hqn, hqopens⟩ := mem_openings.mp hq
  have hlow : q.node.start ≤ p.node.start := hcontains.1
  by_cases hprefix : p.address <+: q.address
  · obtain ⟨t, ht⟩ := hprefix
    cases t with
    | nil =>
      rw [← ht, List.append_nil] at hlt
      exact lt_irrefl _ hlt
    | cons i t =>
      have hbelow : p.node.at? (i :: t) = some q.node := by
        rw [← ht, at?_append, hpn, Option.bind_some] at hqn
        exact hqn
      have hwithin := (h.at? hpn).span_within hbelow
      exact hopens.kind_ne_call (h.at? hpn) hids (forall_places_at? hfirst hpn) hbelow
        (Nat.le_antisymm hlow hwithin.1) hqopens.kind
  · have hapart := h.stop_le_start hpn hqn hlt hprefix
    have hpos := (h.at? hpn).start_lt_stop hids hopens
    omega

end Node

namespace Block

variable {bs : List Block}

/-- Where no later block contains the start of an earlier one, the block around the start of a block
at which none ends is that block. -/
theorem Laminar.enclosingIdx?_start (h : Laminar bs)
    (hstarts : bs.Pairwise fun b c => ¬ c.Contains b.start) {b : Block} {index : Nat}
    (hget : bs[index]? = some b) (hends : ∀ c ∈ bs, c.stop ≠ b.start) :
    enclosingIdx? bs b.start = some (b, index) := by
  have hpos := h.nonempty b (List.mem_of_getElem? hget)
  rw [h.enclosingIdx?_eq_last hends]
  apply getLast?_filter_zipIdx_eq (P := (·.Contains b.start)) hget ⟨Nat.le_refl _, Nat.le_of_lt hpos⟩
  intro i c hlt hc
  obtain ⟨hindex, rfl⟩ := List.getElem?_eq_some_iff.mp hget
  obtain ⟨hi, rfl⟩ := List.getElem?_eq_some_iff.mp hc
  exact List.pairwise_iff_getElem.mp hstarts index i hindex hi hlt

end Block

/-- The position of a boundary that does not split a line ending leads back to it. -/
theorem Position.offset?_ofOffset {text : String} (hlen : text.utf8ByteSize < UInt32.size) {n : Nat}
    (hboundary : Measure.utf8.Boundary text.toList n)
    (hending : ¬ Line.InsideEnding text.toList n) : (ofOffset text n).offset? text = some n := by
  obtain ⟨hline, hcharacter⟩ := toNat_ofOffset hlen n
  obtain ⟨back, hback, hrounds⟩ := (Line.broken_split text.toList).offset?_locate n
  rw [Line.join_split, Line.rounds_iff, Measure.utf8.boundary_iff.mp hboundary] at hrounds
  rw [offset?, hline, hcharacter, hback, hrounds.2 hending]

/-- On a well-formed tree whose calls begin with what they call, the start of a block at which no
block ends has a position, the position leads back to it, and the block around it is that block. -/
theorem enclosing_own_start (source : String) (identifiers : List String) (root : Node)
    (h : root.WellFormed source.toList)
    (hendings : ∀ p ∈ root.places, ¬ Line.InsideEnding source.toList p.node.start ∧
      ¬ Line.InsideEnding source.toList p.node.stop)
    (hfirst : ∀ p ∈ root.places, p.node.CalleeFirst) (hids : "" ∉ identifiers)
    (hlen : source.utf8ByteSize < UInt32.size) :
    let blocks := Block.extract source identifiers root
    ∀ index b, blocks[index]? = some b → (∀ c ∈ blocks, c.stop ≠ b.start) →
      (Position.ofOffset source b.start).offset? source = some b.start ∧
        Block.enclosingIdx? blocks b.start = some (b, index) := by
  intro blocks index b hget hends
  constructor
  · have hmem := List.mem_of_getElem? hget
    rw [show blocks = _ from Block.extract_eq source identifiers root] at hmem
    obtain ⟨p, hp, rfl⟩ := List.mem_map.mp hmem
    obtain ⟨-, hpn, -⟩ := Node.mem_openings.mp hp
    have hplace := Node.mem_places.mpr hpn
    exact Position.offset?_ofOffset hlen (h.boundary p hplace).1 (hendings p hplace).1
  · have hlam : Block.Laminar blocks := h.nested.laminar source hids
    exact hlam.enclosingIdx?_start (h.nested.not_contains_start source hids hfirst) hget hends

theorem chainedCallTree_enclosing_own_start :
    let blocks := Block.extract "it.b('a',it())" ["it"] chainedCallTree
    let inner : Block := ⟨none, [some "a"], 9, 13⟩
    chainedCallTree.WellFormed "it.b('a',it())".toList ∧
      (∀ p ∈ chainedCallTree.places, p.node.CalleeFirst) ∧ blocks[1]? = some inner ∧
      (Position.ofOffset "it.b('a',it())" 9).offset? "it.b('a',it())" = some 9 ∧
      Block.enclosingIdx? blocks 9 = some (inner, 1) := by
  intro blocks inner
  have hwell : chainedCallTree.WellFormed "it.b('a',it())".toList := by decide +kernel
  have hfirst : ∀ p ∈ chainedCallTree.places, p.node.CalleeFirst := by decide +kernel
  have hget : blocks[1]? = some inner := by decide +kernel
  have hends : ∀ c ∈ blocks, c.stop ≠ inner.start := by decide +kernel
  have hending : ∀ n, n ≤ 14 → ¬ Line.InsideEnding "it.b('a',it())".toList n := by
    intro n hn
    have hunbroken : Line.Unbroken "it.b('a',it())".toList := by
      constructor <;> decide +kernel
    have hnot : ¬ Line.InsideEnding ("it.b('a',it())".toList ++ []) n :=
      Line.not_insideEnding hunbroken (Nat.le_trans hn (by decide +kernel))
    rwa [List.append_nil] at hnot
  have hinside : ∀ p ∈ chainedCallTree.places, p.node.start ≤ 14 ∧ p.node.stop ≤ 14 := by
    decide +kernel
  have hstart := enclosing_own_start _ ["it"] chainedCallTree hwell
    (fun p hp => ⟨hending _ (hinside p hp).1, hending _ (hinside p hp).2⟩) hfirst
    (by decide) (by decide +kernel) 1 inner hget hends
  exact ⟨hwell, hfirst, hget, hstart⟩

end CursorCommand
