import CursorCommand.Proofs.Tree.OpeningCall

/-!
# Spans of nested nodes

In a nested tree the children of a node stand in source order, do not overlap and lie inside its
span. Then the addresses of two nodes tell how their spans lie: one inside the other when one node
is above the other, and apart, in the order of the addresses, when neither is.
-/
namespace CursorCommand

namespace Node

variable {source : List Char} {identifiers : List String}

/-- A node has a span, and its children stand in order inside it without overlap. -/
structure Laid (n : Node) : Prop where
  span : n.start ≤ n.stop
  inside : ∀ c ∈ n.children, n.start ≤ c.start ∧ c.stop ≤ n.stop
  ordered : n.children.Pairwise fun c d => c.stop ≤ d.start

instance (n : Node) : Decidable n.Laid :=
  decidable_of_iff
    (n.start ≤ n.stop ∧ (∀ c ∈ n.children, n.start ≤ c.start ∧ c.stop ≤ n.stop) ∧
      n.children.Pairwise fun c d => c.stop ≤ d.start)
    ⟨fun h => ⟨h.1, h.2.1, h.2.2⟩, fun h => ⟨h.span, h.inside, h.ordered⟩⟩

def Nested (root : Node) : Prop := ∀ p ∈ root.places, p.node.Laid

instance (root : Node) : Decidable root.Nested := by
  unfold Nested
  infer_instance

/-- A nested tree whose nodes start and end between characters of the source. -/
structure WellFormed (source : List Char) (root : Node) : Prop where
  nested : root.Nested
  boundary : ∀ p ∈ root.places,
    Measure.utf8.Boundary source p.node.start ∧ Measure.utf8.Boundary source p.node.stop

instance (source : List Char) (root : Node) : Decidable (root.WellFormed source) :=
  decidable_of_iff
    (root.Nested ∧ ∀ p ∈ root.places,
      Measure.utf8.Boundary source p.node.start ∧ Measure.utf8.Boundary source p.node.stop)
    ⟨fun h => ⟨h.1, h.2⟩, fun h => ⟨h.nested, h.boundary⟩⟩

theorem Nested.laid {root n : Node} {a : Address} (h : root.Nested) (hn : root.at? a = some n) :
    n.Laid := h ⟨a, n⟩ (mem_places.mpr hn)

theorem Nested.at? {root n : Node} {a : Address} (h : root.Nested) (hn : root.at? a = some n) :
    n.Nested := forall_places_at? h hn

theorem Nested.child {root c : Node} (h : root.Nested) (hc : c ∈ root.children) : c.Nested :=
  forall_places_child h hc

theorem Nested.span_within {root n : Node} {a : Address} (h : root.Nested)
    (hn : root.at? a = some n) : root.start ≤ n.start ∧ n.stop ≤ root.stop := by
  induction a generalizing root with
  | nil =>
    obtain rfl := Option.some.inj hn
    exact ⟨Nat.le_refl _, Nat.le_refl _⟩
  | cons i a ih =>
    obtain ⟨c, hc, hn⟩ := Option.bind_eq_some_iff.mp hn
    have hmem := List.mem_of_getElem? hc
    have hin := (h.laid (at?_nil root)).inside c hmem
    have hrest := ih (h.child hmem) hn
    exact ⟨hin.1.trans hrest.1, hrest.2.trans hin.2⟩

/-- The span of a node lies inside the span of every node above it. -/
theorem Nested.within_of_prefix {root n m : Node} {a b : Address} (h : root.Nested)
    (hn : root.at? a = some n) (hm : root.at? b = some m) (hab : a <+: b) :
    n.start ≤ m.start ∧ m.stop ≤ n.stop := by
  obtain ⟨t, rfl⟩ := hab
  rw [at?_append, hn, Option.bind_some] at hm
  exact (h.at? hn).span_within hm

/-- Of two nodes of which neither is above the other, the one with the smaller address ends before
the other starts. -/
theorem Nested.stop_le_start {root n m : Node} {a b : Address} (h : root.Nested)
    (hn : root.at? a = some n) (hm : root.at? b = some m) (hlt : a < b) (hab : ¬ a <+: b) :
    n.stop ≤ m.start := by
  induction a generalizing root b with
  | nil => exact (hab List.nil_prefix).elim
  | cons i a ih =>
    cases b with
    | nil => exact (List.not_lt_nil _ hlt).elim
    | cons j b =>
      obtain ⟨c, hc, hn⟩ := Option.bind_eq_some_iff.mp hn
      obtain ⟨d, hd, hm⟩ := Option.bind_eq_some_iff.mp hm
      have hcn := h.child (List.mem_of_getElem? hc)
      have hdn := h.child (List.mem_of_getElem? hd)
      rcases List.cons_lt_cons_iff.mp hlt with hij | ⟨rfl, htail⟩
      · -- The addresses part here: the subtrees of two different children.
        obtain ⟨hi, rfl⟩ := List.getElem?_eq_some_iff.mp hc
        obtain ⟨hj, rfl⟩ := List.getElem?_eq_some_iff.mp hd
        have hcd := List.pairwise_iff_getElem.mp (h.laid (at?_nil root)).ordered i j hi hj hij
        exact (hcn.span_within hn).2.trans (hcd.trans (hdn.span_within hm).1)
      · obtain rfl := Option.some.inj (hc.symm.trans hd)
        apply ih hcn hn hm htail
        rwa [List.cons_prefix_cons, not_and, imp_iff_right rfl] at hab

theorem text_eq_nil {n : Node} (h : n.stop ≤ n.start) : n.text source = [] := by
  rw [text, Measure.slice, Nat.sub_eq_zero_of_le h, Measure.floor_zero]

theorem start_lt_stop_of_text_mem {n : Node} (hids : "" ∉ identifiers)
    (hid : String.ofList (n.text source) ∈ identifiers) : n.start < n.stop := by
  by_contra hle
  rw [text_eq_nil (Nat.le_of_not_lt hle)] at hid
  exact hids hid

theorem LeadsTo.start_lt_stop {n b : Node} (hlead : n.LeadsTo b) (h : n.Nested)
    (hb : b.start < b.stop) : n.start < n.stop := by
  obtain ⟨a, ha⟩ := hlead.exists_address
  have hwithin := h.span_within ha
  omega

/-- A call that opens a block is not empty, since the identifier that it leads to is not. -/
theorem Nested.start_lt_stop {n : Node} (h : n.Nested) (hids : "" ∉ identifiers)
    (hopens : n.Opens source identifiers) : n.start < n.stop := by
  obtain ⟨f, b, hf, hlead, hid⟩ := hopens.callee
  have hmem := mem_children_of_child? hf
  have hfn := (h.laid (at?_nil n)).inside f hmem
  have hpos := hlead.start_lt_stop (h.child hmem) (start_lt_stop_of_text_mem hids hid)
  omega

end Node

end CursorCommand
