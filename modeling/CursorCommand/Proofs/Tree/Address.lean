import CursorCommand.Tree.Node
import Mathlib.Data.List.Lex
import Mathlib.Data.List.Infix

/-!
# Places in a tree

A node is addressed by the indices of the children that lead to it. One node stands above another
when its address is a proper beginning of the other's, and pre-order is the lexicographic order of
addresses. `Node.places` lists a tree's nodes in this order, each exactly once.
-/
namespace CursorCommand

abbrev Address := List Nat

/-- What stands in the order of addresses between an address and one that continues it continues it
too. -/
theorem Address.isPrefix_of_between {a b c : Address} (h : a <+: c) (hab : a < b) (hbc : b < c) :
    a <+: b := by
  induction a generalizing b c with
  | nil => exact List.nil_prefix
  | cons i a ih =>
    obtain ⟨c, rfl, hac⟩ := List.cons_prefix_iff.mp h
    cases b with
    | nil => exact (List.not_lt_nil _ hab).elim
    | cons j b =>
      rcases List.cons_lt_cons_iff.mp hab with hij | ⟨rfl, habTail⟩
      · rcases List.cons_lt_cons_iff.mp hbc with hji | ⟨hji, -⟩ <;> omega
      · have hbcTail := ((List.cons_lt_cons_iff.mp hbc).resolve_left (lt_irrefl i)).2
        exact List.cons_prefix_cons.mpr ⟨rfl, ih hac habTail hbcTail⟩

structure Place where
  address : Address
  node : Node

namespace Place

/-- The place as seen from the parent of a tree, which is its child with the given index. -/
def under (i : Nat) (p : Place) : Place := ⟨i :: p.address, p.node⟩

@[simp] theorem under_address (i : Nat) (p : Place) : (p.under i).address = i :: p.address := rfl

@[simp] theorem under_node (i : Nat) (p : Place) : (p.under i).node = p.node := rfl

/-- The node at `p` is a proper ancestor of the node at `q`. -/
def Above (p q : Place) : Prop := p.address <+: q.address ∧ p.address ≠ q.address

instance (p q : Place) : Decidable (p.Above q) := by
  unfold Above
  infer_instance

@[simp] theorem under_above_under {i : Nat} {p q : Place} :
    (p.under i).Above (q.under i) ↔ p.Above q := by
  simp [Above, List.cons_prefix_cons]

theorem not_above_of_head_ne {i j : Nat} {p q : Place} {a : Address} (hij : i ≠ j)
    (hq : q.address = j :: a) : ¬ (p.under i).Above q := by
  rintro ⟨h, -⟩
  rw [hq, under_address, List.cons_prefix_cons] at h
  exact hij h.1

theorem Above.lt {p q : Place} (h : p.Above q) : p.address < q.address := by
  obtain ⟨⟨t, ht⟩, hne⟩ := h
  cases t with
  | nil => exact (hne (by simpa using ht)).elim
  | cons i t =>
    rw [← ht]
    simpa using List.Lex.append_left (· < ·) (List.Lex.nil (a := i) (l := t)) p.address

theorem Above.trans {p q r : Place} (hpq : p.Above q) (hqr : q.Above r) : p.Above r := by
  refine ⟨hpq.1.trans hqr.1, fun heq => ?_⟩
  exact lt_irrefl q.address (lt_trans hqr.lt (heq ▸ hpq.lt))

theorem Above.between {p q r : Place} (h : p.Above r) (hpq : p.address < q.address)
    (hqr : q.address < r.address) : p.Above q :=
  ⟨Address.isPrefix_of_between h.1 hpq hqr, ne_of_lt hpq⟩

end Place

namespace Node

@[induction_eliminator]
theorem induction {P : Node → Prop}
    (mk : ∀ head children, (∀ c ∈ children, P c) → P (.mk head children)) (n : Node) : P n :=
  Node.rec (motive_2 := fun cs => ∀ c ∈ cs, P c) mk (fun _ h => (List.not_mem_nil h).elim)
    (fun _ _ hc hcs d hd => (List.mem_cons.mp hd).elim (fun h => h ▸ hc) (hcs d)) n

/-- The node at an address. -/
def at? : Address → Node → Option Node
  | [], n => some n
  | i :: a, n => n.children[i]?.bind (at? a)

mutual

/-- All nodes of a tree in pre-order. -/
def places : Node → List Place
  | .mk head children => ⟨[], .mk head children⟩ :: placesFrom 0 children

/-- All nodes of sibling trees in pre-order, where the first sibling has the given index. -/
def placesFrom (i : Nat) : List Node → List Place
  | [] => []
  | c :: cs => (places c).map (Place.under i) ++ placesFrom (i + 1) cs

end

/-- All nodes strictly below the root of a tree. -/
def placesBelow (root : Node) : List Place := placesFrom 0 root.children

@[simp] theorem at?_nil (n : Node) : n.at? [] = some n := rfl

@[simp] theorem at?_cons (n : Node) (i : Nat) (a : Address) :
    n.at? (i :: a) = n.children[i]?.bind (at? a) := rfl

theorem at?_append (n : Node) (a b : Address) : n.at? (a ++ b) = (n.at? a).bind (at? b) := by
  induction a generalizing n with
  | nil => rfl
  | cons i a ih =>
    rw [List.cons_append, at?_cons, at?_cons, Option.bind_assoc]
    exact congrArg _ (funext ih)

theorem places_eq (n : Node) : n.places = ⟨[], n⟩ :: n.placesBelow := by
  cases n
  rfl

theorem exists_address_of_mem_placesFrom {k : Nat} {cs : List Node} {p : Place}
    (h : p ∈ placesFrom k cs) : ∃ i a, p.address = i :: a ∧ k ≤ i := by
  induction cs generalizing k with
  | nil => cases h
  | cons c cs ih =>
    rw [placesFrom, List.mem_append, List.mem_map] at h
    rcases h with ⟨q, -, rfl⟩ | h
    · exact ⟨k, q.address, rfl, Nat.le_refl k⟩
    · obtain ⟨i, a, ha, hi⟩ := ih h
      exact ⟨i, a, ha, by omega⟩

theorem address_ne_nil_of_mem_placesBelow {root : Node} {p : Place} (h : p ∈ root.placesBelow) :
    p.address ≠ [] := by
  obtain ⟨i, a, ha, -⟩ := exists_address_of_mem_placesFrom h
  simp [ha]

theorem mem_placesFrom {k : Nat} {cs : List Node} {p : Place}
    (h : ∀ c ∈ cs, ∀ q, q ∈ c.places ↔ c.at? q.address = some q.node) :
    p ∈ placesFrom k cs ↔
      ∃ i a, p.address = (k + i) :: a ∧ cs[i]?.bind (at? a) = some p.node := by
  induction cs generalizing k with
  | nil => simp [placesFrom]
  | cons c cs ih =>
    rw [placesFrom, List.mem_append, List.mem_map,
      ih fun d hd => h d (List.mem_cons_of_mem c hd)]
    have hc := h c List.mem_cons_self
    constructor
    · rintro (⟨q, hq, rfl⟩ | ⟨i, a, ha, hn⟩)
      · exact ⟨0, q.address, rfl, (hc q).mp hq⟩
      · exact ⟨i + 1, a, by rw [ha]; congr 1; omega, hn⟩
    · rintro ⟨i, a, ha, hn⟩
      cases i with
      | zero =>
        refine .inl ⟨⟨a, p.node⟩, (hc _).mpr hn, ?_⟩
        cases p
        simp_all [Place.under]
      | succ i => exact .inr ⟨i, a, by rw [ha]; congr 1; omega, hn⟩

theorem mem_places {n : Node} {p : Place} : p ∈ n.places ↔ n.at? p.address = some p.node := by
  induction n generalizing p with
  | mk head children ih =>
    rw [places, List.mem_cons, mem_placesFrom fun c hc q => ih c hc]
    obtain ⟨a, m⟩ := p
    cases a with
    | nil => simp [eq_comm]
    | cons i a =>
      have hi : ∀ j b, i :: a = (0 + j) :: b ↔ j = i ∧ b = a := by
        intro j b
        simp [eq_comm]
      simp only [hi]
      simp [Node.children]

/-- What holds all over a tree holds all over each of its subtrees. -/
theorem forall_places_at? {P : Node → Prop} {root n : Node} {a : Address}
    (h : ∀ p ∈ root.places, P p.node) (hn : root.at? a = some n) : ∀ p ∈ n.places, P p.node := by
  intro p hp
  have hat : root.at? (a ++ p.address) = some p.node := by
    rw [at?_append, hn, Option.bind_some]
    exact mem_places.mp hp
  exact h ⟨a ++ p.address, p.node⟩ (mem_places.mpr hat)

theorem forall_places_child {P : Node → Prop} {root c : Node}
    (h : ∀ p ∈ root.places, P p.node) (hc : c ∈ root.children) : ∀ p ∈ c.places, P p.node := by
  obtain ⟨i, hi⟩ := List.getElem?_of_mem hc
  exact forall_places_at? h (a := [i]) (by simp [hi])

theorem placesFrom_pairwise_lt {k : Nat} {cs : List Node}
    (h : ∀ c ∈ cs, c.places.Pairwise fun p q => p.address < q.address) :
    (placesFrom k cs).Pairwise fun p q => p.address < q.address := by
  induction cs generalizing k with
  | nil => exact List.Pairwise.nil
  | cons c cs ih =>
    rw [placesFrom, List.pairwise_append, List.pairwise_map]
    refine ⟨?_, ih fun d hd => h d (List.mem_cons_of_mem c hd), ?_⟩
    · apply (h c List.mem_cons_self).imp
      intro p q hpq
      exact List.cons_lt_cons_iff.mpr (.inr ⟨rfl, hpq⟩)
    · intro p hp q hq
      obtain ⟨r, -, rfl⟩ := List.mem_map.mp hp
      obtain ⟨i, a, ha, hi⟩ := exists_address_of_mem_placesFrom hq
      rw [ha]
      exact List.cons_lt_cons_iff.mpr (.inl hi)

theorem places_pairwise_lt (n : Node) :
    n.places.Pairwise fun p q => p.address < q.address := by
  induction n with
  | mk head children ih =>
    refine List.pairwise_cons.mpr ⟨?_, placesFrom_pairwise_lt ih⟩
    intro p hp
    obtain ⟨i, a, ha, -⟩ := exists_address_of_mem_placesFrom hp
    rw [ha]
    exact List.nil_lt_cons i a

theorem placesBelow_pairwise_lt (root : Node) :
    root.placesBelow.Pairwise fun p q => p.address < q.address := by
  have h := places_pairwise_lt root
  rw [places_eq] at h
  exact (List.pairwise_cons.mp h).2

theorem mem_placesBelow {root : Node} {p : Place} :
    p ∈ root.placesBelow ↔ p.address ≠ [] ∧ root.at? p.address = some p.node := by
  rw [← mem_places, places_eq, List.mem_cons]
  constructor
  · intro h
    exact ⟨address_ne_nil_of_mem_placesBelow h, .inr h⟩
  · rintro ⟨hne, rfl | h⟩
    · exact (hne rfl).elim
    · exact h

end Node

end CursorCommand
