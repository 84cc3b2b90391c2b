import CursorCommand.Proofs.Text.Measure
import CursorCommand.Proofs.Tree.OpeningCall

/-!
# Shifted trees

Text put in front of a source moves every node of its tree by the same number of bytes. The shifted
tree says of the longer source what the tree says of the shorter one: the same calls open blocks, and
they give them the same names.
-/
namespace CursorCommand

def NodeHead.shift (k : Nat) (h : NodeHead) : NodeHead :=
  { h with start := h.start + k, stop := h.stop + k }

@[simp] theorem NodeHead.named_shift (k : Nat) (h : NodeHead) : (h.shift k).named = h.named := rfl

@[simp] theorem NodeHead.extra_shift (k : Nat) (h : NodeHead) : (h.shift k).extra = h.extra := rfl

namespace Node

mutual

/-- A tree with every node moved by `k` bytes. -/
def shift (k : Nat) : Node → Node
  | .mk head children => .mk (head.shift k) (shiftAll k children)

def shiftAll (k : Nat) : List Node → List Node
  | [] => []
  | n :: ns => shift k n :: shiftAll k ns

end

theorem shiftAll_eq_map (k : Nat) (ns : List Node) : shiftAll k ns = ns.map (shift k) := by
  induction ns with
  | nil => rfl
  | cons n ns ih => rw [shiftAll, ih, List.map_cons]

variable {k : Nat} {n : Node}

@[simp] theorem head_shift : (n.shift k).head = n.head.shift k := by
  cases n
  rw [shift]
  rfl

@[simp] theorem children_shift : (n.shift k).children = n.children.map (shift k) := by
  cases n
  rw [shift]
  exact shiftAll_eq_map k _

@[simp] theorem kind_shift : (n.shift k).kind = n.kind := by
  rw [kind, head_shift]
  rfl

@[simp] theorem field_shift : (n.shift k).field = n.field := by
  rw [field, head_shift]
  rfl

@[simp] theorem start_shift : (n.shift k).start = n.start + k := by
  rw [start, head_shift]
  rfl

@[simp] theorem stop_shift : (n.shift k).stop = n.stop + k := by
  rw [stop, head_shift]
  rfl

theorem child?_shift (f : NodeField) : (n.shift k).child? f = (n.child? f).map (shift k) := by
  simp only [child?, children_shift, List.find?_map, Function.comp_def, field_shift]

theorem base?_shift : (n.shift k).base? = n.base?.map (shift k) := by
  induction n with
  | mk head children ih =>
    rw [base?_eq, base?_eq (.mk head children), kind_shift]
    cases (Node.mk head children).kind with
    | identifier => rfl
    | memberExpression =>
      simp only
      rw [child?_shift]
      cases hobject : (Node.mk head children).child? .object with
      | none => rfl
      | some o => exact ih o (mem_children_of_child? hobject)
    | _ => rfl

theorem calleeBase?_shift : (n.shift k).calleeBase? = n.calleeBase?.map (shift k) := by
  rw [calleeBase?, calleeBase?, child?_shift]
  cases n.child? .function with
  | none => rfl
  | some f => exact base?_shift

theorem argumentList?_shift : (n.shift k).argumentList? = n.argumentList?.map (shift k) := by
  simp only [argumentList?, child?_shift, Option.filter_map, Function.comp_def, kind_shift]

theorem isLiteral_shift : (n.shift k).isLiteral = n.isLiteral := by
  have hsubstitution : (n.shift k).hasSubstitution = n.hasSubstitution := by
    simp only [hasSubstitution, children_shift, List.any_map, Function.comp_def, head_shift,
      NodeHead.named_shift, kind_shift]
  rw [isLiteral, isLiteral, kind_shift, hsubstitution]

theorem literalArgument?_shift :
    (n.shift k).literalArgument? = n.literalArgument?.map (shift k) := by
  rw [literalArgument?, literalArgument?, argumentList?_shift]
  cases n.argumentList? with
  | none => rfl
  | some a =>
    simp only [Option.map_some, Option.bind_some, children_shift, List.find?_map,
      Function.comp_def, head_shift, NodeHead.named_shift, NodeHead.extra_shift, isLiteral_shift]

/-! ### Behind a text in front -/

variable (above source : List Char) (identifiers : List String)

theorem text_shift :
    (n.shift (Measure.utf8.length above)).text (above ++ source) = n.text source := by
  rw [text, text, start_shift, stop_shift, Measure.slice_append]

theorem opensBlock_shift :
    (n.shift (Measure.utf8.length above)).opensBlock (above ++ source) identifiers =
      n.opensBlock source identifiers := by
  simp only [opensBlock, kind_shift, argumentList?_shift, Option.isSome_map, calleeBase?_shift,
    Option.any_map, text_shift]

theorem blockName?_shift :
    (n.shift (Measure.utf8.length above)).blockName? (above ++ source) = n.blockName? source := by
  simp only [blockName?, literalArgument?_shift, Option.map_map, Function.comp_def, text_shift]

end Node

end CursorCommand
