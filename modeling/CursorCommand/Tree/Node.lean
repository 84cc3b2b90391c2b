import CursorCommand.Text.Measure

/-!
# Syntax trees

A syntax tree covers a source text: every node has a kind and a span of bytes, and its children
stand in source order. A node may carry the name of the field under which its parent holds it. Nodes
that the grammar allows anywhere, such as comments, are marked extra; punctuation and keywords are
nodes without a name. How a tree is made from a text is left to the caller.
-/
namespace CursorCommand

/-- The kinds of node that matter here; every other kind is `other`. -/
inductive NodeKind where
  | callExpression
  | arguments
  | identifier
  | memberExpression
  | string
  | templateString
  | templateSubstitution
  | other
  deriving DecidableEq, Repr

namespace NodeKind

def ofName : String → NodeKind
  | "call_expression" => .callExpression
  | "arguments" => .arguments
  | "identifier" => .identifier
  | "member_expression" => .memberExpression
  | "string" => .string
  | "template_string" => .templateString
  | "template_substitution" => .templateSubstitution
  | _ => .other

end NodeKind

/-- The fields that matter here: what a call calls, what it passes, what a member is taken of. -/
inductive NodeField where
  | function
  | arguments
  | object
  deriving DecidableEq, Repr

namespace NodeField

def ofName? : String → Option NodeField
  | "function" => some .function
  | "arguments" => some .arguments
  | "object" => some .object
  | _ => none

end NodeField

/-- All that a node says of itself. -/
structure NodeHead where
  kind : NodeKind
  /-- Byte offset of the first character. -/
  start : Nat
  /-- Byte offset behind the last character. -/
  stop : Nat
  field : Option NodeField
  named : Bool
  extra : Bool
  deriving DecidableEq, Repr

/-- A node with its children in source order. -/
inductive Node where
  | mk (head : NodeHead) (children : List Node)

namespace Node

def head : Node → NodeHead
  | .mk head _ => head

def children : Node → List Node
  | .mk _ children => children

def kind (n : Node) : NodeKind := n.head.kind

def start (n : Node) : Nat := n.head.start

def stop (n : Node) : Nat := n.head.stop

def field (n : Node) : Option NodeField := n.head.field

def empty : Node := .mk ⟨.other, 0, 0, none, true, false⟩ []

def child? (f : NodeField) (n : Node) : Option Node :=
  n.children.find? fun c => c.field == some f

def text (source : List Char) (n : Node) : List Char :=
  Measure.utf8.slice n.start n.stop source

end Node

end CursorCommand
