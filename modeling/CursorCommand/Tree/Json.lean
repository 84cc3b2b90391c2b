import CursorCommand.Json.Form
import CursorCommand.Tree.Node

/-!
# Syntax trees as JSON

A node is written as an object: its kind `k`, the offsets `s` and `e` where it starts and ends, its
field `f` if it has one, `x` when it is extra, `a` when it has no name, and its children `c`. Other
members are passed over, and of repeated ones the first counts.
-/
namespace CursorCommand

namespace Node

/-- The value of the first member with a key of one character. -/
def member? (key : Char) : List (List Quoted.Piece × Form) → Option Form
  | [] => none
  | (k, v) :: ms => if k == [.char key] then some v else member? key ms

def stringMember? (key : Char) (ms : List (List Quoted.Piece × Form)) : Option String :=
  match member? key ms with
  | some (.string ps) => Quoted.text? ps
  | _ => none

def offsetMember? (key : Char) (ms : List (List Quoted.Piece × Form)) : Option Nat :=
  match member? key ms with
  | some (.number n) => n.natural?
  | _ => none

def flagMember (key : Char) (ms : List (List Quoted.Piece × Form)) : Bool :=
  match member? key ms with
  | some (.bool b) => b
  | _ => false

/-- What the members of a node's object say of the node itself. -/
def headOfMembers? (ms : List (List Quoted.Piece × Form)) : Option NodeHead := do
  let kind ← stringMember? 'k' ms
  let start ← offsetMember? 's' ms
  let stop ← offsetMember? 'e' ms
  return {
    kind := NodeKind.ofName kind
    start := start
    stop := stop
    field := (stringMember? 'f' ms).bind NodeField.ofName?
    named := !flagMember 'a' ms
    extra := flagMember 'x' ms }

mutual

def ofForm? : Form → Option Node
  | .object ms =>
    (headOfMembers? ms).bind fun head => (childrenOfMembers? ms).map fun cs => .mk head cs
  | _ => none

/-- The children that the members of a node's object describe; without such a member, none. -/
def childrenOfMembers? : List (List Quoted.Piece × Form) → Option (List Node)
  | [] => some []
  | (k, v) :: ms => if k == [.char 'c'] then childrenOfForm? v else childrenOfMembers? ms

def childrenOfForm? : Form → Option (List Node)
  | .array es => ofElements? es
  | _ => none

def ofElements? : List Form → Option (List Node)
  | [] => some []
  | e :: es => (ofForm? e).bind fun n => (ofElements? es).map (n :: ·)

end

def parse? (text : String) : Option Node := (Form.read? text.toList).bind ofForm?

end Node

end CursorCommand
