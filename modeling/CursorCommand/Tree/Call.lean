import CursorCommand.Tree.Node
import CursorCommand.Literal.Decode

/-!
# Calls that open a test block

A call opens a block when it has an argument list and what it calls is one of the given identifiers
or is reached from one by taking members: `it`, `it.only`, `test.cb.skip`. Its name is the value of
the first argument that is a literal; a template literal counts unless it has a substitution.
-/
namespace CursorCommand

namespace Node

mutual

/-- The identifier at the left end of a chain of members. -/
def base? : Node → Option Node
  | .mk head children =>
    match head.kind with
    | .identifier => some (.mk head children)
    | .memberExpression => baseOfObject? children
    | _ => none

/-- The identifier at the left end of the first child that is an object. -/
def baseOfObject? : List Node → Option Node
  | [] => none
  | c :: cs => if c.field == some .object then base? c else baseOfObject? cs

end

theorem baseOfObject?_eq (cs : List Node) :
    baseOfObject? cs = (cs.find? fun c => c.field == some .object).bind base? := by
  induction cs with
  | nil => simp [baseOfObject?]
  | cons c cs ih =>
    rw [baseOfObject?, List.find?_cons]
    cases h : c.field == some .object <;> simp [ih]

/-- A chain of members leads to the base of its object. -/
theorem base?_eq (n : Node) :
    n.base? = match n.kind with
      | .identifier => some n
      | .memberExpression => (n.child? .object).bind base?
      | _ => none := by
  cases n with
  | mk head children =>
    rw [base?, baseOfObject?_eq]
    rfl

/-- The arguments of a call; a template literal in their place is none. -/
def argumentList? (n : Node) : Option Node :=
  (n.child? .arguments).filter fun a => a.kind == .arguments

def calleeBase? (n : Node) : Option Node := (n.child? .function).bind base?

/-- Whether a node is a call that opens a block for one of the identifiers. -/
def opensBlock (source : List Char) (identifiers : List String) (n : Node) : Bool :=
  n.kind == .callExpression && n.argumentList?.isSome &&
    n.calleeBase?.any fun b => identifiers.contains (String.ofList (b.text source))

def hasSubstitution (n : Node) : Bool :=
  n.children.any fun c => c.head.named && c.kind == .templateSubstitution

def isLiteral (n : Node) : Bool :=
  match n.kind with
  | .string => true
  | .templateString => !n.hasSubstitution
  | _ => false

def literalArgument? (n : Node) : Option Node :=
  n.argumentList?.bind fun a =>
    a.children.find? fun c => c.head.named && !c.head.extra && c.isLiteral

def blockName? (source : List Char) (n : Node) : Option String :=
  n.literalArgument?.map fun a => String.ofList (Literal.value (a.text source))

end Node

end CursorCommand
