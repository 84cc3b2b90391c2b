import CursorCommand.Block.Basic
import CursorCommand.Json.Print

/-!
# Blocks as JSON

A block is written as an object with four members. It is read from such an object, with its members
in any order and any others beside them, or from an array of the four values. A missing name is not
known. Members that are not a block's own are passed over as they are written: neither their depth
nor their numbers nor the surrogates in their strings matter.
-/
namespace CursorCommand

namespace Block

/-- A name; null when it is not known. -/
def nameJson : Option String → Json
  | some s => .string s
  | none => .null

def toJson (b : Block) : Json :=
  .object
    [("name", nameJson b.name),
      ("parentNames", .array (b.parents.map nameJson)),
      ("start", .number (.ofNat b.start)),
      ("end", .number (.ofNat b.stop))]

/-- Offsets stay below this. -/
def offsetBound : Nat := Nat.pow 2 64

def nameOfForm? : Form → Option (Option String)
  | .null => some none
  | .string ps => (Quoted.text? ps).map some
  | _ => none

def parentsOfForm? : Form → Option (List (Option String))
  | .array es => es.mapM nameOfForm?
  | _ => none

/-- An offset: a plain natural number. -/
def offsetOfForm? : Form → Option Nat
  | .number n => n.natural?.filter fun offset => offset < offsetBound
  | _ => none

def ofValues? (name parents start stop : Form) : Option Block := do
  let name ← nameOfForm? name
  let parents ← parentsOfForm? parents
  let start ← offsetOfForm? start
  let stop ← offsetOfForm? stop
  return ⟨name, parents, start, stop⟩

def valuesOf (key : String) (members : List (String × Form)) : List Form :=
  (members.filter fun m => m.1 == key).map (·.2)

/-- A block from the members of an object. Each of the four keys stands at most once, and only the
name may be missing. -/
def ofMembers? (members : List (String × Form)) : Option Block :=
  match valuesOf "name" members, valuesOf "parentNames" members, valuesOf "start" members,
    valuesOf "end" members with
  | [], [parents], [start], [stop] => ofValues? .null parents start stop
  | [name], [parents], [start], [stop] => ofValues? name parents start stop
  | _, _, _, _ => none

def decodeKey? (m : List Quoted.Piece × Form) : Option (String × Form) :=
  (Quoted.text? m.1).map fun key => (key, m.2)

def ofForm? : Form → Option Block
  | .object ms => (ms.mapM decodeKey?).bind ofMembers?
  | .array [name, parents, start, stop] => ofValues? name parents start stop
  | _ => none

def parse? (text : String) : Option Block := (Form.read? text.toList).bind ofForm?

def parseAll? (text : String) : Option (List Block) :=
  match Form.read? text.toList with
  | some (.array es) => es.mapM ofForm?
  | _ => none

end Block

end CursorCommand
