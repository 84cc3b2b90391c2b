import CursorCommand.Json.Form

/-!
# JSON values

The value of a JSON text. Strings are text, numbers keep their spelling but are not too large for a
double, members keep their order. Arrays and objects are nested at most 127 deep.
-/
namespace CursorCommand

inductive Json where
  | null
  | bool (b : Bool)
  | number (n : Numeral)
  | string (s : String)
  | array (elements : List Json)
  | object (members : List (String × Json))

namespace Json

mutual

/-- The value of a written value, when arrays and objects may be nested `room` deep. -/
def ofForm? (room : Nat) : Form → Option Json
  | .null => some .null
  | .bool b => some (.bool b)
  | .number n => if n.inRange then some (.number n) else none
  | .string ps => (Quoted.text? ps).map .string
  | .array es => if room = 0 then none else (ofElements? (room - 1) es).map .array
  | .object ms => if room = 0 then none else (ofMembers? (room - 1) ms).map .object

def ofElements? (room : Nat) : List Form → Option (List Json)
  | [] => some []
  | e :: es => (ofForm? room e).bind fun v => (ofElements? room es).map (v :: ·)

def ofMembers? (room : Nat) : List (List Quoted.Piece × Form) → Option (List (String × Json))
  | [] => some []
  | (key, f) :: ms =>
    (Quoted.text? key).bind fun k =>
      (ofForm? room f).bind fun v => (ofMembers? room ms).map ((k, v) :: ·)

end

/-- How deep arrays and objects may be nested. -/
def maxDepth : Nat := 127

def parse? (text : String) : Option Json := (Form.read? text.toList).bind (ofForm? maxDepth)

/-- The members of an object; any other value has none. -/
def members : Json → List (String × Json)
  | .object ms => ms
  | _ => []

/-- The member of an object with the given key. Where a key is repeated the last one counts. -/
def get? (key : String) (j : Json) : Option Json :=
  (j.members.reverse.find? fun m => m.1 == key).map (·.2)

def string? : Json → Option String
  | .string s => some s
  | _ => none

def bool? : Json → Option Bool
  | .bool b => some b
  | _ => none

def array? : Json → Option (List Json)
  | .array es => some es
  | _ => none

end Json

end CursorCommand
