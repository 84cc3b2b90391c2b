import CursorCommand.Json.Token

/-!
# Written values of JSON texts

A written value is what the grammar finds in a text before any meaning is given to it: strings may
hold lone surrogates, numbers may be too large, members keep their order and may repeat. The reader
takes one token at a time and keeps the arrays and objects that are still open on a stack, so it
needs no bound on how deep a text is nested.
-/
namespace CursorCommand

/-- A value as a text writes it. -/
inductive Form where
  | null
  | bool (b : Bool)
  | number (n : Numeral)
  | string (pieces : List Quoted.Piece)
  | array (elements : List Form)
  | object (members : List (List Quoted.Piece × Form))

namespace Form

/-- An array or object that is still open, with what stands in it already, latest first. -/
inductive Frame where
  | array (before : List Form)
  | object (before : List (List Quoted.Piece × Form)) (key : List Quoted.Piece)

/-- What may come next. -/
inductive Expect where
  /-- A value. -/
  | value
  /-- The first element of an array, or its end. -/
  | element
  /-- The first member of an object, or its end. -/
  | member
  /-- The key of a further member. -/
  | key (before : List (List Quoted.Piece × Form))
  /-- The colon behind a key. -/
  | colon (before : List (List Quoted.Piece × Form)) (key : List Quoted.Piece)
  /-- A comma or an end, behind a complete value. -/
  | separator (v : Form)

/-- Where a reader stands: what may come next, and what is open around it, innermost first. -/
structure State where
  expect : Expect
  stack : List Frame

namespace State

def initial : State := ⟨.value, []⟩

/-- Take the token that begins a value. -/
def begin (stack : List Frame) : Token → Option State
  | .null => some ⟨.separator .null, stack⟩
  | .bool b => some ⟨.separator (.bool b), stack⟩
  | .number n => some ⟨.separator (.number n), stack⟩
  | .string s => some ⟨.separator (.string s), stack⟩
  | .openArray => some ⟨.element, stack⟩
  | .openObject => some ⟨.member, stack⟩
  | _ => none

/-- Take the token behind a complete value. -/
def proceed (v : Form) : List Frame → Token → Option State
  | .array before :: stack, .comma => some ⟨.value, .array (v :: before) :: stack⟩
  | .array before :: stack, .closeArray =>
    some ⟨.separator (.array (v :: before).reverse), stack⟩
  | .object before key :: stack, .comma => some ⟨.key ((key, v) :: before), stack⟩
  | .object before key :: stack, .closeObject =>
    some ⟨.separator (.object ((key, v) :: before).reverse), stack⟩
  | _, _ => none

/-- Take a token; none when the grammar does not allow it. -/
def step (s : State) (t : Token) : Option State :=
  match s.expect with
  | .value => begin s.stack t
  | .element =>
    match t with
    | .closeArray => some ⟨.separator (.array []), s.stack⟩
    | t => begin (.array [] :: s.stack) t
  | .member =>
    match t with
    | .closeObject => some ⟨.separator (.object []), s.stack⟩
    | .string key => some ⟨.colon [] key, s.stack⟩
    | _ => none
  | .key before =>
    match t with
    | .string key => some ⟨.colon before key, s.stack⟩
    | _ => none
  | .colon before key =>
    match t with
    | .colon => some ⟨.value, .object before key :: s.stack⟩
    | _ => none
  | .separator v => proceed v s.stack t

def run : State → List Token → Option State
  | s, [] => some s
  | s, t :: ts => (s.step t).bind fun s => run s ts

/-- The value that a reader has, when it is complete and nothing is open around it. -/
def result? : State → Option Form
  | ⟨.separator v, []⟩ => some v
  | _ => none

end State

def ofTokens? (ts : List Token) : Option Form := (State.initial.run ts).bind State.result?

def read? (text : List Char) : Option Form := (Token.readAll text).bind ofTokens?

end Form

end CursorCommand
