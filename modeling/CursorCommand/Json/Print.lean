import CursorCommand.Json.Value

/-!
# Printing JSON values

A value is printed compactly, without blanks, or prettily: every element and member on a line of its
own, two spaces deeper than what encloses it, a space behind each colon. Empty arrays and objects
stay on one line.
-/
namespace CursorCommand

namespace Json

mutual

def compact : Json → List Char
  | .null => ['n', 'u', 'l', 'l']
  | .bool true => ['t', 'r', 'u', 'e']
  | .bool false => ['f', 'a', 'l', 's', 'e']
  | .number n => n.chars
  | .string s => Quoted.write s.toList
  | .array [] => ['[', ']']
  | .array (e :: es) => '[' :: compact e ++ compactElements es
  | .object [] => ['{', '}']
  | .object ((key, v) :: ms) =>
    '{' :: Quoted.write key.toList ++ ':' :: compact v ++ compactMembers ms

/-- The elements behind the first one, with the end of the array. -/
def compactElements : List Json → List Char
  | [] => [']']
  | e :: es => ',' :: compact e ++ compactElements es

/-- The members behind the first one, with the end of the object. -/
def compactMembers : List (String × Json) → List Char
  | [] => ['}']
  | (key, v) :: ms => ',' :: Quoted.write key.toList ++ ':' :: compact v ++ compactMembers ms

end

/-- A line break and the blanks in front of what stands `depth` deep. -/
def newline (depth : Nat) : List Char := '\n' :: List.replicate (2 * depth) ' '

mutual

/-- A value on lines of its own, inside `depth` arrays and objects. -/
def prettyAt (depth : Nat) : Json → List Char
  | .null => ['n', 'u', 'l', 'l']
  | .bool true => ['t', 'r', 'u', 'e']
  | .bool false => ['f', 'a', 'l', 's', 'e']
  | .number n => n.chars
  | .string s => Quoted.write s.toList
  | .array [] => ['[', ']']
  | .array (e :: es) =>
    '[' :: newline (depth + 1) ++ prettyAt (depth + 1) e ++ prettyElements depth es
  | .object [] => ['{', '}']
  | .object ((key, v) :: ms) =>
    '{' :: newline (depth + 1) ++ Quoted.write key.toList ++ ':' :: ' ' ::
      prettyAt (depth + 1) v ++ prettyMembers depth ms

/-- The elements behind the first one, with the end of the array. -/
def prettyElements (depth : Nat) : List Json → List Char
  | [] => newline depth ++ [']']
  | e :: es => ',' :: newline (depth + 1) ++ prettyAt (depth + 1) e ++ prettyElements depth es

/-- The members behind the first one, with the end of the object. -/
def prettyMembers (depth : Nat) : List (String × Json) → List Char
  | [] => newline depth ++ ['}']
  | (key, v) :: ms =>
    ',' :: newline (depth + 1) ++ Quoted.write key.toList ++ ':' :: ' ' ::
      prettyAt (depth + 1) v ++ prettyMembers depth ms

end

def compactText (j : Json) : String := String.ofList (compact j)

def prettyText (j : Json) : String := String.ofList (prettyAt 0 j)

end Json

end CursorCommand
