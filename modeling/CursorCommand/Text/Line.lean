import CursorCommand.Text.Measure

/-!
# Lines

A line is a body without its ending. Lines end at a line feed, at a carriage return, and at the two
in that order; no other character ends one. Every text has a last line without an ending, which may
be empty, so `Line.split` never returns the empty list and `Line.join` gives the text back.
-/
namespace CursorCommand

/-- What ends a line; the last line of a text has none. -/
inductive Ending where
  | lf
  | crlf
  | cr
  | none
  deriving DecidableEq, Repr

def Ending.chars : Ending → List Char
  | .lf => ['\n']
  | .crlf => ['\r', '\n']
  | .cr => ['\r']
  | .none => []

structure Line where
  body : List Char
  ending : Ending
  deriving DecidableEq, Repr

namespace Line

/-- The characters of a line, ending included. -/
def chars (l : Line) : List Char := l.body ++ l.ending.chars

/-- Bytes of a line, ending included. -/
def byteLength (l : Line) : Nat := Measure.utf8.length l.chars

def consHead (c : Char) : List Line → List Line
  | [] => [⟨[c], .none⟩]
  | l :: ls => ⟨c :: l.body, l.ending⟩ :: ls

def split : List Char → List Line
  | [] => [⟨[], .none⟩]
  | '\n' :: cs => ⟨[], .lf⟩ :: split cs
  | '\r' :: '\n' :: cs => ⟨[], .crlf⟩ :: split cs
  | '\r' :: cs => ⟨[], .cr⟩ :: split cs
  | c :: cs => consHead c (split cs)

def join (ls : List Line) : List Char := ls.flatMap chars

@[simp] theorem join_nil : join [] = [] := rfl

@[simp] theorem join_cons (l : Line) (ls : List Line) : join (l :: ls) = l.chars ++ join ls := rfl

@[simp] theorem join_consHead (c : Char) (ls : List Line) :
    join (consHead c ls) = c :: join ls := by
  cases ls <;> simp [consHead, join, chars, Ending.chars]

theorem join_split (cs : List Char) : join (split cs) = cs := by
  fun_induction split cs <;> simp_all [chars, Ending.chars]

end Line

end CursorCommand
