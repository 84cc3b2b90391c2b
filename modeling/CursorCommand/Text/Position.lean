import CursorCommand.Text.Line

/-!
# Cursor positions

A position counts lines from zero and, inside a line, UTF-16 code units from zero; an offset counts
UTF-8 bytes from the start of the text. A position on a line that exists has an offset, and every
offset has a position. Line endings lie outside the columns: a cursor cannot stand inside or behind
one, and an offset there has the position of the end of its line.
-/
namespace CursorCommand

namespace Line

/-- The byte, within a line's body, of a UTF-16 column. A column inside a character or past the end
moves to the next character boundary or to the end. -/
def byteOfColumn (body : List Char) (column : Nat) : Nat :=
  Measure.utf8.length (Measure.utf16.ceil column body)

/-- The UTF-16 column, within a line's body, of a byte. A byte inside a character or past the end
moves back to the start of the character or to the end. -/
def columnOfByte (body : List Char) (byte : Nat) : Nat :=
  Measure.utf16.length (Measure.utf8.floor byte body)

/-- The byte offset of a column on the line with the given index, when there is such a line. -/
def offset? : List Line → Nat → Nat → Option Nat
  | [], _, _ => none
  | l :: _, 0, column => some (byteOfColumn l.body column)
  | l :: ls, line + 1, column => (offset? ls line column).map (l.byteLength + ·)

theorem offset?_eq_none_iff {ls : List Line} {line column : Nat} :
    offset? ls line column = none ↔ ls.length ≤ line := by
  induction ls generalizing line with
  | nil => simp [offset?]
  | cons l ls ih =>
    cases line with
    | zero => simp [offset?]
    | succ line => simp [offset?, ih]

/-- The index of the line that holds a byte offset, and the column there. The last line takes all
that lies behind it. -/
def locate : List Line → Nat → Nat × Nat
  | [], _ => (0, 0)
  | [l], offset => (0, columnOfByte l.body offset)
  | l :: ls@(_ :: _), offset =>
    if offset < l.byteLength then (0, columnOfByte l.body offset)
    else
      let place := locate ls (offset - l.byteLength)
      (place.1 + 1, place.2)

end Line

/-- A cursor: a line and a UTF-16 character in it, both counted from zero. -/
structure Position where
  line : UInt32
  character : UInt32
  deriving DecidableEq, Repr

namespace Position

/-- The byte offset of a position; none when the text has no such line. -/
def offset? (text : String) (p : Position) : Option Nat :=
  Line.offset? (Line.split text.toList) p.line.toNat p.character.toNat

/-- The position of a byte offset. Counts are kept modulo `2 ^ 32`. -/
def ofOffset (text : String) (offset : Nat) : Position :=
  let place := Line.locate (Line.split text.toList) offset
  ⟨UInt32.ofNat place.1, UInt32.ofNat place.2⟩

end Position

end CursorCommand
