import CursorCommand.Json.Form
import CursorCommand.Proofs.Literal.Spelling

/-!
# The grammar of JSON texts

Which texts write a value, said without a reader: every character of a string may be written as
itself or escaped, numbers may have a fraction and an exponent, and blanks may stand around every
token. Arrays and objects are nested as deep as one likes.
-/
namespace CursorCommand

namespace Quoted

/-- The letters of the short escapes, and what they stand for. -/
def shortEscapes : List (Char × Char) :=
  [('"', '"'), ('\\', '\\'), ('/', '/'), ('b', '\x08'), ('f', '\x0c'), ('n', '\n'), ('r', '\r'),
    ('t', '\t')]

/-- Characters between the quotes write a string, piece by piece. -/
inductive Writes : List Char → List Piece → Prop
  | nil : Writes [] []
  | self {c : Char} {cs : List Char} {ps : List Piece} : 0x20 ≤ c.toNat → c ≠ '"' → c ≠ '\\' →
      Writes cs ps → Writes (c :: cs) (.char c :: ps)
  | short {letter c : Char} {cs : List Char} {ps : List Piece} : (letter, c) ∈ shortEscapes →
      Writes cs ps → Writes ('\\' :: letter :: cs) (.char c :: ps)
  | unit (w x y z : HexDigit) {cs : List Char} {ps : List Piece} : Writes cs ps →
      Writes ('\\' :: 'u' :: w.char :: x.char :: y.char :: z.char :: cs)
        (.unit (HexDigit.number [w, x, y, z]) :: ps)

/-- The text that the pieces of a string stand for. A character outside the basic plane may be two
surrogates. -/
inductive Says : List Piece → List Char → Prop
  | nil : Says [] []
  | char {c : Char} {ps : List Piece} {cs : List Char} : Says ps cs → Says (.char c :: ps) (c :: cs)
  | unit {c : Char} {ps : List Piece} {cs : List Char} : c.toNat < 0x10000 → Says ps cs →
      Says (.unit c.toNat :: ps) (c :: cs)
  | pair {high low : Nat} {c : Char} {ps : List Piece} {cs : List Char} :
      CodeUnit.isHigh high = true → CodeUnit.isLow low = true → CodeUnit.pair high low = c.toNat →
      Says ps cs → Says (.unit high :: .unit low :: ps) (c :: cs)

end Quoted

namespace Numeral

/-- At least one digit. -/
def Digits (ds : List Char) : Prop := ds ≠ [] ∧ ∀ d ∈ ds, d.isDigit = true

/-- The point and the digits behind it; nothing where there are none. -/
inductive WritesFraction : List Char → List Char → Prop
  | none : WritesFraction [] []
  | some {ds : List Char} : Digits ds → WritesFraction ('.' :: ds) ds

inductive WritesSign : List Char → Bool → Prop
  | none : WritesSign [] false
  | plus : WritesSign ['+'] false
  | minus : WritesSign ['-'] true

inductive WritesExponent : List Char → Option Exponent → Prop
  | none : WritesExponent [] none
  | some {mark : Char} {sign ds : List Char} {negative : Bool} : mark = 'e' ∨ mark = 'E' →
      WritesSign sign negative → Digits ds →
      WritesExponent (mark :: (sign ++ ds)) (some ⟨negative, ds⟩)

/-- A text writes a number: no zero stands in front of another digit. -/
inductive Writes : List Char → Numeral → Prop
  | mk {negative : Bool} {whole fraction exponent ds : List Char} {e : Option Exponent} :
      Digits whole → (whole.head? = some '0' → whole = ['0']) → WritesFraction fraction ds →
      WritesExponent exponent e →
      Writes ((if negative then ['-'] else []) ++ (whole ++ (fraction ++ exponent)))
        ⟨negative, whole, ds, e⟩

end Numeral

namespace Form

/-- What may stand around tokens. -/
def Blank (cs : List Char) : Prop := ∀ c ∈ cs, Token.isBlank c = true

/-- What a part of a text stands for. -/
inductive Phrase where
  | value (v : Form)
  /-- The elements behind another one, with the end of the array. -/
  | elements (es : List Form)
  | member (key : List Quoted.Piece) (v : Form)
  /-- The members behind another one, with the end of the object. -/
  | members (ms : List (List Quoted.Piece × Form))

inductive Writes : List Char → Phrase → Prop
  | null : Writes ['n', 'u', 'l', 'l'] (.value .null)
  | true : Writes ['t', 'r', 'u', 'e'] (.value (.bool true))
  | false : Writes ['f', 'a', 'l', 's', 'e'] (.value (.bool false))
  | number {cs : List Char} {n : Numeral} : Numeral.Writes cs n → Writes cs (.value (.number n))
  | string {cs : List Char} {ps : List Quoted.Piece} : Quoted.Writes cs ps →
      Writes ('"' :: (cs ++ ['"'])) (.value (.string ps))
  | emptyArray {bs : List Char} : Blank bs → Writes ('[' :: (bs ++ [']'])) (.value (.array []))
  | array {bs cs ds : List Char} {e : Form} {es : List Form} : Blank bs →
      Writes cs (.value e) → Writes ds (.elements es) →
      Writes ('[' :: (bs ++ (cs ++ ds))) (.value (.array (e :: es)))
  | emptyObject {bs : List Char} : Blank bs →
      Writes ('\x7b' :: (bs ++ ['\x7d'])) (.value (.object []))
  | object {bs cs ds : List Char} {key : List Quoted.Piece} {v : Form}
      {ms : List (List Quoted.Piece × Form)} : Blank bs →
      Writes cs (.member key v) → Writes ds (.members ms) →
      Writes ('\x7b' :: (bs ++ (cs ++ ds))) (.value (.object ((key, v) :: ms)))
  | lastElement {bs : List Char} : Blank bs → Writes (bs ++ [']']) (.elements [])
  | element {bs bs' cs ds : List Char} {e : Form} {es : List Form} : Blank bs → Blank bs' →
      Writes cs (.value e) → Writes ds (.elements es) →
      Writes (bs ++ ',' :: (bs' ++ (cs ++ ds))) (.elements (e :: es))
  | member {bs bs' cs ds : List Char} {key : List Quoted.Piece} {v : Form} :
      Quoted.Writes cs key → Blank bs → Blank bs' → Writes ds (.value v) →
      Writes ('"' :: (cs ++ '"' :: (bs ++ ':' :: (bs' ++ ds)))) (.member key v)
  | lastMember {bs : List Char} : Blank bs → Writes (bs ++ ['\x7d']) (.members [])
  | nextMember {bs bs' cs ds : List Char} {key : List Quoted.Piece} {v : Form}
      {ms : List (List Quoted.Piece × Form)} : Blank bs → Blank bs' →
      Writes cs (.member key v) → Writes ds (.members ms) →
      Writes (bs ++ ',' :: (bs' ++ (cs ++ ds))) (.members ((key, v) :: ms))

/-- A whole text writes a value, with blanks around it. -/
inductive WritesText : List Char → Form → Prop
  | mk {bs cs bs' : List Char} {v : Form} : Blank bs → Writes cs (.value v) → Blank bs' →
      WritesText (bs ++ (cs ++ bs')) v

end Form

end CursorCommand
