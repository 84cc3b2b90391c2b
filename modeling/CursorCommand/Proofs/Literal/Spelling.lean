import CursorCommand.Text.Unit
import Mathlib.Algebra.Group.Nat.Defs
import Mathlib.Data.List.SplitBy

/-!
# How a literal spells text

The body of a literal is a sequence of elements: characters that stand for themselves, escapes, and
line breaks that are continued. This is the writer's side: what each element looks like and what it
stands for. Escapes that name UTF-16 code units have a meaning only together with their neighbours,
so the value of a body is put together run by run.
-/
namespace CursorCommand

/-- A hexadecimal digit, written in either case. -/
structure HexDigit where
  value : Fin 16
  upper : Bool
  deriving DecidableEq, Repr

namespace HexDigit

def char (d : HexDigit) : Char :=
  if d.value.val < 10 then Char.ofNat ('0'.toNat + d.value.val)
  else Char.ofNat ((if d.upper then 'A' else 'a').toNat + (d.value.val - 10))

/-- What digits behind a number make of it. -/
def append (n : Nat) (ds : List HexDigit) : Nat := ds.foldl (fun m d => m * 16 + d.value) n

def number (ds : List HexDigit) : Nat := append 0 ds

@[simp] theorem append_nil (n : Nat) : append n [] = n := rfl

@[simp] theorem append_cons (n : Nat) (d : HexDigit) (ds : List HexDigit) :
    append n (d :: ds) = append (n * 16 + d.value) ds := rfl

theorem le_append (n : Nat) (ds : List HexDigit) : n ≤ append n ds := by
  induction ds generalizing n with
  | nil => exact Nat.le_refl n
  | cons d ds ih =>
    have hstep := ih (n * 16 + d.value)
    rw [append_cons]
    omega

theorem append_lt (n : Nat) (ds : List HexDigit) : append n ds < (n + 1) * 16 ^ ds.length := by
  induction ds generalizing n with
  | nil => simp
  | cons d ds ih =>
    have hdigit := d.value.isLt
    calc append n (d :: ds) < (n * 16 + d.value + 1) * 16 ^ ds.length := ih _
      _ ≤ ((n + 1) * 16) * 16 ^ ds.length := Nat.mul_le_mul_right _ (by omega)
      _ = (n + 1) * 16 ^ (d :: ds).length := by
        rw [List.length_cons, Nat.pow_succ', Nat.mul_assoc]

theorem number_lt (ds : List HexDigit) : number ds < 16 ^ ds.length := by
  simpa [number] using append_lt 0 ds

theorem digit?_char (d : HexDigit) : Hex.digit? d.char = some d.value.val := by
  rcases d with ⟨value, upper⟩
  revert value upper
  decide

theorem char_ne {d : HexDigit} {c : Char} (h : Hex.digit? c = none) : d.char ≠ c := by
  rintro rfl
  rw [digit?_char] at h
  cases h

end HexDigit

namespace CodeUnit

def isSurrogate (unit : Nat) : Bool := isHigh unit || isLow unit

/-- The character of a unit that has no partner. -/
def lone (unit : Nat) : Char := if isSurrogate unit then '\uFFFD' else Char.ofNat unit

/-- The text of code units: a high surrogate and the low one behind it make one character. -/
def decode : List Nat → List Char
  | [] => []
  | [unit] => [lone unit]
  | high :: low :: units =>
    if isHigh high && isLow low then Char.ofNat (pair high low) :: decode units
    else lone high :: decode (low :: units)

theorem pair_valid {high low : Nat} (hhigh : isHigh high = true) (hlow : isLow low = true) :
    (pair high low).isValidChar := by
  simp only [isHigh, isLow, Bool.and_eq_true, decide_eq_true_eq] at hhigh hlow
  right
  unfold pair
  omega

/-- A unit names a character unless it is a surrogate. -/
theorem valid_iff {unit : Nat} (h : unit < 0x10000) :
    unit.isValidChar ↔ isSurrogate unit = false := by
  simp only [isSurrogate, isHigh, isLow, Bool.or_eq_false_iff, Bool.and_eq_false_iff,
    decide_eq_false_iff_not, Nat.isValidChar]
  omega

end CodeUnit

namespace CodePoint

theorem char?_eq_some {n : Nat} (h : n.isValidChar) : char? n = some (Char.ofNat n) := by
  rw [char?, dif_pos h, Char.ofNat, dif_pos h]

theorem char?_toNat (c : Char) : char? c.toNat = some c := by
  have hvalid : c.toNat.isValidChar := c.valid
  rw [char?_eq_some hvalid, Char.ofNat_toNat]

theorem char?_eq_none {n : Nat} (h : ¬ n.isValidChar) : char? n = none := by
  rw [char?, dif_neg h]

end CodePoint

namespace Literal

/-- The characters that a letter behind a backslash stands for. -/
inductive Control where
  | newline
  | tab
  | return
  | backspace
  | formFeed
  | verticalTab
  deriving DecidableEq, Repr

namespace Control

def letter : Control → Char
  | newline => 'n'
  | tab => 't'
  | .return => 'r'
  | backspace => 'b'
  | formFeed => 'f'
  | verticalTab => 'v'

def char : Control → Char
  | newline => '\n'
  | tab => '\t'
  | .return => '\r'
  | backspace => '\x08'
  | formFeed => '\x0c'
  | verticalTab => '\x0b'

end Control

/-- What a line can end with in a script. -/
inductive Terminator where
  | lf
  | crlf
  | cr
  | lineSeparator
  | paragraphSeparator
  deriving DecidableEq, Repr

def Terminator.chars : Terminator → List Char
  | lf => ['\n']
  | crlf => ['\r', '\n']
  | cr => ['\r']
  | lineSeparator => ['\u2028']
  | paragraphSeparator => ['\u2029']

/-- A character without a meaning of its own behind a backslash. -/
def Plain (c : Char) : Prop :=
  c.isDigit = false ∧
    c ∉ ['n', 't', 'r', 'b', 'f', 'v', 'x', 'u', '\n', '\r', '\u2028', '\u2029']

instance (c : Char) : Decidable (Plain c) := by
  unfold Plain
  infer_instance

inductive Element where
  /-- A character that stands for itself. -/
  | self (c : Char) (h : c ≠ '\\')
  | control (k : Control)
  | nul
  /-- A character by two digits. -/
  | byte (a b : HexDigit)
  /-- A UTF-16 code unit by four digits. -/
  | unit (a b c d : HexDigit)
  /-- A character by its code point, in braces. -/
  | point (digits : List HexDigit) (nonempty : digits ≠ [])
      (valid : (HexDigit.number digits).isValidChar)
  /-- A line break in the source that is not part of the text. -/
  | continuation (t : Terminator)
  /-- A backslash in front of a character that does not need one. -/
  | escaped (c : Char) (h : Plain c)
  deriving DecidableEq

namespace Element

def chars : Element → List Char
  | self c _ => [c]
  | control k => ['\\', k.letter]
  | nul => ['\\', '0']
  | byte a b => '\\' :: 'x' :: [a, b].map HexDigit.char
  | unit a b c d => '\\' :: 'u' :: [a, b, c, d].map HexDigit.char
  | point digits _ _ => '\\' :: 'u' :: '{' :: (digits.map HexDigit.char ++ ['}'])
  | continuation t => '\\' :: t.chars
  | escaped c _ => ['\\', c]

/-- The elements of a body one after the other. -/
def text (es : List Element) : List Char := es.flatMap chars

@[simp] theorem text_nil : text [] = [] := rfl

@[simp] theorem text_cons (e : Element) (es : List Element) :
    text (e :: es) = e.chars ++ text es := rfl

@[simp] theorem text_append (es fs : List Element) : text (es ++ fs) = text es ++ text fs :=
  List.flatMap_append

/-- What follows does not change how an element reads: no digit behind `\0`, no line feed behind a
continued carriage return. -/
def Before : Element → List Char → Prop
  | nul, rest => ∀ c ∈ rest.head?, c.isDigit = false
  | continuation .cr, rest => rest.head? ≠ some '\n'
  | _, _ => True

/-- Every element can stand before the ones behind it. -/
def Spaced : List Element → Prop
  | [] => True
  | e :: es => e.Before (text es) ∧ Spaced es

theorem Spaced.right {es fs : List Element} (h : Spaced (es ++ fs)) : Spaced fs := by
  induction es with
  | nil => exact h
  | cons e es ih => exact ih h.2

/-- The code unit that an element names. -/
def codeUnit? : Element → Option Nat
  | unit a b c d => some (HexDigit.number [a, b, c, d])
  | _ => none

def isUnit (e : Element) : Bool := e.codeUnit?.isSome

/-- What an element stands for by itself. -/
def alone : Element → List Char
  | self c _ => [c]
  | control k => [k.char]
  | nul => ['\x00']
  | byte a b => [Char.ofNat (HexDigit.number [a, b])]
  | unit a b c d => [CodeUnit.lone (HexDigit.number [a, b, c, d])]
  | point digits _ _ => [Char.ofNat (HexDigit.number digits)]
  | continuation _ => []
  | escaped c _ => [c]

/-- What a run stands for: code units are decoded together. -/
def valueOfRun (run : List Element) : List Char :=
  if run.all isUnit then CodeUnit.decode (run.filterMap codeUnit?) else run.flatMap alone

/-- Adjacent code units make a run, and every other element is one. -/
def runs (es : List Element) : List (List Element) :=
  es.splitBy fun e f => e.isUnit && f.isUnit

/-- The text that a body spells. -/
def value (es : List Element) : List Char := (runs es).flatMap valueOfRun

end Element

end Literal

end CursorCommand
