import CursorCommand.Text.Unit

/-!
# Strings in JSON texts

A string is written as characters and escapes between double quotes. Escapes by number name UTF-16
code units, so a written string is a list of characters and units; it has a value only when its
surrogates come in pairs.
-/
namespace CursorCommand

namespace Quoted

/-- A part of a written string: a character, as itself or by a short escape, or a unit by number. -/
inductive Piece where
  | char (c : Char)
  | unit (n : Nat)
  deriving DecidableEq, Repr

/-- The character of a short escape, by the letter behind the backslash. -/
def short? : Char → Option Char
  | '"' => some '"'
  | '\\' => some '\\'
  | '/' => some '/'
  | 'b' => some '\x08'
  | 'f' => some '\x0c'
  | 'n' => some '\n'
  | 'r' => some '\r'
  | 't' => some '\t'
  | _ => none

/-- The unit that four hexadecimal digits name. -/
def unit? (a b c d : Char) : Option Nat :=
  match Hex.digit? a, Hex.digit? b, Hex.digit? c, Hex.digit? d with
  | some w, some x, some y, some z => some (((w * 16 + x) * 16 + y) * 16 + z)
  | _, _, _, _ => none

/-- A piece in front of what is read behind it. -/
def push (p : Piece) (r : List Piece × List Char) : List Piece × List Char := (p :: r.1, r.2)

/-- A written string from behind its opening quote, and what follows the closing one. Control
characters have to be escaped. -/
def read : List Char → Option (List Piece × List Char)
  | '"' :: cs => some ([], cs)
  | '\\' :: 'u' :: a :: b :: c :: d :: cs =>
    match unit? a b c d with
    | some n => (read cs).map (push (.unit n))
    | none => none
  | '\\' :: e :: cs =>
    match short? e with
    | some c => (read cs).map (push (.char c))
    | none => none
  | '\\' :: [] => none
  | c :: cs => if c.toNat < 0x20 then none else (read cs).map (push (.char c))
  | [] => none

/-- The value of a written string, if its surrogates come in pairs. -/
def value? : List Piece → Option (List Char)
  | [] => some []
  | .char c :: ps => (value? ps).map (c :: ·)
  | .unit high :: .unit low :: ps =>
    if CodeUnit.isHigh high then
      if CodeUnit.isLow low then
        (CodePoint.char? (CodeUnit.pair high low)).bind fun c => (value? ps).map (c :: ·)
      else none
    else (CodePoint.char? high).bind fun c => (value? (.unit low :: ps)).map (c :: ·)
  | .unit n :: ps => (CodePoint.char? n).bind fun c => (value? ps).map (c :: ·)

def text? (ps : List Piece) : Option String := (value? ps).map String.ofList

/-- The last hexadecimal digits of a number, in lower case. -/
def hexChars (n : Nat) : List Char :=
  [Nat.digitChar (n / 16 % 16), Nat.digitChar (n % 16)]

/-- A character inside a string: quotes, backslashes and control characters are escaped. -/
def writeChar (c : Char) : List Char :=
  if c = '"' then ['\\', '"']
  else if c = '\\' then ['\\', '\\']
  else if c = '\x08' then ['\\', 'b']
  else if c = '\x0c' then ['\\', 'f']
  else if c = '\n' then ['\\', 'n']
  else if c = '\r' then ['\\', 'r']
  else if c = '\t' then ['\\', 't']
  else if c.toNat < 0x20 then ['\\', 'u', '0', '0'] ++ hexChars c.toNat
  else [c]

/-- A string with its quotes. -/
def write (cs : List Char) : List Char := '"' :: cs.flatMap writeChar ++ ['"']

theorem length_read_lt {cs rest : List Char} {ps : List Piece} (h : read cs = some (ps, rest)) :
    rest.length < cs.length := by
  fun_induction read cs generalizing ps with
  | case1 cs =>
    simp only [Option.some.injEq, Prod.mk.injEq] at h
    simp [h.2]
  | case2 a b c d cs n _ ih =>
    obtain ⟨⟨qs, r⟩, hr, heq⟩ := Option.map_eq_some_iff.1 h
    simp only [push, Prod.mk.injEq] at heq
    have := ih (heq.2 ▸ hr)
    simp only [List.length_cons]
    omega
  | case4 e cs c _ _ ih =>
    obtain ⟨⟨qs, r⟩, hr, heq⟩ := Option.map_eq_some_iff.1 h
    simp only [push, Prod.mk.injEq] at heq
    have := ih (heq.2 ▸ hr)
    simp only [List.length_cons]
    omega
  | case8 c cs _ _ _ _ _ ih =>
    obtain ⟨⟨qs, r⟩, hr, heq⟩ := Option.map_eq_some_iff.1 h
    simp only [push, Prod.mk.injEq] at heq
    have := ih (heq.2 ▸ hr)
    simp only [List.length_cons]
    omega
  | _ => simp at h

end Quoted

end CursorCommand
