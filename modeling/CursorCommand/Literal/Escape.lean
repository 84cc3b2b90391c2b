import CursorCommand.Text.Unit

/-!
# Escape sequences of string literals

`Escape.read` takes the text behind a backslash and gives the characters that the escape stands for,
with the rest of the text. A sequence that is begun but not finished stands for its letter alone,
and the digits it took are gone. `\uXXXX` names a UTF-16 code unit: a high surrogate followed by an
escaped low one is one character, and any other surrogate is the replacement character.
-/
namespace CursorCommand

namespace Escape

/-- At most `count` hexadecimal digits from the front: their value, how many are missing, and the
rest. -/
def hexDigits : (count value : Nat) → List Char → Nat × Nat × List Char
  | 0, value, cs => (value, 0, cs)
  | count + 1, value, [] => (value, count + 1, [])
  | count + 1, value, c :: cs =>
    match Hex.digit? c with
    | some d => hexDigits count (value * 16 + d) cs
    | none => (value, count + 1, c :: cs)

/-- Exactly `count` hexadecimal digits. The rest lacks the digits that were there, also when they
are too few. -/
def hex (count : Nat) (cs : List Char) : Option Nat × List Char :=
  match hexDigits count 0 cs with
  | (value, 0, rest) => (some value, rest)
  | (_, _ + 1, rest) => (none, rest)

/-- Stands for a surrogate without its partner. -/
def replacement : Char := '\uFFFD'

/-- Values from here on do not take another hexadecimal digit: a code point is kept in 32 bits. -/
def braceLimit : Nat := Nat.pow 2 28

/-- The code point between braces, from behind the opening one, after digits of the given value. The
character that ends the sequence is taken in every case. -/
def braced (value : Nat) : List Char → Option Char × List Char
  | [] => (none, [])
  | c :: cs =>
    if c = '}' then (CodePoint.char? value, cs)
    else if value < braceLimit then
      match Hex.digit? c with
      | some d => braced (value * 16 + d) cs
      | none => (none, cs)
    else (none, cs)

/-- An escaped low surrogate at the front. -/
def lowSurrogate? : List Char → Option (Nat × List Char)
  | '\\' :: 'u' :: cs =>
    match hex 4 cs with
    | (some unit, rest) => if CodeUnit.isLow unit then some (unit, rest) else none
    | (none, _) => none
  | _ => none

/-- The character of a `\uXXXX` escape whose unit is known, given what follows. -/
def ofUnit (unit : Nat) (cs : List Char) : Option Char × List Char :=
  if CodeUnit.isHigh unit then
    match lowSurrogate? cs with
    | some (low, rest) => (CodePoint.char? (CodeUnit.pair unit low), rest)
    | none => (some replacement, cs)
  else (some ((CodePoint.char? unit).getD replacement), cs)

/-- The character of a `\u` escape, from behind the letter. -/
def unicode : List Char → Option Char × List Char
  | '{' :: cs => braced 0 cs
  | cs =>
    match hex 4 cs with
    | (some unit, rest) => ofUnit unit rest
    | (none, rest) => (none, rest)

/-- The character of a `\x` escape, from behind the letter. -/
def byte (cs : List Char) : Option Char × List Char :=
  match hex 2 cs with
  | (some value, rest) => (CodePoint.char? value, rest)
  | (none, rest) => (none, rest)

def startsWithDigit : List Char → Bool
  | c :: _ => c.isDigit
  | [] => false

/-- What an escape stands for, and the rest; the text starts behind the backslash. -/
def read : List Char → List Char × List Char
  | [] => (['\\'], [])
  | 'n' :: cs => (['\n'], cs)
  | 't' :: cs => (['\t'], cs)
  | 'r' :: cs => (['\r'], cs)
  | 'b' :: cs => (['\x08'], cs)
  | 'f' :: cs => (['\x0c'], cs)
  | 'v' :: cs => (['\x0b'], cs)
  | '0' :: cs => (if startsWithDigit cs then ['0'] else ['\x00'], cs)
  | 'x' :: cs =>
    let (c, rest) := byte cs
    ([c.getD 'x'], rest)
  | 'u' :: cs =>
    let (c, rest) := unicode cs
    ([c.getD 'u'], rest)
  | '\r' :: '\n' :: cs => ([], cs)
  | '\r' :: cs => ([], cs)
  | '\n' :: cs => ([], cs)
  | '\u2028' :: cs => ([], cs)
  | '\u2029' :: cs => ([], cs)
  | c :: cs => ([c], cs)

theorem length_hexDigits_le (count value : Nat) (cs : List Char) :
    (hexDigits count value cs).2.2.length ≤ cs.length := by
  fun_induction hexDigits count value cs with
  | case3 count value c cs d _ ih => exact Nat.le_succ_of_le ih
  | _ => simp

theorem length_hex_le (count : Nat) (cs : List Char) : (hex count cs).2.length ≤ cs.length := by
  have h := length_hexDigits_le count 0 cs
  unfold hex
  split <;> simp_all

theorem length_braced_le (value : Nat) (cs : List Char) :
    (braced value cs).2.length ≤ cs.length := by
  fun_induction braced value cs with
  | case3 value c cs _ _ d _ ih => exact Nat.le_succ_of_le ih
  | _ => simp

theorem length_lowSurrogate_le {cs rest : List Char} {unit : Nat}
    (h : lowSurrogate? cs = some (unit, rest)) : rest.length ≤ cs.length := by
  unfold lowSurrogate? at h
  split at h
  · next cs =>
    have hx := length_hex_le 4 cs
    split at h
    · next eq =>
      rw [eq] at hx
      simp only at hx
      split at h
      · simp only [Option.some.injEq, Prod.mk.injEq] at h
        obtain ⟨_, rfl⟩ := h
        simp only [List.length_cons]
        omega
      · simp at h
    · simp at h
  · simp at h

theorem length_ofUnit_le (unit : Nat) (cs : List Char) :
    (ofUnit unit cs).2.length ≤ cs.length := by
  unfold ofUnit
  split
  · split
    · next h => exact length_lowSurrogate_le h
    · simp
  · simp

theorem length_unicode_le (cs : List Char) : (unicode cs).2.length ≤ cs.length := by
  unfold unicode
  split
  · next cs => exact Nat.le_succ_of_le (length_braced_le 0 cs)
  · have h := length_hex_le 4 cs
    split
    · next unit rest eq =>
      rw [eq] at h
      exact Nat.le_trans (length_ofUnit_le unit rest) h
    · next rest eq => rwa [eq] at h

theorem length_byte_le (cs : List Char) : (byte cs).2.length ≤ cs.length := by
  have h := length_hex_le 2 cs
  unfold byte
  split
  · next eq => rwa [eq] at h
  · next eq => rwa [eq] at h

/-- An escape is never longer than what it takes, so reading goes on to the end of the text. -/
theorem length_read_le (cs : List Char) : (read cs).2.length ≤ cs.length := by
  fun_cases read cs with
  | case9 cs c rest h =>
    have := length_byte_le cs
    rw [h] at this
    exact Nat.le_succ_of_le this
  | case10 cs c rest h =>
    have := length_unicode_le cs
    rw [h] at this
    exact Nat.le_succ_of_le this
  | case11 cs => exact Nat.le_add_right cs.length 2
  | _ => simp

end Escape

end CursorCommand
