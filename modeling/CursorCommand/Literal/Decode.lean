import CursorCommand.Literal.Escape

/-!
# Values of literals

The value of a string literal, or of a template literal without substitutions, is its text without
the delimiters and with every escape replaced by what it stands for.
-/
namespace CursorCommand

namespace Literal

/-- The text between the delimiters. The closing delimiter is missing in broken sources; then all
behind the opening one counts. -/
def body : List Char → List Char
  | [] => []
  | delimiter :: cs => if cs.getLast? = some delimiter then cs.dropLast else cs

/-- A body with every escape replaced by what it stands for. -/
def decode : List Char → List Char
  | [] => []
  | c :: cs =>
    if c = '\\' then (Escape.read cs).1 ++ decode (Escape.read cs).2
    else c :: decode cs
termination_by cs => cs.length
decreasing_by
  · exact Nat.lt_succ_of_le (Escape.length_read_le cs)
  · exact Nat.lt_succ_self _

/-- What a body stands for. One without a backslash is taken as it is. -/
def cook (cs : List Char) : List Char := if cs.contains '\\' then decode cs else cs

/-- The value of a literal, delimiters included in the text. -/
def value (text : List Char) : List Char := cook (body text)

@[simp] theorem decode_nil : decode [] = [] := by rw [decode]

theorem decode_backslash (cs : List Char) :
    decode ('\\' :: cs) = (Escape.read cs).1 ++ decode (Escape.read cs).2 := by
  rw [decode]
  simp

theorem decode_cons {c : Char} (h : c ≠ '\\') (cs : List Char) :
    decode (c :: cs) = c :: decode cs := by
  rw [decode]
  simp [h]

/-- What stands in front of the first backslash is taken as it is. -/
theorem decode_append {p : List Char} (h : '\\' ∉ p) (cs : List Char) :
    decode (p ++ cs) = p ++ decode cs := by
  induction p with
  | nil => rfl
  | cons c p ih =>
    rw [List.mem_cons, not_or] at h
    rw [List.cons_append, decode_cons (Ne.symm h.1), ih h.2, List.cons_append]

/-- A body without a backslash is its own value. -/
theorem decode_eq_self {cs : List Char} (h : '\\' ∉ cs) : decode cs = cs := by
  simpa using decode_append h []

theorem cook_eq_decode (cs : List Char) : cook cs = decode cs := by
  rw [cook]
  split
  · rfl
  · rename_i h
    exact (decode_eq_self (by simpa using h)).symm

end Literal

end CursorCommand
