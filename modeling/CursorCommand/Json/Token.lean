import CursorCommand.Json.Quoted
import CursorCommand.Json.Numeral

/-!
# Tokens of JSON texts

A JSON text is a sequence of tokens with blanks between them. Reading tokens fails at the first
character that begins none.
-/
namespace CursorCommand

inductive Token where
  | openArray
  | closeArray
  | openObject
  | closeObject
  | comma
  | colon
  | null
  | bool (b : Bool)
  | number (n : Numeral)
  | string (pieces : List Quoted.Piece)
  deriving DecidableEq, Repr

namespace Token

/-- What may stand between tokens. -/
def isBlank (c : Char) : Bool := c == ' ' || c == '\t' || c == '\n' || c == '\r'

/-- The token at the front of a text that does not start with a blank, and what follows it. -/
def read : List Char → Option (Token × List Char)
  | '[' :: cs => some (.openArray, cs)
  | ']' :: cs => some (.closeArray, cs)
  | '{' :: cs => some (.openObject, cs)
  | '}' :: cs => some (.closeObject, cs)
  | ',' :: cs => some (.comma, cs)
  | ':' :: cs => some (.colon, cs)
  | '"' :: cs => (Quoted.read cs).map fun r => (.string r.1, r.2)
  | 'n' :: 'u' :: 'l' :: 'l' :: cs => some (.null, cs)
  | 't' :: 'r' :: 'u' :: 'e' :: cs => some (.bool true, cs)
  | 'f' :: 'a' :: 'l' :: 's' :: 'e' :: cs => some (.bool false, cs)
  | cs => (Numeral.read cs).map fun r => (.number r.1, r.2)

theorem length_read_lt {cs rest : List Char} {t : Token} (h : read cs = some (t, rest)) :
    rest.length < cs.length := by
  unfold read at h
  split at h
  case h_7 cs =>
    obtain ⟨⟨ps, r⟩, hr, heq⟩ := Option.map_eq_some_iff.1 h
    simp only [Prod.mk.injEq] at heq
    have := Quoted.length_read_lt hr
    rw [← heq.2]
    simp only [List.length_cons]
    omega
  case h_11 =>
    obtain ⟨⟨n, r⟩, hr, heq⟩ := Option.map_eq_some_iff.1 h
    simp only [Prod.mk.injEq] at heq
    rw [← heq.2]
    exact Numeral.length_read_lt hr
  all_goals
    simp only [Option.some.injEq, Prod.mk.injEq] at h
    rw [← h.2]
    simp only [List.length_cons]
    omega

theorem length_skip_le (cs : List Char) : (cs.dropWhile isBlank).length ≤ cs.length :=
  (List.dropWhile_suffix _).length_le

/-- The first token of a text, and what follows it; none when only blanks are left. -/
def next? (cs : List Char) : Option (Option (Token × List Char)) :=
  match cs.dropWhile isBlank with
  | [] => some none
  | d :: ds => (read (d :: ds)).map some

theorem length_next_lt {cs rest : List Char} {t : Token} (h : next? cs = some (some (t, rest))) :
    rest.length < cs.length := by
  have hskip := length_skip_le cs
  unfold next? at h
  split at h
  · simp at h
  · next heq =>
    obtain ⟨r, hr, hs⟩ := Option.map_eq_some_iff.1 h
    cases hs
    have := length_read_lt hr
    rw [heq] at hskip
    omega

def readAll (cs : List Char) : Option (List Token) :=
  match h : next? cs with
  | none => none
  | some none => some []
  | some (some (t, rest)) =>
    have := length_next_lt h
    (readAll rest).map (t :: ·)
termination_by cs.length

end Token

end CursorCommand
