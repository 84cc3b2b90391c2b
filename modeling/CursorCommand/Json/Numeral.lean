/-!
# Numbers in JSON texts

A number is kept as it is written: a sign, digits before and behind the point, and an exponent.
Plain naturals have an exact value. Of all others only the magnitude counts, as a number too large
for the largest double is refused.
-/
namespace CursorCommand

/-- The exponent of a numeral: a sign and digits. -/
structure Exponent where
  negative : Bool
  digits : List Char
  deriving DecidableEq, Repr

/-- A written number. There is no point when the fraction is empty. -/
structure Numeral where
  negative : Bool
  whole : List Char
  fraction : List Char
  exponent : Option Exponent
  deriving DecidableEq, Repr

namespace Numeral

def ofNat (n : Nat) : Numeral := ⟨false, Nat.toDigits 10 n, [], none⟩

/-- The value of a numeral without sign, fraction and exponent. -/
def natural? (n : Numeral) : Option Nat :=
  if !n.negative && n.fraction.isEmpty && n.exponent.isNone then
    some (Nat.ofDigitChars 10 n.whole 0)
  else none

/-- A text without the digits at its front. -/
def digits (cs : List Char) : List Char × List Char :=
  (cs.takeWhile Char.isDigit, cs.dropWhile Char.isDigit)

/-- The digits before the point: at least one, and none behind a zero at the front. -/
def readWhole (cs : List Char) : Option (List Char × List Char) :=
  match digits cs with
  | ([], _) => none
  | ('0' :: _ :: _, _) => none
  | (ds, rest) => some (ds, rest)

/-- The digits behind the point, if there is one: then at least one. -/
def readFraction : List Char → Option (List Char × List Char)
  | '.' :: cs =>
    match digits cs with
    | ([], _) => none
    | (ds, rest) => some (ds, rest)
  | cs => some ([], cs)

/-- A sign, and whether it is a minus. -/
def readSign : List Char → Bool × List Char
  | '-' :: cs => (true, cs)
  | '+' :: cs => (false, cs)
  | cs => (false, cs)

/-- The exponent, if there is one: a sign may stand before its digits. -/
def readExponent : List Char → Option (Option Exponent × List Char)
  | [] => some (none, [])
  | c :: cs =>
    if c = 'e' ∨ c = 'E' then
      match digits (readSign cs).2 with
      | ([], _) => none
      | (ds, rest) => some (some ⟨(readSign cs).1, ds⟩, rest)
    else some (none, c :: cs)

/-- The minus sign of a number, if there is one. -/
def readMinus : List Char → Bool × List Char
  | '-' :: cs => (true, cs)
  | cs => (false, cs)

/-- The numeral at the front of a text, and what follows it. -/
def read (cs : List Char) : Option (Numeral × List Char) := do
  let (negative, cs) := readMinus cs
  let (whole, cs) ← readWhole cs
  let (fraction, cs) ← readFraction cs
  let (exponent, cs) ← readExponent cs
  return (⟨negative, whole, fraction, exponent⟩, cs)

def exponentChars : Option Exponent → List Char
  | none => []
  | some e => 'e' :: (if e.negative then ['-'] else []) ++ e.digits

def chars (n : Numeral) : List Char :=
  (if n.negative then ['-'] else []) ++ n.whole ++
    (if n.fraction.isEmpty then [] else '.' :: n.fraction) ++ exponentChars n.exponent

/-! ### Magnitude

The digits of a number are taken into a significand of 64 bits as long as they fit. Digits of the
whole part that do not fit each raise the exponent by one, and digits of the fraction that are taken
lower it by one. The significand and the power of ten are rounded to doubles and multiplied. -/

/-- Significands stay below this. -/
def significandBound : Nat := Nat.pow 2 64

def digitValue (c : Char) : Nat := c.toNat - '0'.toNat

/-- The significand of leading digits that fit behind `value`, and the digits left over. -/
def absorb (value : Nat) : List Char → Nat × List Char
  | [] => (value, [])
  | c :: cs =>
    if value * 10 + digitValue c < significandBound then absorb (value * 10 + digitValue c) cs
    else (value, c :: cs)

/-- The significand of a number and the power of ten it is to be scaled by. -/
def scientific (n : Numeral) : Nat × Int :=
  let whole := absorb 0 n.whole
  let all := absorb whole.1 n.fraction
  let written : Int :=
    match n.exponent with
    | none => 0
    | some e =>
      let size : Int := Nat.ofDigitChars 10 e.digits 0
      if e.negative then -size else size
  (all.1, (whole.2.length : Int) - ((n.fraction.length - all.2.length : Nat) : Int) + written)

/-- A natural number rounded to 53 binary digits, a tie to the even neighbour. -/
def roundToDouble (n : Nat) : Nat :=
  if n < Nat.pow 2 53 then n
  else
    let unit := Nat.pow 2 (n.log2 - 52)
    let quotient := n / unit
    let rest := n % unit
    if 2 * rest < unit ∨ (2 * rest = unit ∧ quotient % 2 = 0) then quotient * unit
    else (quotient + 1) * unit

/-- The largest power of ten that is a finite double has this exponent. -/
def maxPower : Nat := 308

/-- Doubles end below this. -/
def doubleBound : Nat := Nat.pow 2 1024

def inRange (n : Numeral) : Bool :=
  let (significand, power) := n.scientific
  match power with
  | .negSucc _ => true
  | .ofNat power =>
    significand == 0 ||
      (power ≤ maxPower &&
        roundToDouble (roundToDouble significand * roundToDouble (Nat.pow 10 power)) < doubleBound)

theorem length_digits_le (cs : List Char) : (digits cs).2.length ≤ cs.length :=
  (List.dropWhile_suffix _).length_le

theorem length_readMinus_le (cs : List Char) : (readMinus cs).2.length ≤ cs.length := by
  unfold readMinus
  split <;> simp

theorem length_readSign_le (cs : List Char) : (readSign cs).2.length ≤ cs.length := by
  unfold readSign
  split <;> simp

theorem length_digits_lt {cs ds rest : List Char} (h : digits cs = (ds, rest)) (hd : ds ≠ []) :
    rest.length < cs.length := by
  simp only [digits, Prod.mk.injEq] at h
  have hsum : (cs.takeWhile Char.isDigit ++ cs.dropWhile Char.isDigit).length = cs.length := by
    rw [List.takeWhile_append_dropWhile]
  rw [h.1, h.2, List.length_append] at hsum
  have := List.length_pos_iff.2 hd
  omega

theorem length_readWhole_lt {cs ds rest : List Char} (h : readWhole cs = some (ds, rest)) :
    rest.length < cs.length := by
  unfold readWhole at h
  split at h
  · simp at h
  · simp at h
  · next hne _ heq =>
    simp only [Option.some.injEq, Prod.mk.injEq] at h
    obtain ⟨rfl, rfl⟩ := h
    exact length_digits_lt heq hne

theorem length_readFraction_le {cs ds rest : List Char} (h : readFraction cs = some (ds, rest)) :
    rest.length ≤ cs.length := by
  unfold readFraction at h
  split at h
  · next cs =>
    have hd := length_digits_le cs
    split at h
    · simp at h
    · next heq =>
      simp only [Option.some.injEq, Prod.mk.injEq] at h
      rw [heq] at hd
      simp only [List.length_cons]
      simp only [h.2] at hd
      omega
  · simp only [Option.some.injEq, Prod.mk.injEq] at h
    simp [h.2]

theorem length_readExponent_le {cs rest : List Char} {e : Option Exponent}
    (h : readExponent cs = some (e, rest)) : rest.length ≤ cs.length := by
  unfold readExponent at h
  split at h
  · simp only [Option.some.injEq, Prod.mk.injEq] at h
    simp [← h.2]
  · next c cs =>
    have hs := length_readSign_le cs
    have hd := length_digits_le (readSign cs).2
    split at h
    · split at h
      · simp at h
      · next heq =>
        simp only [Option.some.injEq, Prod.mk.injEq] at h
        rw [heq] at hd
        simp only [h.2] at hd
        simp only [List.length_cons]
        omega
    · simp only [Option.some.injEq, Prod.mk.injEq] at h
      simp [← h.2]

theorem length_read_lt {cs rest : List Char} {n : Numeral} (h : read cs = some (n, rest)) :
    rest.length < cs.length := by
  simp only [read, Option.bind_eq_bind, Option.bind_eq_some_iff, Option.pure_def,
    Option.some.injEq, Prod.mk.injEq, Prod.exists] at h
  obtain ⟨_, _, h1, _, _, h2, _, _, h3, _, rfl⟩ := h
  have := length_readMinus_le cs
  have := length_readWhole_lt h1
  have := length_readFraction_le h2
  have := length_readExponent_le h3
  omega

end Numeral

end CursorCommand
