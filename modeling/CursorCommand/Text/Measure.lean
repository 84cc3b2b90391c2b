/-!
# Measures of text

A measure gives every character a positive width, such as its bytes in UTF-8 or its code units in
UTF-16. A text is cut at a width in two ways: by the longest prefix that stays within the width
(`floor`) and by the shortest prefix that reaches it (`ceil`). Both cut between characters.
-/
namespace CursorCommand

/-- A positive width for every character. -/
structure Measure where
  width : Char → Nat
  width_pos : ∀ c, 0 < width c

namespace Measure

def utf8 : Measure := ⟨Char.utf8Size, Char.utf8Size_pos⟩

/-- Code units in UTF-16: two for a character outside the basic plane. -/
def utf16 : Measure :=
  ⟨fun c => if c.toNat < 0x10000 then 1 else 2, fun c => by split <;> omega⟩

variable (m : Measure)

def length : List Char → Nat
  | [] => 0
  | c :: cs => m.width c + length cs

@[simp] theorem length_nil : m.length [] = 0 := rfl

@[simp] theorem length_cons (c : Char) (cs : List Char) :
    m.length (c :: cs) = m.width c + m.length cs := rfl

@[simp] theorem length_append (cs ds : List Char) :
    m.length (cs ++ ds) = m.length cs + m.length ds := by
  induction cs with
  | nil => simp
  | cons c cs ih => simp [ih, Nat.add_assoc]

/-- The longest prefix no wider than `n`. -/
def floor : Nat → List Char → List Char
  | _, [] => []
  | n, c :: cs => if m.width c ≤ n then c :: floor (n - m.width c) cs else []

/-- What `floor` leaves. -/
def after : Nat → List Char → List Char
  | _, [] => []
  | n, c :: cs => if m.width c ≤ n then after (n - m.width c) cs else c :: cs

/-- The shortest prefix at least as wide as `n`, or the whole text when it is narrower. -/
def ceil : Nat → List Char → List Char
  | _, [] => []
  | 0, _ => []
  | n + 1, c :: cs => c :: ceil (n + 1 - m.width c) cs

@[simp] theorem floor_nil (n : Nat) : m.floor n [] = [] := rfl

@[simp] theorem ceil_nil (n : Nat) : m.ceil n [] = [] := by cases n <;> rfl

@[simp] theorem ceil_zero (cs : List Char) : m.ceil 0 cs = [] := by cases cs <;> rfl

theorem floor_append_after (n : Nat) (cs : List Char) : m.floor n cs ++ m.after n cs = cs := by
  induction cs generalizing n with
  | nil => rfl
  | cons c cs ih =>
    simp only [floor, after]
    split
    · simp [ih]
    · rfl

theorem length_floor_le (n : Nat) (cs : List Char) : m.length (m.floor n cs) ≤ n := by
  induction cs generalizing n with
  | nil => simp
  | cons c cs ih =>
    simp only [floor]
    split
    · have := ih (n - m.width c)
      simp only [length_cons]
      omega
    · simp

@[simp] theorem floor_zero (cs : List Char) : m.floor 0 cs = [] := by
  cases cs with
  | nil => rfl
  | cons c cs =>
    have hpos := m.width_pos c
    rw [floor, if_neg (by omega)]

theorem floor_length_append (cs ds : List Char) : m.floor (m.length cs) (cs ++ ds) = cs := by
  induction cs with
  | nil => simp
  | cons c cs ih =>
    rw [length_cons, List.cons_append, floor, if_pos (Nat.le_add_right _ _),
      Nat.add_sub_cancel_left, ih]

/-- A width at which a text can be cut between two characters. -/
def Boundary (cs : List Char) (n : Nat) : Prop := ∃ ds, ds <+: cs ∧ m.length ds = n

theorem boundary_iff {cs : List Char} {n : Nat} :
    m.Boundary cs n ↔ m.length (m.floor n cs) = n := by
  constructor
  · rintro ⟨ds, ⟨es, rfl⟩, rfl⟩
    rw [floor_length_append]
  · intro h
    exact ⟨m.floor n cs, ⟨m.after n cs, m.floor_append_after n cs⟩, h⟩

instance (cs : List Char) (n : Nat) : Decidable (m.Boundary cs n) :=
  decidable_of_iff _ m.boundary_iff.symm

theorem Boundary.le_length {cs : List Char} {n : Nat} (h : m.Boundary cs n) :
    n ≤ m.length cs := by
  obtain ⟨ds, ⟨es, rfl⟩, rfl⟩ := h
  rw [length_append]
  exact Nat.le_add_right _ _

theorem ceil_isPrefix (n : Nat) (cs : List Char) : m.ceil n cs <+: cs := by
  induction cs generalizing n with
  | nil => simp
  | cons c cs ih =>
    cases n with
    | zero => simp
    | succ n => simpa [ceil] using ih _

/-- The part of a text from width `start` up to width `stop`. -/
def slice (start stop : Nat) (cs : List Char) : List Char :=
  m.floor (stop - start) (m.after start cs)

end Measure

end CursorCommand
