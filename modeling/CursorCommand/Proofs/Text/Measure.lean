import CursorCommand.Text.Measure
import Mathlib.Order.Bounds.Basic

/-!
# Cutting text at a width, by what it does

`floor` cuts at the last boundary that is not past a width, and `ceil` at the first that is not
before it. What lies behind the cut has no say in it.
-/
namespace CursorCommand

namespace Measure

variable {m : Measure} {cs ds : List Char} {n : Nat}

theorem boundary_zero : m.Boundary cs 0 := ⟨[], List.nil_prefix, rfl⟩

/-- A boundary behind the first character is one of the rest. -/
theorem boundary_cons {c : Char} :
    m.Boundary (c :: cs) n ↔ n = 0 ∨ ∃ k, m.Boundary cs k ∧ n = m.width c + k := by
  constructor
  · intro h
    rcases h with ⟨ds, hprefix, rfl⟩
    cases ds with
    | nil => exact .inl rfl
    | cons d ds =>
      obtain ⟨rfl, hrest⟩ := List.cons_prefix_cons.mp hprefix
      exact .inr ⟨m.length ds, ⟨ds, hrest, rfl⟩, rfl⟩
  · intro h
    rcases h with rfl | ⟨k, ⟨ds, hprefix, rfl⟩, rfl⟩
    · exact boundary_zero
    · exact ⟨c :: ds, List.cons_prefix_cons.mpr ⟨rfl, hprefix⟩, rfl⟩

theorem floor_isGreatest (m : Measure) (n : Nat) (cs : List Char) :
    IsGreatest {k | m.Boundary cs k ∧ k ≤ n} (m.length (m.floor n cs)) := by
  constructor
  · exact ⟨⟨m.floor n cs, ⟨m.after n cs, m.floor_append_after n cs⟩, rfl⟩, m.length_floor_le n cs⟩
  · induction cs generalizing n with
    | nil =>
      rintro k ⟨hk, -⟩
      simpa using hk.le_length
    | cons c cs ih =>
      rintro k ⟨hk, hkn⟩
      rcases boundary_cons.mp hk with rfl | ⟨j, hj, rfl⟩
      · exact Nat.zero_le _
      · have hle := ih (n - m.width c) ⟨hj, by omega⟩
        rw [floor, if_pos (by omega), length_cons]
        omega

theorem ceil_isLeast (h : n ≤ m.length cs) :
    IsLeast {k | m.Boundary cs k ∧ n ≤ k} (m.length (m.ceil n cs)) := by
  induction cs generalizing n with
  | nil =>
    have hzero : n = 0 := by simpa using h
    subst hzero
    exact ⟨⟨boundary_zero, Nat.le_refl 0⟩, fun k _ => Nat.zero_le k⟩
  | cons c cs ih =>
    cases n with
    | zero => exact ⟨⟨boundary_zero, Nat.zero_le _⟩, fun k _ => Nat.zero_le k⟩
    | succ n =>
      rw [length_cons] at h
      obtain ⟨⟨hboundary, hge⟩, hleast⟩ := ih (n := n + 1 - m.width c) (by omega)
      rw [ceil, length_cons]
      constructor
      · exact ⟨boundary_cons.mpr (.inr ⟨_, hboundary, rfl⟩), by omega⟩
      · rintro k ⟨hk, hnk⟩
        rcases boundary_cons.mp hk with rfl | ⟨j, hj, rfl⟩
        · omega
        · have hle := hleast ⟨hj, by omega⟩
          omega

theorem ceil_of_length_le (h : m.length cs ≤ n) : m.ceil n cs = cs := by
  induction cs generalizing n with
  | nil => simp
  | cons c cs ih =>
    have hpos := m.width_pos c
    rw [length_cons] at h
    cases n with
    | zero => omega
    | succ n => rw [ceil, ih (by omega)]

theorem ceil_length_append (m : Measure) (cs ds : List Char) :
    m.ceil (m.length cs) (cs ++ ds) = cs := by
  induction cs with
  | nil => simp
  | cons c cs ih =>
    have hpos := m.width_pos c
    obtain ⟨n, hn⟩ : ∃ n, m.width c = n + 1 := ⟨m.width c - 1, by omega⟩
    have hwidth : m.length (c :: cs) = n + m.length cs + 1 := by
      rw [length_cons, hn]
      omega
    have hrest : n + m.length cs + 1 - m.width c = m.length cs := by omega
    rw [hwidth, List.cons_append, ceil, hrest, ih]

/-- A cut inside the first part of a text does not see the second. -/
theorem floor_append_left (h : n ≤ m.length cs) : m.floor n (cs ++ ds) = m.floor n cs := by
  induction cs generalizing n with
  | nil =>
    obtain rfl : n = 0 := by simpa using h
    simp
  | cons c cs ih =>
    rw [length_cons] at h
    rw [List.cons_append, floor, floor]
    split
    · rw [ih (by omega)]
    · rfl

/-- A cut behind the first part of a text is a cut of the second. -/
theorem floor_append_right (h : m.length cs ≤ n) :
    m.floor n (cs ++ ds) = cs ++ m.floor (n - m.length cs) ds := by
  induction cs generalizing n with
  | nil => simp
  | cons c cs ih =>
    rw [length_cons] at h
    have hrest : n - m.width c - m.length cs = n - m.length (c :: cs) := by
      rw [length_cons]
      omega
    rw [List.cons_append, floor, if_pos (by omega), ih (by omega), hrest, List.cons_append]

theorem floor_of_length_le (h : m.length cs ≤ n) : m.floor n cs = cs := by
  have hnil : m.floor n (cs ++ []) = cs ++ m.floor (n - m.length cs) [] := floor_append_right h
  simpa using hnil

theorem after_length_append_add (m : Measure) (cs ds : List Char) (n : Nat) :
    m.after (m.length cs + n) (cs ++ ds) = m.after n ds := by
  induction cs with
  | nil => simp
  | cons c cs ih =>
    have hrest : m.length (c :: cs) + n - m.width c = m.length cs + n := by
      rw [length_cons]
      omega
    rw [List.cons_append, after, if_pos (by rw [length_cons]; omega), hrest, ih]

/-- Text in front moves what lies between two widths and does not change it. -/
theorem slice_append (m : Measure) (cs ds : List Char) (start stop : Nat) :
    m.slice (start + m.length cs) (stop + m.length cs) (cs ++ ds) = m.slice start stop ds := by
  rw [slice, slice, Nat.add_sub_add_right, Nat.add_comm start, after_length_append_add]

theorem utf16_width_le (c : Char) : utf16.width c ≤ utf8.width c := by
  change (if c.toNat < 0x10000 then 1 else 2) ≤ c.utf8Size
  have hpos := c.utf8Size_pos
  split
  · exact hpos
  · rename_i hlarge
    by_contra hsmall
    have hone : c.val ≤ 127 := Char.utf8Size_eq_one_iff.mp (by omega)
    have hascii : c.toNat ≤ 127 := hone
    omega

/-- No text takes more units in UTF-16 than bytes in UTF-8. -/
theorem utf16_length_le (cs : List Char) : utf16.length cs ≤ utf8.length cs := by
  induction cs with
  | nil => exact Nat.le_refl 0
  | cons c cs ih =>
    have hwidth := utf16_width_le c
    rw [length_cons, length_cons]
    omega

theorem utf8_length_toList (text : String) : utf8.length text.toList = text.utf8ByteSize := by
  have hlist : ∀ cs : List Char, utf8.length cs = (String.ofList cs).utf8ByteSize := by
    intro cs
    induction cs with
    | nil => rfl
    | cons c cs ih =>
      have hcons : String.ofList (c :: cs) = String.singleton c ++ String.ofList cs := by
        rw [← List.singleton_append, String.ofList_append, String.singleton_eq_ofList]
      rw [length_cons, ih, hcons, String.utf8ByteSize_append, String.utf8ByteSize_singleton]
      rfl
  rw [hlist, String.ofList_toList]

end Measure

end CursorCommand
