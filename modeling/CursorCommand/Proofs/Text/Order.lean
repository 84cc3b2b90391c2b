import CursorCommand.Proofs.Text.Position
import Mathlib.Data.Prod.Lex

/-!
# Positions and offsets in order

Positions are ordered as a text is read: by line, and on one line by character. On the positions
that stand inside their lines the two translations are adjoint: the offset of a position is the
first whose own position does not come before it. So neither of them ever turns the order round.
-/
namespace CursorCommand

/-- The shortest prefix that reaches a width in one measure and the longest that stays within a
width in another meet at the same cut. -/
theorem Measure.length_ceil_le_iff (m m' : Measure) {cs : List Char} {n k : Nat}
    (h : n ≤ m.length cs) :
    m'.length (m.ceil n cs) ≤ k ↔ n ≤ m.length (m'.floor k cs) := by
  induction cs generalizing n k with
  | nil =>
    have hzero : n = 0 := by simpa using h
    simp [hzero]
  | cons c cs ih =>
    cases n with
    | zero => simp
    | succ n =>
      rw [length_cons] at h
      have hrest := ih (n := n + 1 - m.width c) (k := k - m'.width c) (by omega)
      rw [ceil, length_cons, floor]
      split
      · rw [length_cons]
        omega
      · rw [length_nil]
        omega

namespace Line

theorem byteOfColumn_le_iff {body : List Char} {column : Nat}
    (h : column ≤ Measure.utf16.length body) (byte : Nat) :
    byteOfColumn body column ≤ byte ↔ column ≤ columnOfByte body byte :=
  Measure.length_ceil_le_iff Measure.utf16 Measure.utf8 h

theorem byteOfColumn_min (body : List Char) (column : Nat) :
    byteOfColumn body (min column (Measure.utf16.length body)) = byteOfColumn body column := by
  rcases Nat.le_total column (Measure.utf16.length body) with hle | hle
  · rw [Nat.min_eq_left hle]
  · rw [Nat.min_eq_right hle, byteOfColumn, byteOfColumn, Measure.ceil_of_length_le le_rfl,
      Measure.ceil_of_length_le hle]

/-- A column past the end of its line has the offset of the end. -/
theorem offset?_min {ls : List Line} {line : Nat} {l : Line} (hl : ls[line]? = some l)
    (column : Nat) :
    offset? ls line (min column (Measure.utf16.length l.body)) = offset? ls line column := by
  induction ls generalizing line with
  | nil => cases hl
  | cons first ls ih =>
    cases line with
    | zero =>
      obtain rfl := Option.some.inj hl
      rw [offset?, offset?, byteOfColumn_min]
    | succ line =>
      rw [offset?, offset?]
      exact congrArg _ (ih hl)

/-- The offset of a place stays at or before another offset exactly when the place does not come
behind the one where that offset is located. -/
theorem Broken.offset?_le_iff {ls : List Line} (h : Broken ls) {line column offset : Nat} {l : Line}
    (hl : ls[line]? = some l) (hcolumn : column ≤ Measure.utf16.length l.body)
    (hoffset : offset? ls line column = some offset) (other : Nat) :
    offset ≤ other ↔ toLex (line, column) ≤ toLex (locate ls other) := by
  induction h generalizing line offset other with
  | @last body _ =>
    cases line with
    | zero =>
      obtain rfl := Option.some.inj hl
      obtain rfl := Option.some.inj hoffset
      rw [locate_singleton, Prod.Lex.toLex_le_toLex, byteOfColumn_le_iff hcolumn]
      simp
    | succ line => cases hl
  | @more first ls _ hending _ hrest ih =>
    rw [locate_cons hrest.ne_nil, Prod.Lex.toLex_le_toLex]
    cases line with
    | zero =>
      obtain rfl := Option.some.inj hl
      obtain rfl := Option.some.inj hoffset
      have hlt := Nat.lt_of_le_of_lt (byteOfColumn_le first.body column) (length_body_lt hending)
      split
      · rw [byteOfColumn_le_iff hcolumn]
        simp
      · simp only [Nat.zero_lt_succ, true_or, iff_true]
        omega
    | succ line =>
      obtain ⟨rest, hsome, rfl⟩ := Option.map_eq_some_iff.mp hoffset
      split
      · simp only [Nat.not_lt_zero, Nat.succ_ne_zero, false_and, or_false, iff_false]
        omega
      · have hiff := ih hl hsome (other - first.byteLength)
        rw [Prod.Lex.toLex_le_toLex] at hiff
        simp only at hiff ⊢
        omega

/-- Every offset is located on a line that exists, and inside it. -/
theorem Broken.exists_locate {ls : List Line} (h : Broken ls) (offset : Nat) :
    ∃ l, ls[(locate ls offset).1]? = some l ∧
      (locate ls offset).2 ≤ Measure.utf16.length l.body := by
  have hcolumn : ∀ (body : List Char) (byte : Nat),
      columnOfByte body byte ≤ Measure.utf16.length body := fun body byte =>
    Measure.Boundary.le_length _
      ⟨_, ⟨Measure.utf8.after byte body, Measure.utf8.floor_append_after byte body⟩, rfl⟩
  induction h generalizing offset with
  | @last body _ =>
    rw [locate_singleton]
    exact ⟨_, rfl, hcolumn body offset⟩
  | @more first ls _ _ _ hrest ih =>
    rw [locate_cons hrest.ne_nil]
    split
    · exact ⟨first, rfl, hcolumn first.body offset⟩
    · exact ih (offset - first.byteLength)

/-- Of two places the one behind has no smaller offset, wherever their columns stand. -/
theorem Broken.offset?_mono {ls : List Line} (h : Broken ls) {line column line' column' a b : Nat}
    {l l' : Line} (hl : ls[line]? = some l) (hl' : ls[line']? = some l')
    (hle : toLex (line, column) ≤ toLex (line', column'))
    (ha : offset? ls line column = some a) (hb : offset? ls line' column' = some b) : a ≤ b := by
  rw [← offset?_min hl] at ha
  rw [← offset?_min hl'] at hb
  have hback := (h.offset?_le_iff hl' (Nat.min_le_right _ _) hb b).mp le_rfl
  refine (h.offset?_le_iff hl (Nat.min_le_right _ _) ha b).mpr (le_trans ?_ hback)
  rw [Prod.Lex.toLex_le_toLex] at hle ⊢
  rcases hle with hlt | ⟨heq, hcolumn⟩
  · exact .inl hlt
  · obtain rfl : line = line' := heq
    obtain rfl := Option.some.inj (hl.symm.trans hl')
    refine .inr ⟨rfl, ?_⟩
    simp only at hcolumn ⊢
    omega

theorem Broken.locate_mono {ls : List Line} (h : Broken ls) {a b : Nat} (hab : a ≤ b) :
    toLex (locate ls a) ≤ toLex (locate ls b) := by
  obtain ⟨l, hl, hcolumn⟩ := h.exists_locate a
  obtain ⟨offset, hoffset, -⟩ := h.locate_offset? hl (locate ls a).2
  have hadjoint := h.offset?_le_iff hl hcolumn hoffset
  exact (hadjoint b).mp (Nat.le_trans ((hadjoint a).mpr le_rfl) hab)

end Line

namespace Position

/-- Positions in the order of reading. -/
instance : LE Position where
  le p q := p.line < q.line ∨ p.line = q.line ∧ p.character ≤ q.character

instance (p q : Position) : Decidable (p ≤ q) :=
  inferInstanceAs (Decidable (p.line < q.line ∨ p.line = q.line ∧ p.character ≤ q.character))

theorem le_iff_toLex {p q : Position} :
    p ≤ q ↔ toLex (p.line.toNat, p.character.toNat) ≤ toLex (q.line.toNat, q.character.toNat) := by
  rw [Prod.Lex.toLex_le_toLex]
  change p.line < q.line ∨ p.line = q.line ∧ p.character ≤ q.character ↔ _
  rw [UInt32.lt_iff_toNat_lt, ← UInt32.toNat_inj, UInt32.le_iff_toNat_le]

theorem toLex_ofOffset {text : String} (hlen : text.utf8ByteSize < UInt32.size) (offset : Nat) :
    toLex ((ofOffset text offset).line.toNat, (ofOffset text offset).character.toNat) =
      toLex (Line.locate (Line.split text.toList) offset) := by
  obtain ⟨hline, hcharacter⟩ := toNat_ofOffset hlen offset
  rw [hline, hcharacter]

/-- In a text whose counts fit, the offset of a position inside its line is at most an offset
exactly when the position is at most the position of that offset; and both translations keep the
order, that of positions also for columns past the end of a line. -/
theorem offset_position_adjoint (text : String) (hlen : text.utf8ByteSize < UInt32.size) :
    (∀ (p : Position) (l : Line), (Line.split text.toList)[p.line.toNat]? = some l →
      p.character.toNat ≤ Measure.utf16.length l.body →
      ∃ offset, p.offset? text = some offset ∧
        ∀ other, offset ≤ other ↔ p ≤ ofOffset text other) ∧
    (∀ p q : Position, p ≤ q → q.line.toNat < (Line.split text.toList).length →
      ∃ a b, p.offset? text = some a ∧ q.offset? text = some b ∧ a ≤ b) ∧
    ∀ a b, a ≤ b → ofOffset text a ≤ ofOffset text b := by
  have hbroken := Line.broken_split text.toList
  refine ⟨?adjoint, ?positions, ?offsets⟩
  case adjoint =>
    intro p l hl hcharacter
    obtain ⟨offset, hoffset, -⟩ := hbroken.locate_offset? hl p.character.toNat
    refine ⟨offset, hoffset, ?_⟩
    intro other
    rw [le_iff_toLex, toLex_ofOffset hlen]
    exact hbroken.offset?_le_iff hl hcharacter hoffset other
  case positions =>
    intro p q hpq hline
    rw [le_iff_toLex] at hpq
    have hfirst : p.line.toNat < (Line.split text.toList).length :=
      Nat.lt_of_le_of_lt (Prod.Lex.monotone_fst _ _ hpq) hline
    have hp := List.getElem?_eq_getElem hfirst
    have hq := List.getElem?_eq_getElem hline
    obtain ⟨a, ha, -⟩ := hbroken.locate_offset? hp p.character.toNat
    obtain ⟨b, hb, -⟩ := hbroken.locate_offset? hq q.character.toNat
    exact ⟨a, b, ha, hb, hbroken.offset?_mono hp hq hpq ha hb⟩
  case offsets =>
    intro a b hab
    rw [le_iff_toLex, toLex_ofOffset hlen, toLex_ofOffset hlen]
    exact hbroken.locate_mono hab

/-- A column inside a surrogate pair, an offset inside the same character, and one that splits a
line ending. -/
theorem offset_position_adjoint_split :
    "é\r\n😀b".utf8ByteSize < UInt32.size ∧
      (∃ offset, offset? "é\r\n😀b" ⟨1, 1⟩ = some offset ∧
        (offset ≤ 7 ↔ ⟨1, 1⟩ ≤ ofOffset "é\r\n😀b" 7)) ∧
      (∃ a b, offset? "é\r\n😀b" ⟨0, 9⟩ = some a ∧ offset? "é\r\n😀b" ⟨1, 1⟩ = some b ∧ a ≤ b) ∧
      ofOffset "é\r\n😀b" 3 ≤ ofOffset "é\r\n😀b" 7 := by
  have hlen : "é\r\n😀b".utf8ByteSize < UInt32.size := by decide
  have hsplit : (Line.split "é\r\n😀b".toList)[(1 : UInt32).toNat]? =
      some ⟨['😀', 'b'], .none⟩ := by decide
  obtain ⟨hadjoint, hpositions, hoffsets⟩ := offset_position_adjoint "é\r\n😀b" hlen
  obtain ⟨offset, hoffset, hiff⟩ := hadjoint ⟨1, 1⟩ _ hsplit (by decide)
  refine ⟨hlen, ⟨offset, hoffset, hiff 7⟩, ?_, hoffsets 3 7 (by decide)⟩
  exact hpositions ⟨0, 9⟩ ⟨1, 1⟩ (by decide) (by decide)

end Position

end CursorCommand
