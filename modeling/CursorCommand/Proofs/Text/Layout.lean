import CursorCommand.Proofs.Text.Position

/-!
# Offsets from the lines of a text

A text is written as lines in one way only, so the offset of a position can be told from them: the
bytes of the lines above, and those of the shortest beginning of the position's own line that holds
as many code units as its character asks for. It stays between characters and in front of the
line's ending.
-/
namespace CursorCommand

/-- The cut at a width is the first one that reaches it. -/
theorem Measure.ceil_isPrefix_of_le {m : Measure} {cs ds : List Char} {n : Nat} (h : ds <+: cs)
    (hn : n ≤ m.length ds) : m.ceil n cs <+: ds := by
  induction cs generalizing n ds with
  | nil => exact m.ceil_nil n ▸ List.nil_prefix
  | cons c cs ih =>
    cases n with
    | zero => exact List.nil_prefix
    | succ n =>
      cases ds with
      | nil => cases hn
      | cons d ds =>
        obtain ⟨rfl, hrest⟩ := List.cons_prefix_cons.mp h
        rw [length_cons] at hn
        exact List.cons_prefix_cons.mpr ⟨rfl, ih hrest (by omega)⟩

namespace Line

/-- The shortest beginning of a body that is at least `column` code units wide, or all of the body
where none is. -/
structure ShortestFront (body : List Char) (column : Nat) (front : List Char) : Prop where
  isPrefix : front <+: body
  reaches : column ≤ Measure.utf16.length front ∨ front = body
  shortest : ∀ other, other <+: body → column ≤ Measure.utf16.length other → front <+: other

theorem shortestFront_ceil (body : List Char) (column : Nat) :
    ShortestFront body column (Measure.utf16.ceil column body) where
  isPrefix := Measure.utf16.ceil_isPrefix column body
  reaches := by
    rcases Nat.le_total column (Measure.utf16.length body) with hle | hle
    · exact .inl (Measure.ceil_isLeast hle).1.2
    · exact .inr (Measure.ceil_of_length_le hle)
  shortest := fun _ => Measure.ceil_isPrefix_of_le

theorem ShortestFront.unique {body front front' : List Char} {column : Nat}
    (h : ShortestFront body column front) (h' : ShortestFront body column front') :
    front = front' := by
  have hle {a b : List Char} (ha : ShortestFront body column a) (hb : ShortestFront body column b) :
      a <+: b := by
    rcases hb.reaches with hreaches | rfl
    · exact ha.shortest b hb.isPrefix hreaches
    · exact ha.isPrefix
  exact (hle h h').eq_of_length_le (hle h' h).length_le

theorem offset?_getElem? {ls : List Line} {line : Nat} {l : Line} (hl : ls[line]? = some l)
    (column : Nat) :
    offset? ls line column =
      some (Measure.utf8.length (join (ls.take line)) + byteOfColumn l.body column) := by
  obtain ⟨hline, rfl⟩ := List.getElem?_eq_some_iff.mp hl
  have habove := offset?_append (ls.take line) (ls.drop line) 0 column
  rw [List.take_append_drop, List.length_take_of_le (Nat.le_of_lt hline), Nat.zero_add,
    List.drop_eq_getElem_cons hline] at habove
  rw [habove, offset?, Option.map_some, Nat.add_comm]

theorem lt_length_of_offset? {ls : List Line} {line column offset : Nat}
    (h : offset? ls line column = some offset) : line < ls.length := by
  by_contra hpast
  rw [offset?_eq_none_iff.mpr (Nat.le_of_not_lt hpast)] at h
  cases h

/-- A beginning of a line, behind the lines above, is a beginning of the text. -/
theorem boundary_front {ls : List Line} {line : Nat} {l : Line} {front : List Char}
    (hl : ls[line]? = some l) (hfront : front <+: l.body) :
    Measure.utf8.Boundary (join ls)
      (Measure.utf8.length (join (ls.take line)) + Measure.utf8.length front) := by
  obtain ⟨hline, rfl⟩ := List.getElem?_eq_some_iff.mp hl
  refine ⟨join (ls.take line) ++ front, ?_, Measure.length_append _ _ _⟩
  have hsplit : join ls = join (ls.take line) ++ join (ls.drop line) := by
    rw [join, join, join, ← List.flatMap_append, List.take_append_drop]
  rw [hsplit, List.drop_eq_getElem_cons hline, join_cons, chars, List.prefix_append_right_inj,
    List.append_assoc]
  exact hfront.trans (List.prefix_append _ _)

end Line

namespace Position

/-- The offset of a position on a line: the bytes of the lines above and of the shortest beginning
of the line that reaches the position's character. -/
def At (ls : List Line) (p : Position) (offset : Nat) : Prop :=
  ∃ l front, ls[p.line.toNat]? = some l ∧ Line.ShortestFront l.body p.character.toNat front ∧
    offset = Measure.utf8.length (Line.join (ls.take p.line.toNat)) + Measure.utf8.length front

theorem offset?_eq_of_join {text : String} {ls : List Line} (hbroken : Line.Broken ls)
    (htext : text.toList = Line.join ls) (p : Position) :
    p.offset? text = Line.offset? ls p.line.toNat p.character.toNat := by
  rw [offset?, htext, hbroken.split_join]

theorem offset?_eq_some_iff_at {text : String} {ls : List Line} (hbroken : Line.Broken ls)
    (htext : text.toList = Line.join ls) {p : Position} {offset : Nat} :
    p.offset? text = some offset ↔ p.At ls offset := by
  rw [offset?_eq_of_join hbroken htext]
  constructor
  · intro h
    have hl := List.getElem?_eq_getElem (Line.lt_length_of_offset? h)
    rw [Line.offset?_getElem? hl, Option.some.injEq] at h
    exact ⟨_, _, hl, Line.shortestFront_ceil _ _, h.symm⟩
  · rintro ⟨l, front, hl, hfront, rfl⟩
    rw [Line.offset?_getElem? hl, hfront.unique (Line.shortestFront_ceil _ _)]
    rfl

theorem exists_at {text : String} {ls : List Line} {p : Position} (hbroken : Line.Broken ls)
    (htext : text.toList = Line.join ls) (hline : p.line.toNat < ls.length) :
    ∃ offset, p.offset? text = some offset ∧ p.At ls offset := by
  have hl := List.getElem?_eq_getElem hline
  rw [offset?_eq_of_join hbroken htext]
  exact ⟨_, Line.offset?_getElem? hl _, _, _, hl, Line.shortestFront_ceil _ _, rfl⟩

/-- In a text written as lines a position on one of them has the offset that the lines tell, which
lies between characters and not behind the body of its line; past the last line there is none. -/
theorem offset_by_lines (text : String) (ls : List Line) (hbroken : Line.Broken ls)
    (htext : text.toList = Line.join ls) (p : Position) :
    (∀ l, ls[p.line.toNat]? = some l →
      ∃ front, Line.ShortestFront l.body p.character.toNat front ∧
        p.offset? text = some (Measure.utf8.length (Line.join (ls.take p.line.toNat)) +
          Measure.utf8.length front)) ∧
    (ls.length ≤ p.line.toNat → p.offset? text = none) ∧
    ∀ offset, p.offset? text = some offset →
      Measure.utf8.Boundary text.toList offset ∧
      ∃ l, ls[p.line.toNat]? = some l ∧
        Measure.utf8.length (Line.join (ls.take p.line.toNat)) ≤ offset ∧
        offset ≤ Measure.utf8.length (Line.join (ls.take p.line.toNat)) +
          Measure.utf8.length l.body := by
  rw [offset?_eq_of_join hbroken htext]
  refine ⟨?on, Line.offset?_eq_none_iff.mpr, ?within⟩
  case on =>
    intro l hl
    exact ⟨_, Line.shortestFront_ceil l.body p.character.toNat, Line.offset?_getElem? hl _⟩
  case within =>
    intro offset hsome
    have hline : p.line.toNat < ls.length := Line.lt_length_of_offset? hsome
    have hl := List.getElem?_eq_getElem hline
    have hfront := Measure.utf16.ceil_isPrefix p.character.toNat ls[p.line.toNat].body
    rw [Line.offset?_getElem? hl, Option.some.injEq] at hsome
    subst hsome
    refine ⟨htext ▸ Line.boundary_front hl hfront, _, hl, Nat.le_add_right _ _, ?_⟩
    exact Nat.add_le_add_left (Line.byteOfColumn_le _ _) _

/-- Runs of line breaks of every kind, and a character that ends inside a surrogate pair. -/
theorem offset_by_lines_runs :
    let text := "é\r\r\n\n\r😀b"
    let ls : List Line :=
      [⟨['é'], .cr⟩, ⟨[], .crlf⟩, ⟨[], .lf⟩, ⟨[], .cr⟩, ⟨['😀', 'b'], .none⟩]
    Line.Broken ls ∧ text.toList = Line.join ls ∧
      (∃ front, Line.ShortestFront ['😀', 'b'] 1 front ∧
        offset? text ⟨4, 1⟩ = some (Measure.utf8.length (Line.join (ls.take 4)) +
          Measure.utf8.length front)) ∧
      offset? text ⟨4, 1⟩ = some 11 ∧ Measure.utf8.Boundary text.toList 11 ∧
      offset? text ⟨5, 0⟩ = none := by
  intro text ls
  have hsplit : Line.split text.toList = ls := by decide
  have hbroken : Line.Broken ls := hsplit ▸ Line.broken_split text.toList
  have htext : text.toList = Line.join ls := hsplit ▸ (Line.join_split text.toList).symm
  have heleven : offset? text ⟨4, 1⟩ = some 11 := by decide
  obtain ⟨hon, -, hwithin⟩ := offset_by_lines text ls hbroken htext ⟨4, 1⟩
  obtain ⟨-, hpast, -⟩ := offset_by_lines text ls hbroken htext ⟨5, 0⟩
  exact ⟨hbroken, htext, hon ⟨['😀', 'b'], .none⟩ rfl, heleven, (hwithin 11 heleven).1,
    hpast (by decide)⟩

end Position

end CursorCommand
