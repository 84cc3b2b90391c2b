import CursorCommand.Proofs.Text.Line
import CursorCommand.Text.Position

/-!
# Positions and offsets, there and back

An offset and its position lead back to each other, up to the rounding that a cursor cannot avoid:
bytes inside a character move back to its start and columns inside one move on to its end, and an
offset behind the carriage return of a line ending of two characters moves in front of it.
-/
namespace CursorCommand

namespace Line

theorem columnOfByte_byteOfColumn (body : List Char) (column : Nat) :
    columnOfByte body (byteOfColumn body column) =
      Measure.utf16.length (Measure.utf16.ceil column body) := by
  obtain ⟨rest, hrest⟩ := Measure.utf16.ceil_isPrefix column body
  have hfloor := Measure.utf8.floor_length_append (Measure.utf16.ceil column body) rest
  rw [hrest] at hfloor
  rw [columnOfByte, byteOfColumn, hfloor]

theorem byteOfColumn_columnOfByte (body : List Char) (byte : Nat) :
    byteOfColumn body (columnOfByte body byte) =
      Measure.utf8.length (Measure.utf8.floor byte body) := by
  have hceil := Measure.utf16.ceil_length_append (Measure.utf8.floor byte body)
    (Measure.utf8.after byte body)
  rw [Measure.floor_append_after] at hceil
  rw [byteOfColumn, columnOfByte, hceil]

theorem byteOfColumn_le (body : List Char) (column : Nat) :
    byteOfColumn body column ≤ Measure.utf8.length body := by
  have hboundary : Measure.utf8.Boundary body (byteOfColumn body column) :=
    ⟨_, Measure.utf16.ceil_isPrefix column body, rfl⟩
  exact hboundary.le_length

theorem columnOfByte_le (body : List Char) (byte : Nat) :
    columnOfByte body byte ≤ Measure.utf8.length body :=
  calc columnOfByte body byte
    _ ≤ Measure.utf8.length (Measure.utf8.floor byte body) := Measure.utf16_length_le _
    _ ≤ Measure.utf8.length body := (Measure.floor_isGreatest _ byte body).1.1.le_length

theorem offset?_append (ls ms : List Line) (line column : Nat) :
    offset? (ls ++ ms) (line + ls.length) column =
      (offset? ms line column).map (· + Measure.utf8.length (join ls)) := by
  induction ls with
  | nil => simp
  | cons l ls ih =>
    have hadd : ∀ n, l.byteLength + (n + Measure.utf8.length (join ls)) =
        n + Measure.utf8.length (join (l :: ls)) := by
      intro n
      rw [join_cons, Measure.length_append, byteLength]
      omega
    rw [List.cons_append, List.length_cons, ← Nat.add_assoc, offset?, ih, Option.map_map]
    exact congrArg (fun f => (offset? ms line column).map f) (funext hadd)

theorem locate_singleton (l : Line) (offset : Nat) :
    locate [l] offset = (0, columnOfByte l.body offset) := by
  rw [locate]

theorem locate_cons {l : Line} {ls : List Line} (hne : ls ≠ []) (offset : Nat) :
    locate (l :: ls) offset =
      if offset < l.byteLength then (0, columnOfByte l.body offset)
      else ((locate ls (offset - l.byteLength)).1 + 1, (locate ls (offset - l.byteLength)).2) := by
  cases ls with
  | nil => exact (hne rfl).elim
  | cons next ls => rw [locate]

theorem byteLength_eq (l : Line) :
    l.byteLength = Measure.utf8.length l.body + Measure.utf8.length l.ending.chars := by
  rw [byteLength, chars, Measure.length_append]

theorem length_body_lt {l : Line} (h : l.ending ≠ .none) :
    Measure.utf8.length l.body < l.byteLength := by
  have hpos := Ending.length_pos h
  rw [byteLength_eq]
  omega

/-- A position on a line that exists leads to an offset that is located there again. -/
theorem Broken.locate_offset? {ls : List Line} (h : Broken ls) {line : Nat} {l : Line}
    (hl : ls[line]? = some l) (column : Nat) :
    ∃ offset, offset? ls line column = some offset ∧
      locate ls offset = (line, Measure.utf16.length (Measure.utf16.ceil column l.body)) := by
  induction h generalizing line with
  | @last body _ =>
    cases line with
    | zero =>
      cases hl
      refine ⟨byteOfColumn body column, rfl, ?_⟩
      rw [locate_singleton, columnOfByte_byteOfColumn]
    | succ line => cases hl
  | @more first ls _ hending _ hrest ih =>
    cases line with
    | zero =>
      obtain rfl := Option.some.inj hl
      have hlt := Nat.lt_of_le_of_lt (byteOfColumn_le first.body column) (length_body_lt hending)
      refine ⟨byteOfColumn first.body column, rfl, ?_⟩
      rw [locate_cons hrest.ne_nil, if_pos hlt, columnOfByte_byteOfColumn]
    | succ line =>
      obtain ⟨offset, hoffset, hlocate⟩ := ih hl
      refine ⟨first.byteLength + offset, by rw [offset?, hoffset]; rfl, ?_⟩
      rw [locate_cons hrest.ne_nil, if_neg (by omega), Nat.add_sub_cancel_left, hlocate]

/-- Both counts of a location stay within the bytes of the text. -/
theorem Broken.locate_le {ls : List Line} (h : Broken ls) (offset : Nat) :
    (locate ls offset).1 ≤ Measure.utf8.length (join ls) ∧
      (locate ls offset).2 ≤ Measure.utf8.length (join ls) := by
  induction h generalizing offset with
  | @last body _ =>
    have hcolumn := columnOfByte_le body offset
    have hjoin : Measure.utf8.length body ≤ Measure.utf8.length (join [⟨body, .none⟩]) := by
      simp [chars]
    rw [locate_singleton]
    exact ⟨Nat.zero_le _, Nat.le_trans hcolumn hjoin⟩
  | @more first ls _ hending _ hrest ih =>
    have hfirst := length_body_lt hending
    have hlen : Measure.utf8.length (join (first :: ls)) =
        first.byteLength + Measure.utf8.length (join ls) := by
      rw [join_cons, Measure.length_append, byteLength]
    rw [locate_cons hrest.ne_nil, hlen]
    split
    · have hcolumn := columnOfByte_le first.body offset
      simp only
      omega
    · obtain ⟨hline, hcolumn⟩ := ih (offset - first.byteLength)
      simp only
      omega

/-- Where a cursor put at offset `n` of a text stands: at the last character boundary up to it, or
in front of the line ending that this boundary would split. -/
def Rounds (cs : List Char) (n back : Nat) : Prop :=
  ∃ b, IsGreatest {k | Measure.utf8.Boundary cs k ∧ k ≤ min n (Measure.utf8.length cs)} b ∧
    (InsideEnding cs b → back + 1 = b) ∧ (¬ InsideEnding cs b → back = b)

theorem rounds_iff {cs : List Char} {n back : Nat} :
    Rounds cs n back ↔
      (InsideEnding cs (Measure.utf8.length (Measure.utf8.floor n cs)) →
        back + 1 = Measure.utf8.length (Measure.utf8.floor n cs)) ∧
      (¬ InsideEnding cs (Measure.utf8.length (Measure.utf8.floor n cs)) →
        back = Measure.utf8.length (Measure.utf8.floor n cs)) := by
  have hgreatest : IsGreatest
      {k | Measure.utf8.Boundary cs k ∧ k ≤ min n (Measure.utf8.length cs)}
      (Measure.utf8.length (Measure.utf8.floor n cs)) := by
    obtain ⟨⟨hboundary, hle⟩, hupper⟩ := Measure.floor_isGreatest Measure.utf8 n cs
    constructor
    · exact ⟨hboundary, Nat.le_min.mpr ⟨hle, hboundary.le_length⟩⟩
    · exact fun k hk => hupper ⟨hk.1, Nat.le_trans hk.2 (Nat.min_le_left _ _)⟩
  constructor
  · intro h
    rcases h with ⟨b, hb, hinside, houtside⟩
    obtain rfl := hb.unique hgreatest
    exact ⟨hinside, houtside⟩
  · intro h
    rcases h with ⟨hinside, houtside⟩
    exact ⟨_, hgreatest, hinside, houtside⟩

theorem rounds_in_body {body rest : List Char} {n : Nat} (hbody : Unbroken body)
    (hfloor : Measure.utf8.floor n (body ++ rest) = Measure.utf8.floor n body) :
    Rounds (body ++ rest) n (Measure.utf8.length (Measure.utf8.floor n body)) := by
  rw [rounds_iff, hfloor]
  have hle := (Measure.floor_isGreatest Measure.utf8 n body).1.1.le_length
  constructor
  · intro hinside
    exact (not_insideEnding hbody hle hinside).elim
  · intro _
    rfl

theorem rounds_in_ending (before after : List Char) :
    Rounds (before ++ '\r' :: '\n' :: after) (Measure.utf8.length before + 1)
      (Measure.utf8.length before) := by
  have hfloor : Measure.utf8.floor (Measure.utf8.length before + 1)
      (before ++ '\r' :: '\n' :: after) = before ++ ['\r'] := by
    rw [Measure.floor_append_right (Nat.le_add_right _ 1), Nat.add_sub_cancel_left]
    rfl
  have hlen : Measure.utf8.length (before ++ ['\r']) = Measure.utf8.length before + 1 := by
    rw [Measure.length_append]
    rfl
  rw [rounds_iff, hfloor, hlen]
  constructor
  · intro _
    rfl
  · intro houtside
    exact (houtside ⟨before, after, rfl, rfl⟩).elim

theorem Rounds.behind {l : Line} {ls : List Line} {n back : Nat} (hbody : Unbroken l.body)
    (hnext : l.ending = .cr → (join ls).head? ≠ some '\n') (hn : l.byteLength ≤ n)
    (h : Rounds (join ls) (n - l.byteLength) back) :
    Rounds (join (l :: ls)) n (l.byteLength + back) := by
  have hfloor : Measure.utf8.length (Measure.utf8.floor n (join (l :: ls))) =
      l.byteLength + Measure.utf8.length (Measure.utf8.floor (n - l.byteLength) (join ls)) := by
    rw [join_cons, Measure.floor_append_right hn, Measure.length_append, byteLength]
  rw [rounds_iff] at h ⊢
  rw [hfloor, insideEnding_behind hbody hnext]
  constructor
  · intro hinside
    have hback := h.1 hinside
    omega
  · intro houtside
    rw [h.2 houtside]

/-- Inside a line but behind its body there is only the middle of its ending. -/
theorem between_ending {l : Line} {n : Nat} (hbody : Measure.utf8.length l.body < n)
    (hline : n < l.byteLength) :
    l.ending = .crlf ∧ n = Measure.utf8.length l.body + 1 := by
  have hlen := Ending.length_le l.ending
  rw [byteLength_eq] at hline
  split at hlen
  · rename_i hcrlf
    exact ⟨hcrlf, by omega⟩
  · omega

/-- An offset is located at its character boundary, or in front of the ending that it splits. -/
theorem Broken.offset?_locate {ls : List Line} (h : Broken ls) (offset : Nat) :
    ∃ back, offset? ls (locate ls offset).1 (locate ls offset).2 = some back ∧
      Rounds (join ls) offset back := by
  induction h generalizing offset with
  | @last body hbody =>
    refine ⟨_, by rw [locate_singleton, offset?, byteOfColumn_columnOfByte], ?_⟩
    have hjoin : join [⟨body, .none⟩] = body ++ [] := by
      simp [chars, Ending.chars]
    rw [hjoin]
    exact rounds_in_body hbody (by rw [List.append_nil])
  | @more first ls hbody hending hnext hrest ih =>
    rw [locate_cons hrest.ne_nil]
    by_cases hoffset : offset < first.byteLength
    · rw [if_pos hoffset]
      refine ⟨_, by rw [offset?, byteOfColumn_columnOfByte], ?_⟩
      -- In the body of the line nothing is split; behind it only an ending of two characters.
      by_cases hin : offset ≤ Measure.utf8.length first.body
      · rw [join_cons, chars, List.append_assoc]
        exact rounds_in_body hbody (Measure.floor_append_left hin)
      · obtain ⟨hcrlf, rfl⟩ := between_ending (by omega) hoffset
        rw [Measure.floor_of_length_le (by omega), join_cons, chars, hcrlf, List.append_assoc]
        exact rounds_in_ending first.body (join ls)
    · rw [if_neg hoffset]
      obtain ⟨back, hback, hrounds⟩ := ih (offset - first.byteLength)
      refine ⟨first.byteLength + back, by rw [offset?, hback]; rfl, ?_⟩
      exact hrounds.behind hbody hnext (by omega)

end Line

namespace Position

theorem toNat_ofOffset {text : String} (hlen : text.utf8ByteSize < UInt32.size) (offset : Nat) :
    (ofOffset text offset).line.toNat = (Line.locate (Line.split text.toList) offset).1 ∧
      (ofOffset text offset).character.toNat =
        (Line.locate (Line.split text.toList) offset).2 := by
  obtain ⟨hline, hcharacter⟩ := (Line.broken_split text.toList).locate_le offset
  rw [Line.join_split, Measure.utf8_length_toList] at hline hcharacter
  constructor
  · exact UInt32.toNat_ofNat_of_lt' (Nat.lt_of_le_of_lt hline hlen)
  · exact UInt32.toNat_ofNat_of_lt' (Nat.lt_of_le_of_lt hcharacter hlen)

/-- Where a cursor asked to stand at `column` of a line comes to stand: at the first character
boundary from there on, or at the end of the line. -/
def Reaches (body : List Char) (column reached : Nat) : Prop :=
  if column ≤ Measure.utf16.length body then
    IsLeast {k | Measure.utf16.Boundary body k ∧ column ≤ k} reached
  else reached = Measure.utf16.length body

theorem reaches_ceil (body : List Char) (column : Nat) :
    Reaches body column (Measure.utf16.length (Measure.utf16.ceil column body)) := by
  unfold Reaches
  split
  · exact Measure.ceil_isLeast ‹_›
  · rw [Measure.ceil_of_length_le (by omega)]

/-- Offsets and positions lead back to each other, up to rounding, in a text whose counts fit. -/
theorem offset_position_inverse (text : String) (hlen : text.utf8ByteSize < UInt32.size) :
    (∀ offset, ∃ back, (ofOffset text offset).offset? text = some back ∧
      Line.Rounds text.toList offset back) ∧
    (∀ (p : Position) (l : Line), (Line.split text.toList)[p.line.toNat]? = some l →
      ∃ offset, p.offset? text = some offset ∧ (ofOffset text offset).line = p.line ∧
        Reaches l.body p.character.toNat (ofOffset text offset).character.toNat) ∧
    Line.Broken (Line.split text.toList) ∧ Line.join (Line.split text.toList) = text.toList := by
  have hbroken := Line.broken_split text.toList
  have hjoin := Line.join_split text.toList
  refine ⟨?offset, ?position, hbroken, hjoin⟩
  case offset =>
    intro offset
    obtain ⟨back, hback, hrounds⟩ := hbroken.offset?_locate offset
    rw [hjoin] at hrounds
    obtain ⟨hline, hcharacter⟩ := toNat_ofOffset hlen offset
    refine ⟨back, ?_, hrounds⟩
    rw [offset?, hline, hcharacter, hback]
  case position =>
    intro p l hl
    obtain ⟨offset, hoffset, hlocate⟩ := hbroken.locate_offset? hl p.character.toNat
    obtain ⟨hline, hcharacter⟩ := toNat_ofOffset hlen offset
    rw [hlocate] at hline hcharacter
    refine ⟨offset, hoffset, UInt32.toNat_inj.mp hline, ?_⟩
    rw [hcharacter]
    exact reaches_ceil l.body p.character.toNat

/-- An offset that splits a line ending, and a column inside a surrogate pair. -/
theorem offset_position_inverse_split :
    ("é\r\n😀b".utf8ByteSize < UInt32.size ∧ (ofOffset "é\r\n😀b" 3).offset? "é\r\n😀b" = some 2 ∧
      Line.Rounds "é\r\n😀b".toList 3 2) ∧
    ∃ offset, offset? "é\r\n😀b" ⟨1, 1⟩ = some offset ∧ (ofOffset "é\r\n😀b" offset).line = 1 ∧
      Reaches ['😀', 'b'] 1 (ofOffset "é\r\n😀b" offset).character.toNat := by
  have hlen : "é\r\n😀b".utf8ByteSize < UInt32.size := by decide
  have hsplit : Line.split "é\r\n😀b".toList = [⟨['é'], .crlf⟩, ⟨['😀', 'b'], .none⟩] := by decide
  have hposition : ofOffset "é\r\n😀b" 3 = ⟨0, 1⟩ := by
    rw [ofOffset, hsplit, Line.locate_cons (List.cons_ne_nil _ _)]
    decide
  have hback : (ofOffset "é\r\n😀b" 3).offset? "é\r\n😀b" = some 2 := by
    rw [hposition]
    decide
  obtain ⟨hoffset, hcolumn, -, -⟩ := offset_position_inverse "é\r\n😀b" hlen
  obtain ⟨back, hsome, hrounds⟩ := hoffset 3
  obtain rfl := Option.some.inj (hback.symm.trans hsome)
  constructor
  · exact ⟨hlen, hback, hrounds⟩
  · exact hcolumn ⟨1, 1⟩ ⟨['😀', 'b'], .none⟩ (by decide)

end Position

end CursorCommand
