import CursorCommand.Proofs.Command

/-!
# Templates taken apart

A template is texts without placeholders, with placeholders between them. No spelling of a
placeholder has a dollar sign but the one in front, so a spelling cannot begin in a text and end in
the placeholder behind it: the reading from left to right finds the placeholders of the one way to
take the template apart.
-/
namespace CursorCommand

namespace Placeholder

/-- A placeholder as it stands in a template. -/
def spelling : Placeholder → List Char
  | .workspaceRoot => "${workspaceRoot}".toList
  | .testFilePath => "${testFilePath}".toList
  | .relativeTestPath => "${relativeTestPath}".toList
  | .testName => "${testName}".toList
  | .fullTestName => "${fullTestName}".toList

theorem chars_eq_spelling (p : Placeholder) : p.chars = p.spelling := by
  cases p <;> rfl

theorem head?_spelling (p : Placeholder) : p.spelling.head? = some '$' := by
  cases p <;> rfl

theorem dollar_not_mem_tail (p : Placeholder) : '$' ∉ p.spelling.tail := by
  cases p <;> decide

theorem eq_of_isPrefix {p q : Placeholder} (h : p.spelling <+: q.spelling) : p = q := by
  rw [← List.isPrefixOf_iff_prefix] at h
  revert h
  cases p <;> cases q <;> decide

theorem atFront?_eq_none_iff {cs : List Char} :
    atFront? cs = none ↔ ∀ p : Placeholder, ¬ p.spelling <+: cs := by
  simp [atFront?, List.find?_eq_none, mem_all, chars_eq_spelling]

theorem atFront?_eq_some_iff {cs : List Char} {p : Placeholder} :
    atFront? cs = some p ↔ p.spelling <+: cs := by
  have hfront {q : Placeholder} (h : atFront? cs = some q) : q.spelling <+: cs := by
    simpa [chars_eq_spelling] using List.find?_some h
  constructor
  · exact hfront
  · intro h
    cases hfound : atFront? cs with
    | none => exact (atFront?_eq_none_iff.mp hfound p h).elim
    | some q =>
      have hq := hfront hfound
      rcases List.prefix_or_prefix_of_prefix h hq with hpq | hqp
      · rw [eq_of_isPrefix hpq]
      · rw [eq_of_isPrefix hqp]

/-- A spelling that begins in a text does not end behind it, where a placeholder follows. -/
theorem isPrefix_of_append {p : Placeholder} {text rest : List Char} (hne : text ≠ [])
    (hrest : ∀ c ∈ rest.head?, c = '$') (h : p.spelling <+: text ++ rest) : p.spelling <+: text := by
  rcases List.prefix_or_prefix_of_prefix h (List.prefix_append text rest) with hin | hout
  · exact hin
  · obtain ⟨excess, hexcess⟩ := hout
    cases excess with
    | nil =>
      rw [List.append_nil] at hexcess
      exact hexcess ▸ List.prefix_rfl
    | cons c excess =>
      have hc : c = '$' := by
        rw [← hexcess, List.prefix_append_right_inj] at h
        obtain ⟨more, rfl⟩ := h
        exact hrest c rfl
      have hmem : c ∈ p.spelling.tail := by
        rw [← hexcess, List.tail_append_of_ne_nil hne]
        simp
      exact (p.dollar_not_mem_tail (hc ▸ hmem)).elim

end Placeholder

namespace Template

/-- A text in which no placeholder is spelled; it may have parts of one. -/
def Plain (text : List Char) : Prop := ∀ p : Placeholder, ¬ p.spelling <:+: text

theorem plain_nil : Plain [] := by
  intro p h
  have hhead := p.head?_spelling
  rw [List.infix_nil.mp h] at hhead
  cases hhead

theorem Plain.tail {c : Char} {text : List Char} (h : Plain (c :: text)) : Plain text :=
  fun p hp => h p (hp.trans (List.suffix_cons c text).isInfix)

theorem Plain.cons {c : Char} {text : List Char} (h : Plain text)
    (hfront : ∀ p : Placeholder, ¬ p.spelling <+: c :: text) : Plain (c :: text) := by
  intro p hp
  rcases List.infix_cons_iff.mp hp with hprefix | hinfix
  · exact hfront p hprefix
  · exact h p hinfix

/-- A template taken apart: the text in front of all placeholders, and the placeholders, each with
the text behind it. -/
structure Layout where
  front : List Char
  rest : List (Placeholder × List Char)
  deriving DecidableEq, Repr

namespace Layout

/-- The texts of a layout, with something written in the place of each placeholder. -/
def write (l : Layout) (value : Placeholder → List Char) : List Char :=
  l.front ++ l.rest.flatMap fun r => value r.1 ++ r.2

/-- The template that is taken apart. -/
def text (l : Layout) : List Char := l.write Placeholder.spelling

/-- No placeholder is left in a text. -/
structure Complete (l : Layout) : Prop where
  front : Plain l.front
  rest : ∀ r ∈ l.rest, Plain r.2

def pieces (l : Layout) : List Piece :=
  l.front.map .char ++ l.rest.flatMap fun r => .placeholder r.1 :: r.2.map .char

/-- The layout of some pieces: characters between two placeholders make a text. -/
def ofPieces : List Piece → Layout
  | [] => ⟨[], []⟩
  | .char c :: ps => ⟨c :: (ofPieces ps).front, (ofPieces ps).rest⟩
  | .placeholder p :: ps => ⟨[], (p, (ofPieces ps).front) :: (ofPieces ps).rest⟩

theorem ofPieces_append (cs : List Char) (ps : List Piece) :
    ofPieces (cs.map .char ++ ps) = ⟨cs ++ (ofPieces ps).front, (ofPieces ps).rest⟩ := by
  induction cs with
  | nil => rfl
  | cons c cs ih => rw [List.map_cons, List.cons_append, ofPieces, ih, List.cons_append]

theorem ofPieces_pieces (l : Layout) : ofPieces l.pieces = l := by
  rcases l with ⟨front, rest⟩
  have hrest : ofPieces (rest.flatMap fun r => .placeholder r.1 :: r.2.map .char) = ⟨[], rest⟩ := by
    induction rest with
    | nil => rfl
    | cons r rest ih =>
      rw [List.flatMap_cons, List.cons_append, ofPieces, ofPieces_append, ih, List.append_nil]
  rw [pieces, ofPieces_append, hrest, List.append_nil]

theorem write_ofPieces (ps : List Piece) (value : Placeholder → String) :
    (ofPieces ps).write (fun p => (value p).toList) = ps.flatMap (Piece.fill value) := by
  induction ps with
  | nil => rfl
  | cons piece ps ih =>
    rw [List.flatMap_cons, ← ih]
    cases piece with
    | char c => rfl
    | placeholder p => simp [ofPieces, write, Piece.fill]

end Layout

@[simp] theorem pieces_nil : pieces [] = [] := by rw [pieces]

theorem pieces_cons {c : Char} {cs : List Char} (h : Placeholder.atFront? (c :: cs) = none) :
    pieces (c :: cs) = .char c :: pieces cs := by
  rw [pieces, h]

theorem pieces_placeholder_append (p : Placeholder) (rest : List Char) :
    pieces (p.spelling ++ rest) = .placeholder p :: pieces rest := by
  have hfront : Placeholder.atFront? (p.spelling ++ rest) = some p :=
    Placeholder.atFront?_eq_some_iff.mpr (List.prefix_append _ _)
  have hcons : p.spelling ++ rest = '$' :: (p.spelling.tail ++ rest) := by cases p <;> rfl
  rw [hcons, pieces, ← hcons, hfront]
  simp only [p.chars_eq_spelling, List.drop_left]

/-- Reading keeps every character. -/
theorem text_ofPieces_pieces (cs : List Char) : (Layout.ofPieces (pieces cs)).text = cs := by
  induction cs using pieces.induct with
  | case1 => simp [Layout.ofPieces, Layout.text, Layout.write]
  | case2 c cs p hp ih =>
    obtain ⟨rest, hrest⟩ := Placeholder.atFront?_eq_some_iff.mp hp
    rw [← hrest, p.chars_eq_spelling, List.drop_left] at ih
    rw [← hrest, pieces_placeholder_append]
    simpa [Layout.ofPieces, Layout.text, Layout.write] using ih
  | case3 c cs hnone ih =>
    rw [pieces_cons hnone]
    simpa [Layout.ofPieces, Layout.text, Layout.write] using ih

/-- Reading leaves no placeholder in a text. -/
theorem complete_ofPieces_pieces (cs : List Char) : (Layout.ofPieces (pieces cs)).Complete := by
  induction cs using pieces.induct with
  | case1 =>
    rw [pieces_nil]
    exact ⟨plain_nil, by simp [Layout.ofPieces]⟩
  | case2 c cs p hp ih =>
    obtain ⟨rest, hrest⟩ := Placeholder.atFront?_eq_some_iff.mp hp
    rw [← hrest, p.chars_eq_spelling, List.drop_left] at ih
    rw [← hrest, pieces_placeholder_append]
    refine ⟨plain_nil, ?_⟩
    intro r hr
    rcases List.mem_cons.mp hr with rfl | hr
    · exact ih.front
    · exact ih.rest r hr
  | case3 c cs hnone ih =>
    rw [pieces_cons hnone]
    refine ⟨ih.front.cons ?_, ih.rest⟩
    intro p hp
    have hfront : (Layout.ofPieces (pieces cs)).front <+: cs := by
      conv => rhs; rw [← text_ofPieces_pieces cs]
      exact List.prefix_append _ _
    exact Placeholder.atFront?_eq_none_iff.mp hnone p
      (hp.trans (List.prefix_cons_inj c |>.mpr hfront))

theorem pieces_plain_append {text rest : List Char} (h : Plain text)
    (hrest : ∀ c ∈ rest.head?, c = '$') :
    pieces (text ++ rest) = text.map .char ++ pieces rest := by
  induction text with
  | nil => rfl
  | cons c text ih =>
    have hnone : Placeholder.atFront? (c :: (text ++ rest)) = none := by
      apply Placeholder.atFront?_eq_none_iff.mpr
      intro p hp
      have hin : p.spelling <+: c :: text :=
        Placeholder.isPrefix_of_append (List.cons_ne_nil c text) hrest hp
      exact h p hin.isInfix
    rw [List.cons_append, pieces_cons hnone, ih h.tail, List.map_cons, List.cons_append]

theorem head?_placeholders (rest : List (Placeholder × List Char)) :
    ∀ c ∈ (rest.flatMap fun r => r.1.spelling ++ r.2).head?, c = '$' := by
  cases rest with
  | nil => simp
  | cons r rest => simp [List.head?_append, r.1.head?_spelling]

theorem pieces_placeholders {rest : List (Placeholder × List Char)} (h : ∀ r ∈ rest, Plain r.2) :
    pieces (rest.flatMap fun r => r.1.spelling ++ r.2) =
      rest.flatMap fun r => .placeholder r.1 :: r.2.map .char := by
  induction rest with
  | nil => simp
  | cons r rest ih =>
    have hrest := ih fun r' hr' => h r' (List.mem_cons_of_mem r hr')
    rw [List.flatMap_cons, List.append_assoc, pieces_placeholder_append,
      pieces_plain_append (h r List.mem_cons_self) (head?_placeholders rest), hrest,
      List.flatMap_cons, List.cons_append]

/-- Reading a template finds the placeholders that it was put together with. -/
theorem pieces_text {l : Layout} (h : l.Complete) : pieces l.text = l.pieces := by
  rw [Layout.text, Layout.write, pieces_plain_append h.front (head?_placeholders l.rest),
    pieces_placeholders h.rest]
  rfl

/-- There is one way to take a template apart, and reading finds it. -/
theorem complete_iff (cs : List Char) (l : Layout) :
    l.Complete ∧ l.text = cs ↔ l = Layout.ofPieces (pieces cs) := by
  constructor
  · rintro ⟨hcomplete, rfl⟩
    rw [pieces_text hcomplete, Layout.ofPieces_pieces]
  · rintro rfl
    exact ⟨complete_ofPieces_pieces cs, text_ofPieces_pieces cs⟩

/-- A template with values in the place of its placeholders, where it is taken apart in the one way
that there is. -/
def Filled (value : Placeholder → String) (template command : String) : Prop :=
  ∃ layout : Layout, (∀ l : Layout, l.Complete ∧ l.text = template.toList ↔ l = layout) ∧
    command.toList = layout.write fun p => (value p).toList

theorem filled_fill (value : Placeholder → String) (template : String) :
    Filled value template (fill value template) := by
  refine ⟨Layout.ofPieces (pieces template.toList), complete_iff template.toList, ?_⟩
  rw [fill, String.toList_ofList, Layout.write_ofPieces]

end Template

/-- The command for a target is its template, taken apart in the one way there is, with the values
of the target as they are between the texts. The target decides what the values are. -/
theorem command_verbatim (t : Target) :
    ∃ value, (∀ v, t.Inserts v ↔ v = value) ∧
      ∀ template : String, Template.Filled value template (t.command template) :=
  ⟨t.value, fun _ => Target.inserts_iff, Template.filled_fill t.value⟩

/-- A name is inserted with its operators escaped, and a placeholder in it is not read again. -/
theorem command_verbatim_operators :
    let t : Target :=
      ⟨"C:\\w", "C:\\w\\a.ts", "\\s", ".*", some ⟨some "a+${testName}", [none], 0, 9⟩, true⟩
    ∃ value, t.Inserts value ∧
      Template.Filled value "${relativeTestPath} ${testFilePath} '${fullTestName}'"
        "a.ts C:/w/a.ts '.*\\sa\\+\\$\\\x7btestName\\\x7d'" := by
  intro t
  obtain ⟨value, hvalue, hfilled⟩ := command_verbatim t
  have hcommand : t.command "${relativeTestPath} ${testFilePath} '${fullTestName}'" =
      "a.ts C:/w/a.ts '.*\\sa\\+\\$\\\x7btestName\\\x7d'" := by decide +kernel
  exact ⟨value, (hvalue value).mpr rfl, hcommand ▸ hfilled _⟩

/-- Parts of placeholders stay where they are, also next to a whole one. -/
example :
    Template.Layout.ofPieces (Template.pieces "${${testName}}${fullTestName}$".toList) =
      ⟨"$\x7b".toList, [(.testName, "\x7d".toList), (.fullTestName, "$".toList)]⟩ := by
  decide +kernel

end CursorCommand
