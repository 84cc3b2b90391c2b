import CursorCommand.Proofs.Text.Position

/-!
# Complete lines in front of a text

A text that is empty or ends in a line feed leaves what stands behind it on lines of its own: the
lines of the whole are the lines of the front, as many as it has line breaks, followed by those of
the rest. So a position moves down by the number of line breaks and its offset by the bytes.
-/
namespace CursorCommand

namespace Line

/-- Nothing, or lines of which the last one ends in a line feed. -/
def Complete (cs : List Char) : Prop := cs = [] ∨ cs.getLast? = some '\n'

/-- How many line breaks a text has: line feeds, carriage returns, and the two in that order, which
are one. -/
def breaks : List Char → Nat
  | [] => 0
  | '\r' :: '\n' :: cs => breaks cs + 1
  | c :: cs => if c = '\n' ∨ c = '\r' then breaks cs + 1 else breaks cs

theorem Complete.tail {c : Char} {cs : List Char} (h : Complete (c :: cs)) : Complete cs := by
  cases cs with
  | nil => exact .inl rfl
  | cons d ds =>
    rcases h with h | h
    · cases h
    · exact .inr (by rwa [List.getLast?_cons_cons] at h)

theorem Complete.ne_nil {c : Char} {cs : List Char} (h : Complete (c :: cs)) (hc : c ≠ '\n') :
    cs ≠ [] := by
  intro hnil
  subst hnil
  rcases h with h | h
  · cases h
  · exact hc (Option.some.inj h)

theorem consHead_append (c : Char) {ls : List Line} (h : ls ≠ []) (ms : List Line) :
    consHead c (ls ++ ms) = consHead c ls ++ ms := by
  cases ls with
  | nil => exact (h rfl).elim
  | cons l ls => rfl

theorem length_consHead (c : Char) {ls : List Line} (h : ls ≠ []) :
    (consHead c ls).length = ls.length := by
  cases ls with
  | nil => exact (h rfl).elim
  | cons l ls => rfl

/-- A text in front breaks into these lines whatever stands behind it. -/
structure Front (above : List Char) (ls : List Line) : Prop where
  join : Line.join ls = above
  split : ∀ cs, Line.split (above ++ cs) = ls ++ Line.split cs

theorem Front.ending {above : List Char} {ls : List Line} (h : Front above ls) (e : Ending)
    (he : ∀ cs, Line.split (e.chars ++ (above ++ cs)) = ⟨[], e⟩ :: Line.split (above ++ cs)) :
    Front (e.chars ++ above) (⟨[], e⟩ :: ls) := by
  constructor
  · rw [join_cons, h.join, chars, List.nil_append]
  · intro cs
    rw [List.append_assoc, he, h.split, List.cons_append]

theorem Front.consHead {c : Char} {above : List Char} {ls : List Line} (h : Front above ls)
    (hlf : c ≠ '\n') (hcr : c ≠ '\r') (hne : ls ≠ []) :
    Front (c :: above) (Line.consHead c ls) := by
  constructor
  · rw [join_consHead, h.join]
  · intro cs
    rw [List.cons_append, split_plain hlf hcr, h.split, consHead_append c hne]

/-- Complete lines are as many as their line breaks, and stay what they are in front of a text. -/
theorem Complete.exists_front {above : List Char} (h : Complete above) :
    ∃ ls, ls.length = breaks above ∧ Front above ls := by
  fun_induction breaks above with
  | case1 => exact ⟨[], rfl, rfl, fun _ => rfl⟩
  | case2 above ih =>
    obtain ⟨ls, hlength, hfront⟩ := ih h.tail.tail
    exact ⟨⟨[], .crlf⟩ :: ls, by rw [List.length_cons, hlength],
      hfront.ending .crlf fun cs => split_crlf (above ++ cs)⟩
  | case3 c above hcrlf hbreak ih =>
    obtain ⟨ls, hlength, hfront⟩ := ih h.tail
    rcases hbreak with rfl | rfl
    · exact ⟨⟨[], .lf⟩ :: ls, by rw [List.length_cons, hlength],
        hfront.ending .lf fun cs => split_lf (above ++ cs)⟩
    · refine ⟨⟨[], .cr⟩ :: ls, by rw [List.length_cons, hlength], hfront.ending .cr ?_⟩
      intro cs
      apply split_cr
      -- The front does not end here, so what follows the carriage return is its own.
      intro ds hds
      cases above with
      | nil => exact h.ne_nil (by decide) rfl
      | cons d above =>
        obtain ⟨rfl, -⟩ := List.cons.inj hds
        exact hcrlf above rfl rfl
  | case4 c above _ hbreak ih =>
    obtain ⟨hlf, hcr⟩ := not_or.mp hbreak
    obtain ⟨ls, hlength, hfront⟩ := ih h.tail
    have hne : ls ≠ [] := by
      intro hnil
      subst hnil
      exact h.ne_nil hlf hfront.join.symm
    exact ⟨consHead c ls, by rw [length_consHead c hne, hlength], hfront.consHead hlf hcr hne⟩

end Line

/-- Complete lines in front move a position down and its offset on. -/
theorem Position.offset?_below {above text : String} {p q : Position}
    (h : Line.Complete above.toList)
    (hline : q.line.toNat = p.line.toNat + Line.breaks above.toList)
    (hcharacter : q.character = p.character) :
    q.offset? (above ++ text) =
      (p.offset? text).map (· + Measure.utf8.length above.toList) := by
  obtain ⟨ls, hlength, hfront⟩ := h.exists_front
  rw [offset?, String.toList_append, hfront.split, hline, ← hlength, hcharacter,
    Line.offset?_append, hfront.join]
  rfl

end CursorCommand
