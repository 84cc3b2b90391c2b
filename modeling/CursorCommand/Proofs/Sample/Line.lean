import CursorCommand.Sample
import Mathlib.Data.List.Basic

/-!
# Lines of code

A line may leave a function open or close one, and a suite or a test may start at it: this is told
from the two ends of the line, its blanks aside. An idle line does none of it. Where a block
starts, its name stands in quotes.
-/
namespace CursorCommand

/-- A line of code without its line break. -/
abbrev CodeLine := List Char

namespace CodeLine

/-- The pieces of a text between its line breaks. -/
def ofText (text : String) : List CodeLine := text.toList.splitOn '\n'

/-- How many blanks a line begins with. -/
def indentation (l : CodeLine) : Nat := (l.takeWhile (· == ' ')).length

def unindented (l : CodeLine) : CodeLine := l.dropWhile (· == ' ')

/-- A line that leaves a function open. -/
def Opens (l : CodeLine) : Prop := "() => \x7b".toList <:+ l

/-- Blanks and the end of a call with a function. -/
def Closes (l : CodeLine) : Prop := l.unindented = "\x7d);".toList

def StartsSuite (l : CodeLine) : Prop := "describe(\"suite ".toList <+: l.unindented

def StartsTest (l : CodeLine) : Prop :=
  ∃ callee ∈ Sample.callees, (callee ++ "(\"case ").toList <+: l.unindented

def StartsBlock (l : CodeLine) : Prop := l.StartsSuite ∨ l.StartsTest

/-- What stands between the first two quotes. -/
def quoted (l : CodeLine) : List Char := (l.dropWhile (· != '"')).tail.takeWhile (· != '"')

instance : DecidablePred Opens := fun l =>
  inferInstanceAs (Decidable ("() => \x7b".toList <:+ l))

instance : DecidablePred Closes := fun l =>
  inferInstanceAs (Decidable (l.unindented = "\x7d);".toList))

instance : DecidablePred StartsSuite := fun l =>
  inferInstanceAs (Decidable ("describe(\"suite ".toList <+: l.unindented))

instance : DecidablePred StartsTest := fun l =>
  inferInstanceAs (Decidable (∃ callee ∈ Sample.callees,
    (callee ++ "(\"case ").toList <+: l.unindented))

instance : DecidablePred StartsBlock := fun l =>
  inferInstanceAs (Decidable (l.StartsSuite ∨ l.StartsTest))

/-! ### What the ends of a line say -/

variable {l : CodeLine}

theorem Opens.getLast? (h : l.Opens) : l.getLast? = some '\x7b' := by
  obtain ⟨front, rfl⟩ := h
  simp

theorem Closes.head? (h : l.Closes) : l.unindented.head? = some '\x7d' := by
  rw [h]
  rfl

theorem Closes.getLast? (h : l.Closes) : l.getLast? = some ';' := by
  have hl : l = l.takeWhile (· == ' ') ++ "\x7d);".toList := by
    rw [← h]
    exact List.takeWhile_append_dropWhile.symm
  rw [hl, List.getLast?_append]
  rfl

theorem Opens.not_closes (h : l.Opens) : ¬ l.Closes := by
  intro hc
  cases h.getLast?.symm.trans hc.getLast?

theorem StartsSuite.head? (h : l.StartsSuite) : l.unindented.head? = some 'd' := by
  obtain ⟨rest, hrest⟩ := h
  rw [← hrest]
  rfl

theorem StartsTest.head? (h : l.StartsTest) :
    l.unindented.head? ∈ [some 'i', some 't', some 'x'] := by
  obtain ⟨callee, hcallee, rest, hrest⟩ := h
  have hfirst : ∀ k ∈ Sample.callees, k.toList ≠ [] ∧
      k.toList.head? ∈ [some 'i', some 't', some 'x'] := by decide
  obtain ⟨hne, hhead⟩ := hfirst callee hcallee
  rw [← hrest, String.toList_append, List.append_assoc, List.head?_append_of_ne_nil _ hne]
  exact hhead

theorem StartsSuite.not_startsTest (h : l.StartsSuite) : ¬ l.StartsTest := by
  intro ht
  have hhead := ht.head?
  rw [h.head?] at hhead
  revert hhead
  decide

theorem Closes.not_startsBlock (h : l.Closes) : ¬ l.StartsBlock := by
  rintro (hs | ht)
  · cases h.head?.symm.trans hs.head?
  · have hhead := ht.head?
    rw [h.head?] at hhead
    revert hhead
    decide

/-- A line behind blanks. -/
def indent (n : Nat) (l : CodeLine) : CodeLine := List.replicate n ' ' ++ l

theorem unindented_indent (n : Nat) (h : l.head? ≠ some ' ') : (indent n l).unindented = l := by
  rw [unindented, indent, List.dropWhile_append_of_pos (by simp)]
  cases l with
  | nil => rfl
  | cons c cs => exact List.dropWhile_cons_of_neg (by simpa using h)

theorem indentation_indent (n : Nat) (h : l.head? ≠ some ' ') : (indent n l).indentation = n := by
  rw [indentation, indent, List.takeWhile_append_of_pos (by simp)]
  cases l with
  | nil => simp
  | cons c cs =>
    rw [List.takeWhile_cons_of_neg (by simpa using h), List.append_nil, List.length_replicate]

/-- A line at which nothing opens, closes or starts. -/
structure Idle (l : CodeLine) : Prop where
  not_opens : ¬ l.Opens
  not_closes : ¬ l.Closes
  not_startsBlock : ¬ l.StartsBlock

/-- An idle statement can be told by its first and its last character. -/
theorem idle_indent (n : Nat) {c : Char} (hfirst : l.head? = some c)
    (hother : c ∉ [' ', '\x7d', 'd', 'i', 't', 'x']) (hlast : l.getLast? = some ';') :
    (indent n l).Idle := by
  have hunindented : (indent n l).unindented.head? = some c := by
    rw [unindented_indent n (by grind), hfirst]
  refine ⟨?_, ?_, ?_⟩
  · intro h
    have hl := h.getLast?
    rw [indent, List.getLast?_append, hlast] at hl
    cases hl
  · intro h
    have hc := hunindented.symm.trans h.head?
    grind
  · rintro (h | h)
    · have hc := hunindented.symm.trans h.head?
      grind
    · have hc := h.head?
      rw [hunindented] at hc
      grind

/-- The names that are quoted in the lines of one kind. -/
def names (p : CodeLine → Prop) [DecidablePred p] (ls : List CodeLine) : List (List Char) :=
  (ls.filter p).map quoted

section

variable (p : CodeLine → Prop) [DecidablePred p]

theorem names_append (ls ls' : List CodeLine) :
    names p (ls ++ ls') = names p ls ++ names p ls' := by
  rw [names, List.filter_append, List.map_append]
  rfl

theorem names_flatMap {α : Type} (xs : List α) (f : α → List CodeLine) :
    names p (xs.flatMap f) = xs.flatMap fun x => names p (f x) := by
  rw [names, List.filter_flatMap, List.map_flatMap]
  rfl

variable {p}

theorem names_eq_nil {ls : List CodeLine} (h : ∀ l ∈ ls, ¬ p l) : names p ls = [] := by
  rw [names, List.filter_eq_nil_iff.mpr (by simpa using h), List.map_nil]

theorem names_singleton (h : p l) : names p [l] = [l.quoted] := by
  rw [names, List.filter_cons_of_pos (by simpa using h), List.filter_nil, List.map_singleton]

theorem length_names (ls : List CodeLine) : (names p ls).length = ls.countP p := by
  rw [names, List.length_map, List.countP_eq_length_filter]

end

end CodeLine

end CursorCommand
