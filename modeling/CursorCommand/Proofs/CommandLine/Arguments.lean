import CursorCommand.CommandLine.Arguments
import Mathlib.Data.List.Induction

/-!
# How argument lists are put together

Every list of arguments is, in exactly one way, a sequence of units and what ends their reading. A
unit is an option with its value, a flag or a positional argument; the value of an option may look
like anything. What the units ask for is said without their order, as far as it does not matter.
-/
namespace CursorCommand

/-- A text that is taken for an option, known or not. -/
def Dashed (text : String) : Prop := ['-', '-'] <+: text.toList

instance (text : String) : Decidable (Dashed text) :=
  inferInstanceAs (Decidable (['-', '-'] <+: text.toList))

/-- The options that there are. -/
def knownOptions : List String :=
  ["--workspace", "--config", "--command", "--update-snapshots", "--blocks", "--version", "--help"]

/-- An option with a value as it is written. -/
def ValueOption.spelling : ValueOption → String
  | .workspace => "--workspace"
  | .config => "--config"
  | .command => "--command"

/-- Arguments that are read together. -/
inductive ArgumentUnit where
  | value (option : ValueOption) (text : String)
  | updateSnapshots
  | blocks
  | positional (text : String) (plain : ¬ Dashed text)
  deriving DecidableEq

def ArgumentUnit.texts : ArgumentUnit → List String
  | value option text => [option.spelling, text]
  | updateSnapshots => ["--update-snapshots"]
  | blocks => ["--blocks"]
  | positional text _ => [text]

/-- What ends the reading of arguments, with all that is not read. -/
inductive ArgumentEnd where
  | all
  | version (rest : List String)
  | help (rest : List String)
  | missingValue (option : ValueOption)
  | unknown (text : String) (dashed : Dashed text) (other : text ∉ knownOptions)
      (rest : List String)

def ArgumentEnd.texts : ArgumentEnd → List String
  | all => []
  | version rest => "--version" :: rest
  | help rest => "--help" :: rest
  | missingValue option => [option.spelling]
  | unknown text _ _ rest => text :: rest

/-- An argument list taken apart. -/
structure Reading where
  units : List ArgumentUnit
  last : ArgumentEnd

namespace Argument

theorem ofText_spelling (option : ValueOption) : ofText option.spelling = .value option := by
  cases option <;> rfl

theorem ofText_of_not_mem {text : String} (h : text ∉ knownOptions) :
    ofText text = if ['-', '-'].isPrefixOf text.toList then .unknown else .positional := by
  simp only [knownOptions, List.mem_cons, List.not_mem_nil, or_false, not_or] at h
  simp [ofText, ValueOption.flag, h]

theorem ofText_of_not_dashed {text : String} (h : ¬ Dashed text) : ofText text = .positional := by
  have hother : text ∉ knownOptions := by
    intro hmem
    have hall : ∀ t ∈ knownOptions, ['-', '-'].isPrefixOf t.toList = true := by decide
    exact h (List.isPrefixOf_iff_prefix.mp (hall text hmem))
  rw [ofText_of_not_mem hother, if_neg (fun hp => h (List.isPrefixOf_iff_prefix.mp hp))]

theorem ofText_of_dashed {text : String} (h : Dashed text) (hother : text ∉ knownOptions) :
    ofText text = .unknown := by
  rw [ofText_of_not_mem hother, if_pos (List.isPrefixOf_iff_prefix.mpr h)]

/-- What a text is taken for says what the text is. -/
inductive Reads : String → Argument → Prop
  | value (option : ValueOption) : Reads option.spelling (.value option)
  | updateSnapshots : Reads "--update-snapshots" .updateSnapshots
  | blocks : Reads "--blocks" .blocks
  | version : Reads "--version" .version
  | help : Reads "--help" .help
  | unknown {text : String} : Dashed text → text ∉ knownOptions → Reads text .unknown
  | positional {text : String} : ¬ Dashed text → Reads text .positional

theorem reads_ofText (text : String) : Reads text (ofText text) := by
  by_cases h : text ∈ knownOptions
  · simp only [knownOptions, List.mem_cons, List.not_mem_nil, or_false] at h
    rcases h with rfl | rfl | rfl | rfl | rfl | rfl | rfl
    · exact .value .workspace
    · exact .value .config
    · exact .value .command
    · exact .updateSnapshots
    · exact .blocks
    · exact .version
    · exact .help
  · by_cases hdashed : Dashed text
    · rw [ofText_of_dashed hdashed h]
      exact .unknown hdashed h
    · rw [ofText_of_not_dashed hdashed]
      exact .positional hdashed

end Argument

/-! ### The parts of an argument list begin differently -/

namespace ArgumentUnit

/-- What the first argument of a unit is taken for. -/
def kind : ArgumentUnit → Argument
  | value option _ => .value option
  | updateSnapshots => .updateSnapshots
  | blocks => .blocks
  | positional _ _ => .positional

theorem map_ofText_head? (u : ArgumentUnit) (rest : List String) :
    (u.texts ++ rest).head?.map Argument.ofText = some u.kind := by
  cases u with
  | value option text => exact congrArg some (Argument.ofText_spelling option)
  | updateSnapshots => rfl
  | blocks => rfl
  | positional text plain => exact congrArg some (Argument.ofText_of_not_dashed plain)

theorem texts_append_inj {u u' : ArgumentUnit} {rest rest' : List String}
    (h : u.texts ++ rest = u'.texts ++ rest') : u = u' ∧ rest = rest' := by
  have hkind : u.kind = u'.kind := by
    rw [← Option.some_inj, ← map_ofText_head? u rest, h, map_ofText_head?]
  cases u <;> cases u' <;> simp_all [kind, texts]

end ArgumentUnit

namespace ArgumentEnd

/-- What the first argument that is not read is taken for, if there is one. -/
def kind? : ArgumentEnd → Option Argument
  | all => none
  | version _ => some .version
  | help _ => some .help
  | missingValue option => some (.value option)
  | unknown _ _ _ _ => some .unknown

theorem map_ofText_head? (e : ArgumentEnd) : e.texts.head?.map Argument.ofText = e.kind? := by
  cases e with
  | all => rfl
  | version rest => rfl
  | help rest => rfl
  | missingValue option => exact congrArg some (Argument.ofText_spelling option)
  | unknown text dashed other rest =>
    exact congrArg some (Argument.ofText_of_dashed dashed other)

theorem texts_inj {e e' : ArgumentEnd} (h : e.texts = e'.texts) : e = e' := by
  have hkind : e.kind? = e'.kind? := by rw [← map_ofText_head?, h, map_ofText_head?]
  cases e <;> cases e' <;> simp_all [kind?, texts]

/-- A value that is missing is not there. -/
theorem texts_ne_unit (e : ArgumentEnd) (u : ArgumentUnit) (rest : List String) :
    e.texts ≠ u.texts ++ rest := by
  intro h
  have hkind : e.kind? = some u.kind := by
    rw [← map_ofText_head?, h, ArgumentUnit.map_ofText_head?]
  cases e <;> cases u <;> simp_all [kind?, ArgumentUnit.kind, texts, ArgumentUnit.texts]

end ArgumentEnd

namespace Reading

def texts (r : Reading) : List String := r.units.flatMap ArgumentUnit.texts ++ r.last.texts

/-- A unit in front of what is read behind it. -/
def push (u : ArgumentUnit) (r : Reading) : Reading := ⟨u :: r.units, r.last⟩

theorem texts_push (u : ArgumentUnit) (r : Reading) : (push u r).texts = u.texts ++ r.texts := by
  simp [push, texts]

theorem exists_texts_eq (args : List String) : ∃ r : Reading, r.texts = args := by
  induction Options.initial, args using Options.scan.induct with
  | case1 o => exact ⟨⟨[], .all⟩, rfl⟩
  | case2 o a option h =>
    cases h ▸ Argument.reads_ofText a
    exact ⟨⟨[], .missingValue option⟩, rfl⟩
  | case3 o a option h text rest ih =>
    obtain ⟨r, rfl⟩ := ih
    cases h ▸ Argument.reads_ofText a
    exact ⟨push (.value option text) r, texts_push _ r⟩
  | case4 o a rest h ih =>
    obtain ⟨r, rfl⟩ := ih
    cases h ▸ Argument.reads_ofText a
    exact ⟨push .updateSnapshots r, texts_push _ r⟩
  | case5 o a rest h ih =>
    obtain ⟨r, rfl⟩ := ih
    cases h ▸ Argument.reads_ofText a
    exact ⟨push .blocks r, texts_push _ r⟩
  | case6 o a rest h =>
    cases h ▸ Argument.reads_ofText a
    exact ⟨⟨[], .version rest⟩, rfl⟩
  | case7 o a rest h =>
    cases h ▸ Argument.reads_ofText a
    exact ⟨⟨[], .help rest⟩, rfl⟩
  | case8 o a rest h =>
    cases h ▸ Argument.reads_ofText a with
    | unknown dashed other => exact ⟨⟨[], .unknown a dashed other rest⟩, rfl⟩
  | case9 o a rest h ih =>
    obtain ⟨r, rfl⟩ := ih
    cases h ▸ Argument.reads_ofText a with
    | positional plain => exact ⟨push (.positional a plain) r, texts_push _ r⟩

theorem texts_inj {r r' : Reading} (h : r.texts = r'.texts) : r = r' := by
  rcases r with ⟨units, last⟩
  rcases r' with ⟨units', last'⟩
  induction units generalizing units' with
  | nil =>
    cases units' with
    | nil => exact congrArg _ (ArgumentEnd.texts_inj h)
    | cons u' units' => exact (last.texts_ne_unit u' _ (by simpa [texts] using h)).elim
  | cons u units ih =>
    cases units' with
    | nil => exact (last'.texts_ne_unit u _ (by simpa [texts] using h.symm)).elim
    | cons u' units' =>
      have hcons : u.texts ++ texts ⟨units, last⟩ = u'.texts ++ texts ⟨units', last'⟩ := by
        rw [← texts_push, ← texts_push]
        exact h
      obtain ⟨rfl, hrest⟩ := ArgumentUnit.texts_append_inj hcons
      have heq := ih units' hrest
      exact congrArg (push u) heq

end Reading

/-! ### What units ask for -/

namespace ArgumentUnit

def value? (option : ValueOption) : ArgumentUnit → Option String
  | value o text => if o = option then some text else none
  | _ => none

def positional? : ArgumentUnit → Option String
  | positional text _ => some text
  | _ => none

def isUpdateSnapshots : ArgumentUnit → Bool
  | updateSnapshots => true
  | _ => false

def isBlocks : ArgumentUnit → Bool
  | blocks => true
  | _ => false

end ArgumentUnit

namespace Options

/-- The last value of every option, the flags that are there, and the positional arguments in their
order. -/
def ofUnits (units : List ArgumentUnit) : Options where
  workspace := units.reverse.findSome? (ArgumentUnit.value? .workspace)
  config := units.reverse.findSome? (ArgumentUnit.value? .config)
  command := units.reverse.findSome? (ArgumentUnit.value? .command)
  updateSnapshots := units.any ArgumentUnit.isUpdateSnapshots
  blocks := units.any ArgumentUnit.isBlocks
  positionals := units.filterMap ArgumentUnit.positional?

/-- Options with what one more unit asks for. -/
def taking (o : Options) : ArgumentUnit → Options
  | .value option text => o.withValue text option
  | .updateSnapshots => { o with updateSnapshots := true }
  | .blocks => { o with blocks := true }
  | .positional text _ => { o with positionals := o.positionals ++ [text] }

theorem ofUnits_append_singleton (units : List ArgumentUnit) (u : ArgumentUnit) :
    ofUnits (units ++ [u]) = (ofUnits units).taking u := by
  simp only [ofUnits, List.reverse_append, List.reverse_singleton, List.singleton_append,
    List.findSome?_cons, List.any_append, List.filterMap_append]
  cases u with
  | value option text => cases option <;> simp [taking, withValue, ArgumentUnit.value?,
      ArgumentUnit.isUpdateSnapshots, ArgumentUnit.isBlocks, ArgumentUnit.positional?]
  | _ => simp [taking, ArgumentUnit.value?, ArgumentUnit.isUpdateSnapshots,
      ArgumentUnit.isBlocks, ArgumentUnit.positional?]

theorem scan_unit (o : Options) (u : ArgumentUnit) (rest : List String) :
    o.scan (u.texts ++ rest) = (o.taking u).scan rest := by
  cases u with
  | value option text =>
    simp only [ArgumentUnit.texts, List.cons_append, List.nil_append]
    rw [scan, Argument.ofText_spelling]
    rfl
  | updateSnapshots => rfl
  | blocks => rfl
  | positional text plain =>
    simp only [ArgumentUnit.texts, List.cons_append, List.nil_append]
    rw [scan, Argument.ofText_of_not_dashed plain]
    rfl

theorem scan_units (units : List ArgumentUnit) (rest : List String) :
    initial.scan (units.flatMap ArgumentUnit.texts ++ rest) = (ofUnits units).scan rest := by
  induction units using List.reverseRecOn generalizing rest with
  | nil => rfl
  | append_singleton units u ih =>
    rw [List.flatMap_append, List.flatMap_singleton, List.append_assoc, ih, scan_unit,
      ofUnits_append_singleton]

end Options

end CursorCommand
