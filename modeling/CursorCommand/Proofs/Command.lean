import CursorCommand.Command
import CursorCommand.Proofs.Title
import Mathlib.Data.List.Forall2

/-!
# What stands in a command

The values of the placeholders, told by themselves: a name with a backslash in front of every
character that a regular expression does not take as itself, and a path with its backslashes turned
into slashes where the user wants that. Each relation holds of exactly one text.
-/
namespace CursorCommand

namespace Title

/-- A text, and the regular expression that has a backslash in front of every operator in it. -/
inductive Escaped : List Char → List Char → Prop
  | nil : Escaped [] []
  | plain {c : Char} {cs es : List Char} : c ∉ operators → Escaped cs es →
      Escaped (c :: cs) (c :: es)
  | operator {c : Char} {cs es : List Char} : c ∈ operators → Escaped cs es →
      Escaped (c :: cs) ('\\' :: c :: es)

/-- A name and its title: the name escaped, or what stands in for one that is not known or empty. -/
inductive Stands (unknown : String) : Option String → String → Prop
  | unnamed : Stands unknown none unknown
  | empty : Stands unknown (some "") unknown
  | known {name title : String} : name ≠ "" → Escaped name.toList title.toList →
      Stands unknown (some name) title

theorem escaped_iff {cs es : List Char} : Escaped cs es ↔ cs.flatMap escapeChar = es := by
  constructor
  · intro h
    induction h with
    | nil => rfl
    | plain hc _ ih => rw [List.flatMap_cons, escapeChar_of_not_mem hc, ih, List.singleton_append]
    | operator hc _ ih =>
      rw [List.flatMap_cons, escapeChar_of_mem hc, ih, List.cons_append, List.singleton_append]
  · rintro rfl
    induction cs with
    | nil => exact .nil
    | cons c cs ih =>
      rw [List.flatMap_cons]
      by_cases hc : c ∈ operators
      · rw [escapeChar_of_mem hc]
        exact .operator hc ih
      · rw [escapeChar_of_not_mem hc]
        exact .plain hc ih

theorem stands_iff {unknown : String} {name : Option String} {title : String} :
    Stands unknown name title ↔ ofName unknown name = title := by
  constructor
  · intro h
    cases h with
    | unnamed => rfl
    | empty => rfl
    | known hne hescaped =>
      rw [ofName_known unknown hne, escape, escaped_iff.mp hescaped, String.ofList_toList]
  · rintro rfl
    cases name with
    | none => exact .unnamed
    | some name =>
      by_cases hne : name = ""
      · subst hne
        exact .empty
      · rw [ofName_known unknown hne]
        exact .known hne (escaped_iff.mpr (by rw [escape, String.toList_ofList]))

theorem forall₂_stands_iff {unknown : String} {names : List (Option String)}
    {titles : List String} :
    List.Forall₂ (Stands unknown) names titles ↔ names.map (ofName unknown) = titles := by
  have hrelation : Stands unknown = fun name title => ofName unknown name = title := by
    funext name title
    exact propext stands_iff
  rw [hrelation, ← List.forall₂_map_left_iff (R := Eq), List.forall₂_eq_eq_eq]

end Title

namespace Path

/-- A path, and how a command shows it: as it is, or with a slash for every backslash. -/
inductive Shown : (unixPaths : Bool) → String → String → Prop
  | same (path : String) : Shown false path path
  | slashed {path shown : String} :
      List.Forall₂ (fun c d => (if c = '\\' then '/' else c) = d) path.toList shown.toList →
      Shown true path shown

theorem shown_iff {unixPaths : Bool} {path shown : String} :
    Shown unixPaths path shown ↔ (if unixPaths then withSlashes path else path) = shown := by
  have hslashed : List.Forall₂ (fun c d => (if c = '\\' then '/' else c) = d) path.toList
      shown.toList ↔ withSlashes path = shown := by
    rw [← List.forall₂_map_left_iff (R := Eq), List.forall₂_eq_eq_eq, withSlashes,
      ← String.toList_inj, String.toList_ofList]
  cases unixPaths with
  | false => exact ⟨fun h => by cases h; rfl, fun h => h ▸ .same path⟩
  | true =>
    rw [if_pos rfl, ← hslashed]
    exact ⟨fun h => by cases h; assumption, .slashed⟩

end Path

/-- The values of the placeholders for paths, given the paths of a workspace and a test file. -/
structure HasPaths (value : Placeholder → String) (unixPaths : Bool) (root file : String) :
    Prop where
  workspaceRoot : Path.Shown unixPaths root (value .workspaceRoot)
  testFilePath : Path.Shown unixPaths file (value .testFilePath)
  relativeTestPath : Path.Shown unixPaths (Path.relative root file) (value .relativeTestPath)

/-- The values of the placeholders for titles, given a block's name and those around it. -/
structure HasTitles (value : Placeholder → String) (separator unknown : String)
    (parents : List (Option String)) (name : Option String) : Prop where
  own : Title.Stands unknown name (value .testName)
  full : ∃ titles, List.Forall₂ (Title.Stands unknown) parents titles ∧
    value .fullTestName = separator.intercalate (titles ++ [value .testName])

/-- The values of the placeholders for a target. Outside all blocks both titles are unknown. -/
structure Target.Inserts (t : Target) (value : Placeholder → String) : Prop where
  paths : HasPaths value t.unixPaths t.workspaceRoot t.testFilePath
  outside : t.block = none → value .testName = t.unknown ∧ value .fullTestName = t.unknown
  inside : ∀ b, t.block = some b → HasTitles value t.separator t.unknown b.parents b.name

theorem HasTitles.eq {value : Placeholder → String} {separator unknown : String}
    {parents : List (Option String)} {name : Option String}
    (h : HasTitles value separator unknown parents name) :
    value .testName = Title.ofName unknown name ∧
      value .fullTestName =
        separator.intercalate ((parents ++ [name]).map (Title.ofName unknown)) := by
  obtain ⟨hown, titles, htitles, hfull⟩ := h
  have hname := Title.stands_iff.mp hown
  refine ⟨hname.symm, ?_⟩
  rw [hfull, ← Title.forall₂_stands_iff.mp htitles, ← hname, List.map_append, List.map_singleton]

theorem hasTitles_value (t : Target) {b : Block} (h : t.block = some b) :
    HasTitles t.value t.separator t.unknown b.parents b.name := by
  have htitles : t.titles = ⟨Title.ofName t.unknown b.name,
      t.separator.intercalate ((b.parents ++ [b.name]).map (Title.ofName t.unknown))⟩ := by
    rw [Target.titles, h, Titles.ofBlock_some]
  have hown : t.value .testName = Title.ofName t.unknown b.name := congrArg Titles.own htitles
  refine ⟨Title.stands_iff.mpr hown.symm, _, Title.forall₂_stands_iff.mpr rfl, ?_⟩
  have hfull : t.value .fullTestName = _ := congrArg Titles.full htitles
  rw [hfull, hown, List.map_append, List.map_singleton]

theorem hasPaths_value (t : Target) :
    HasPaths t.value t.unixPaths t.workspaceRoot t.testFilePath := by
  have hshown (path : String) : Path.Shown t.unixPaths path (t.pathText path) :=
    Path.shown_iff.mpr rfl
  exact ⟨hshown _, hshown _, hshown _⟩

/-- A target has one value for every placeholder. -/
theorem Target.inserts_iff {t : Target} {value : Placeholder → String} :
    t.Inserts value ↔ value = t.value := by
  constructor
  · rintro ⟨⟨hroot, hfile, hrelative⟩, houtside, hinside⟩
    have htitles : value .testName = t.titles.own ∧ value .fullTestName = t.titles.full := by
      rw [titles]
      cases hblock : t.block with
      | none => exact houtside hblock
      | some b =>
        rw [Titles.ofBlock_some]
        exact (hinside b hblock).eq
    funext p
    cases p with
    | workspaceRoot => exact (Path.shown_iff.mp hroot).symm
    | testFilePath => exact (Path.shown_iff.mp hfile).symm
    | relativeTestPath => exact (Path.shown_iff.mp hrelative).symm
    | testName => exact htitles.1
    | fullTestName => exact htitles.2
  · rintro rfl
    refine ⟨hasPaths_value t, ?_, fun b => hasTitles_value t⟩
    intro hnone
    rw [value, value, titles, hnone]
    exact ⟨rfl, rfl⟩

end CursorCommand
