import CursorCommand.Config.Settings
import Mathlib.Data.List.Basic

/-!
# What settings say of a configuration

`Settings.Describes` says field by field what settings have to hold to describe a configuration: the
value of the field in the section's object or, where that has no member of the name, under the dotted
key; or nothing of the right type, if the field is as it is from the start. Reading settings that
have the section gives the one configuration that they describe.
-/
namespace CursorCommand

namespace Json

/-- An object has a member with the key, and the last one has the value. -/
def Holds (j : Json) (key : String) (v : Json) : Prop :=
  ∃ before after, j = .object (before ++ (key, v) :: after) ∧ ∀ m ∈ after, m.1 ≠ key

theorem get?_eq_some_iff {j v : Json} {key : String} : j.get? key = some v ↔ j.Holds key v := by
  rw [get?, Option.map_eq_some_iff]
  constructor
  · intro h
    rcases h with ⟨⟨k, w⟩, hfound, rfl⟩
    obtain ⟨hkey, after, before, hmembers, hafter⟩ := List.find?_eq_some_iff_append.mp hfound
    obtain rfl : k = key := by simpa using hkey
    have hsplit : j.members = before.reverse ++ (k, w) :: after.reverse := by
      rw [← List.reverse_reverse j.members, hmembers]
      simp
    refine ⟨before.reverse, after.reverse, ?_, ?_⟩
    · cases j with
      | object ms => exact congrArg _ hsplit
      | _ => simp [members] at hsplit
    · intro m hm
      simpa using hafter m (List.mem_reverse.mp hm)
  · intro h
    rcases h with ⟨before, after, rfl, hafter⟩
    refine ⟨(key, v), ?_, rfl⟩
    rw [members, List.find?_eq_some_iff_append]
    refine ⟨by simp, after.reverse, before.reverse, by simp, ?_⟩
    intro m hm
    simpa using hafter m (List.mem_reverse.mp hm)

/-- The strings among some values, in order. -/
inductive Strings : List Json → List String → Prop
  | nil : Strings [] []
  | string {s : String} {vs : List Json} {ss : List String} :
      Strings vs ss → Strings (.string s :: vs) (s :: ss)
  | other {v : Json} {vs : List Json} {ss : List String} :
      (∀ s, v ≠ .string s) → Strings vs ss → Strings (v :: vs) ss

theorem string?_eq_some_iff {v : Json} {s : String} : v.string? = some s ↔ v = .string s := by
  cases v <;> simp [string?]

theorem filterMap_string?_eq_iff {vs : List Json} {ss : List String} :
    vs.filterMap string? = ss ↔ Strings vs ss := by
  constructor
  · intro h
    subst h
    induction vs with
    | nil => exact .nil
    | cons v vs ih =>
      cases hv : v.string? with
      | none =>
        rw [List.filterMap_cons_none hv]
        apply Strings.other _ ih
        intro s hs
        rw [string?_eq_some_iff.mpr hs] at hv
        cases hv
      | some s =>
        rw [List.filterMap_cons_some hv]
        obtain rfl := string?_eq_some_iff.mp hv
        exact .string ih
  · intro h
    induction h with
    | nil => rfl
    | @string s vs ss _ ih =>
      have hs : (Json.string s).string? = some s := rfl
      rw [List.filterMap_cons_some hs, ih]
    | @other v vs ss hv _ ih =>
      have hnone : v.string? = none := by
        rw [Option.eq_none_iff_forall_ne_some]
        intro s hs
        exact hv s (string?_eq_some_iff.mp hs)
      rw [List.filterMap_cons_none hnone, ih]

end Json

namespace Settings

variable {settings : Json}

/-- The settings are an object with a member under the section's name, whatever it holds, or with one
whose key starts with that name and a dot. -/
def HasSection (settings : Json) : Prop :=
  ∃ ms, settings = .object ms ∧
    ∃ m ∈ ms, m.1 = "runCurrentTest" ∨ "runCurrentTest.".toList <+: m.1.toList

/-- The value that settings give under a key. A member of the section's object hides the one with the
dotted key; a section that is no object has no members. -/
inductive Gives (settings : Json) (key : String) : Json → Prop
  | nested {s v : Json} : settings.Holds "runCurrentTest" s → s.Holds key v → Gives settings key v
  | dotted {v : Json} : (∀ s w, settings.Holds "runCurrentTest" s → ¬ s.Holds key w) →
      settings.Holds ("runCurrentTest." ++ key) v → Gives settings key v

/-- A field has a value: settings give it under the key in one of its spellings, or it is the
standard one and they give nothing there, or nothing of the right type. -/
def Sets {α : Type} (settings : Json) (key : String) (Spells : Json → α → Prop)
    (standard value : α) : Prop :=
  (∃ v, Gives settings key v ∧ Spells v value) ∨
    (value = standard ∧ ∀ v, Gives settings key v → ∀ a, ¬ Spells v a)

def SpellsText (v : Json) (text : String) : Prop := v = .string text

def SpellsFlag (v : Json) (flag : Bool) : Prop := v = .bool flag

/-- A template is spelled as text; none cannot be spelled. -/
def SpellsTemplate (v : Json) (template : Option String) : Prop :=
  ∃ t, v = .string t ∧ template = some t

/-- Identifiers are spelled as an array, in which other elements may stand between them. -/
def SpellsIdentifiers (v : Json) (identifiers : List String) : Prop :=
  ∃ vs, v = .array vs ∧ Json.Strings vs identifiers

/-- What settings have to hold to describe a configuration. -/
structure Describes (settings : Json) (c : Config) : Prop where
  run : Sets settings "run" SpellsTemplate none c.run
  runAndUpdateSnapshots :
    Sets settings "runAndUpdateSnapshots" SpellsTemplate none c.runAndUpdateSnapshots
  identifiers : Sets settings "testBlockIdentifiers" SpellsIdentifiers
    Config.standardIdentifiers c.identifiers
  separator : Sets settings "testNameSeparator" SpellsText "\\s" c.separator
  unknown : Sets settings "unknownTestNameLiteral" SpellsText ".*" c.unknown
  unixPaths : Sets settings "unixPaths" SpellsFlag false c.unixPaths

theorem hasSection_iff : hasSection settings = true ↔ HasSection settings := by
  have hprefix : ∀ key, isDotted key = true ↔ "runCurrentTest.".toList <+: key.toList := by
    intro key
    rw [isDotted, List.isPrefixOf_iff_prefix]
    rfl
  simp only [hasSection, List.any_eq_true, Bool.or_eq_true, beq_iff_eq, hprefix]
  cases settings with
  | object ms => simp [HasSection, Json.members, sectionName]
  | _ => simp [HasSection, Json.members]

theorem setting?_eq_some_iff {key : String} {v : Json} :
    setting? settings key = some v ↔ Gives settings key v := by
  have hsection : ∀ w, ((settings.get? sectionName).bind fun s => s.get? key) = some w ↔
      ∃ s, settings.Holds "runCurrentTest" s ∧ s.Holds key w := by
    intro w
    rw [Option.bind_eq_some_iff]
    simp only [Json.get?_eq_some_iff]
    rfl
  have hdotted : settings.get? (dotted key) = some v ↔
      settings.Holds ("runCurrentTest." ++ key) v := Json.get?_eq_some_iff
  rw [setting?]
  cases hnested : (settings.get? sectionName).bind fun s => s.get? key with
  | none =>
    simp only [hdotted]
    have hnone : ∀ s w, settings.Holds "runCurrentTest" s → ¬ s.Holds key w := by
      intro s w hs hw
      rw [(hsection w).mpr ⟨s, hs, hw⟩] at hnested
      cases hnested
    constructor
    · exact .dotted hnone
    · intro h
      cases h with
      | nested hs hv => exact (hnone _ _ hs hv).elim
      | dotted _ hv => exact hv
  | some w =>
    obtain ⟨s, hs, hw⟩ := (hsection w).mp hnested
    simp only [Option.some.injEq]
    constructor
    · intro heq
      subst heq
      exact .nested hs hw
    · intro h
      cases h with
      | nested hs' hv =>
        rw [(hsection v).mpr ⟨_, hs', hv⟩] at hnested
        exact (Option.some.inj hnested).symm
      | dotted hnone _ => exact (hnone s w hs hw).elim

/-- Reading a field through its type gives the value that the settings set it to. -/
theorem getD_setting?_eq_iff {α : Type} {read? : Json → Option α} {Spells : Json → α → Prop}
    (hread : ∀ v a, read? v = some a ↔ Spells v a) (key : String) (standard value : α) :
    ((setting? settings key).bind read?).getD standard = value ↔
      Sets settings key Spells standard value := by
  simp only [Sets, ← setting?_eq_some_iff, ← hread]
  cases setting? settings key with
  | none => simp [eq_comm]
  | some v =>
    simp only [Option.bind_some, Option.some.injEq, exists_eq_left', forall_eq']
    cases read? v with
    | none => simp [eq_comm]
    | some a => simp

theorem string?_getD_eq_iff (key standard text : String) :
    (string? settings key).getD standard = text ↔
      Sets settings key SpellsText standard text :=
  getD_setting?_eq_iff (fun _ _ => Json.string?_eq_some_iff) key standard text

theorem bool?_getD_eq_iff (key : String) (standard flag : Bool) :
    (bool? settings key).getD standard = flag ↔ Sets settings key SpellsFlag standard flag := by
  have hread : ∀ (v : Json) (b : Bool), v.bool? = some b ↔ SpellsFlag v b := by
    intro v b
    cases v <;> simp [Json.bool?, SpellsFlag]
  exact getD_setting?_eq_iff hread key standard flag

theorem string?_eq_iff (key : String) (template : Option String) :
    string? settings key = template ↔ Sets settings key SpellsTemplate none template := by
  have hread : ∀ (v : Json) (template : Option String),
      v.string?.map some = some template ↔ SpellsTemplate v template := by
    intro v template
    rw [Option.map_eq_some_iff, SpellsTemplate]
    exact exists_congr fun t => and_congr Json.string?_eq_some_iff eq_comm
  rw [← getD_setting?_eq_iff hread, string?]
  cases setting? settings key with
  | none => rfl
  | some v => cases hv : v.string? <;> simp [hv]

theorem strings?_getD_eq_iff (key : String) (standard identifiers : List String) :
    (strings? settings key).getD standard = identifiers ↔
      Sets settings key SpellsIdentifiers standard identifiers := by
  have hread : ∀ (v : Json) (identifiers : List String),
      v.array?.map (List.filterMap Json.string?) = some identifiers ↔
        SpellsIdentifiers v identifiers := by
    intro v identifiers
    cases v <;> simp [Json.array?, SpellsIdentifiers, Json.filterMap_string?_eq_iff]
  rw [← getD_setting?_eq_iff hread, strings?, Option.map_bind]
  rfl

/-- Of settings with the section, each field is read as what they set it to. -/
theorem ofSettings?_eq_some_iff (hsection : hasSection settings = true) (c : Config) :
    Config.ofSettings? settings = some c ↔ Describes settings c := by
  rw [Config.ofSettings?, if_pos hsection, Option.some.injEq]
  constructor
  · intro h
    subst h
    exact
      { run := (string?_eq_iff _ _).mp rfl
        runAndUpdateSnapshots := (string?_eq_iff _ _).mp rfl
        identifiers := (strings?_getD_eq_iff _ _ _).mp rfl
        separator := (string?_getD_eq_iff _ _ _).mp rfl
        unknown := (string?_getD_eq_iff _ _ _).mp rfl
        unixPaths := (bool?_getD_eq_iff _ _ _).mp rfl }
  · intro h
    have hidentifiers : (strings? settings "testBlockIdentifiers").getD
        Config.standard.identifiers = c.identifiers :=
      (strings?_getD_eq_iff _ _ _).mpr h.identifiers
    have hseparator : (string? settings "testNameSeparator").getD
        Config.standard.separator = c.separator := (string?_getD_eq_iff _ _ _).mpr h.separator
    have hunknown : (string? settings "unknownTestNameLiteral").getD
        Config.standard.unknown = c.unknown := (string?_getD_eq_iff _ _ _).mpr h.unknown
    have hpaths : (bool? settings "unixPaths").getD Config.standard.unixPaths = c.unixPaths :=
      (bool?_getD_eq_iff _ _ _).mpr h.unixPaths
    rw [(string?_eq_iff _ _).mpr h.run, (string?_eq_iff _ _).mpr h.runAndUpdateSnapshots,
      hidentifiers, hseparator, hunknown, hpaths]

end Settings

/-- Settings with the section are read as the one configuration that they describe, and settings
without it as none. -/
theorem settings_read_as_described (settings : Json) :
    (∀ c, Config.ofSettings? settings = some c ↔
      Settings.HasSection settings ∧ Settings.Describes settings c) ∧
    (Config.ofSettings? settings = none ↔ ¬ Settings.HasSection settings) := by
  rw [← Settings.hasSection_iff]
  cases hsection : Settings.hasSection settings with
  | false =>
    have hnone : Config.ofSettings? settings = none := by
      rw [Config.ofSettings?, hsection]
      rfl
    simp [hnone]
  | true =>
    have hsome := Settings.ofSettings?_eq_some_iff hsection
    constructor
    · intro c
      rw [hsome]
      simp
    · simp [Config.ofSettings?, hsection]

/-- A member of the section's object hides the dotted one, even where its value has the wrong type. -/
example :
    Config.ofSettings? (.object [("runCurrentTest.run", .string "jest"), ("editor.tabSize", .null),
      ("runCurrentTest", .object [("run", .null), ("unixPaths", .bool true)]),
      ("runCurrentTest.testBlockIdentifiers", .array [.string "it", .null, .string "test"])]) =
    some { Config.standard with identifiers := ["it", "test"], unixPaths := true } := by
  decide +kernel

end CursorCommand
