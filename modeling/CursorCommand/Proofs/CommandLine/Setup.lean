import CursorCommand.CommandLine.Run
import CursorCommand.Proofs.Cursor

/-!
# What a run works on

The arguments of a run say which file it reads in which workspace, where the cursor is, which kind
of command is wanted and what template it has. Each choice is told by itself, as a relation with a
constructor for every way it can go; the relations are tied to what a run computes one by one.
-/
namespace CursorCommand

namespace CommandLine

/-- A text denotes a number of 32 bits: decimal digits, behind a plus sign or none. -/
def Denotes (text : String) (n : UInt32) : Prop :=
  ∃ digits : List Char, (text.toList = digits ∨ text.toList = '+' :: digits) ∧ digits ≠ [] ∧
    (∀ d ∈ digits, d.isDigit = true) ∧ Nat.ofDigitChars 10 digits 0 = n.toNat

/-- A text without the plus sign at its front. -/
def unsigned : List Char → List Char
  | '+' :: cs => cs
  | cs => cs

theorem eq_unsigned_or (cs : List Char) : cs = unsigned cs ∨ cs = '+' :: unsigned cs := by
  unfold unsigned
  split
  · exact .inr rfl
  · exact .inl rfl

theorem unsigned_of_isDigit {digits : List Char} (h : ∀ d ∈ digits, d.isDigit = true) :
    unsigned digits = digits := by
  unfold unsigned
  split
  · exact absurd (h '+' List.mem_cons_self) (by decide)
  · rfl

theorem number?_eq_some_iff_unsigned {text : String} {n : UInt32} :
    number? text = some n ↔ unsigned text.toList ≠ [] ∧
      (∀ d ∈ unsigned text.toList, d.isDigit = true) ∧
      Nat.ofDigitChars 10 (unsigned text.toList) 0 = n.toNat := by
  have hnumber : number? text =
      if (unsigned text.toList).isEmpty || !(unsigned text.toList).all Char.isDigit then none
      else if Nat.ofDigitChars 10 (unsigned text.toList) 0 < UInt32.size then
        some (UInt32.ofNat (Nat.ofDigitChars 10 (unsigned text.toList) 0))
      else none := rfl
  have hguard : ((unsigned text.toList).isEmpty || !(unsigned text.toList).all Char.isDigit) =
      true ↔ ¬ (unsigned text.toList ≠ [] ∧ ∀ d ∈ unsigned text.toList, d.isDigit = true) := by
    simp only [Bool.or_eq_true, List.isEmpty_iff, Bool.not_eq_true', List.all_eq_false]
    grind
  rw [hnumber]
  split
  · next hbad =>
    have hnot := hguard.mp hbad
    grind
  · next hgood =>
    have hdigits := not_not.mp (mt hguard.mpr hgood)
    split
    · next hlt =>
      rw [Option.some.injEq, ← UInt32.toNat_inj, UInt32.toNat_ofNat_of_lt' hlt]
      exact ⟨fun h => ⟨hdigits.1, hdigits.2, h⟩, fun h => h.2.2⟩
    · next hge =>
      have hlt := n.toNat_lt
      grind

theorem number?_eq_some_iff {text : String} {n : UInt32} :
    number? text = some n ↔ Denotes text n := by
  rw [number?_eq_some_iff_unsigned]
  constructor
  · intro h
    exact ⟨unsigned text.toList, eq_unsigned_or text.toList, h⟩
  · rintro ⟨digits, htext, hdigits⟩
    have hunsigned : unsigned text.toList = digits := by
      rcases htext with htext | htext
      · rw [htext, unsigned_of_isDigit hdigits.2.1]
      · rw [htext, unsigned]
    rw [hunsigned]
    exact hdigits

theorem Denotes.unique {text : String} {n n' : UInt32} (h : Denotes text n)
    (h' : Denotes text n') : n = n' := by
  rw [← number?_eq_some_iff] at h h'
  exact Option.some.inj (h.symm.trans h')

theorem not_denotes {text : String} (h : number? text = none) (n : UInt32) :
    ¬ Denotes text n := by
  intro hn
  rw [← number?_eq_some_iff, h] at hn
  cases hn

/-- A path, and the path from the root of the file system that it stands for in a directory: itself,
or what stands behind the directory and a slash. -/
inductive Absolute (directory : String) : String → String → Prop
  | itself {path : String} : path.toList.head? = some '/' → Absolute directory path path
  | behindSlash {path : String} : path.toList.head? ≠ some '/' →
      directory.toList.getLast? = some '/' → Absolute directory path (directory ++ path)
  | behind {path : String} : path.toList.head? ≠ some '/' →
      directory.toList.getLast? ≠ some '/' → Absolute directory path (directory ++ "/" ++ path)

theorem absolute_iff {directory path file : String} :
    Absolute directory path file ↔ absolute directory path = file := by
  rw [absolute]
  constructor
  · intro h
    cases h with
    | itself hroot => rw [if_pos hroot]
    | behindSlash hroot hslash => rw [if_neg hroot, if_pos hslash]
    | behind hroot hslash => rw [if_neg hroot, if_neg hslash]
  · rintro rfl
    split
    · next hroot => exact .itself hroot
    · next hroot =>
      split
      · next hslash => exact .behindSlash hroot hslash
      · next hslash => exact .behind hroot hslash

theorem Absolute.unique {directory path file file' : String} (h : Absolute directory path file)
    (h' : Absolute directory path file') : file = file' :=
  (absolute_iff.mp h).symm.trans (absolute_iff.mp h')

/-- The kind of command that is asked for. -/
inductive Selects (o : Options) : CommandKind → Prop
  | run : o.updateSnapshots = false → Selects o .run
  | runAndUpdateSnapshots : o.updateSnapshots = true → Selects o .runAndUpdateSnapshots

theorem selects_iff {o : Options} {k : CommandKind} : Selects o k ↔ kind o = k := by
  rw [kind]
  constructor
  · intro h
    cases h with
    | run hflag => rw [if_neg (by simp [hflag])]
    | runAndUpdateSnapshots hflag => rw [if_pos hflag]
  · rintro rfl
    cases hflag : o.updateSnapshots with
    | false => exact .run hflag
    | true => exact .runAndUpdateSnapshots hflag

/-- The configuration before the command line is looked at: that of the settings file, if one is
named. -/
inductive Configured (m : Machine) (o : Options) : Config → Prop
  | standard : o.config = none → Configured m o Config.standard
  | file {name path text : String} {settings : Json} : o.config = some name →
      Absolute m.directory name path → m.text? path = some text →
      Json.parse? text = some settings →
      Configured m o ((Config.ofSettings? settings).getD Config.standard)

theorem config_named {m : Machine} {o : Options} {name : String} (h : o.config = some name) :
    config m o =
      match m.text? (absolute m.directory name) with
      | none => .error (.settings (.unreadable name))
      | some text =>
        match Json.parse? text with
        | none => .error (.settings (.invalid name))
        | some settings => .ok ((Config.ofSettings? settings).getD Config.standard) := by
  have hload : config m o =
      (Config.load name (m.text? (absolute m.directory name))).mapError .settings := by
    rw [config, h]
  rw [hload]
  cases m.text? (absolute m.directory name) with
  | none => rfl
  | some text =>
    simp only [Config.load]
    cases Json.parse? text <;> rfl

theorem configured_iff {m : Machine} {o : Options} {c : Config} :
    Configured m o c ↔ config m o = .ok c := by
  constructor
  · intro h
    cases h with
    | standard hnone => rw [config, hnone]
    | file hname hpath htext hparse =>
      simp only [config_named hname, absolute_iff.mp hpath, htext, hparse]
  · intro h
    cases hname : o.config with
    | none =>
      rw [config, hname] at h
      cases h
      exact .standard hname
    | some name =>
      rw [config_named hname] at h
      split at h
      · cases h
      · next text htext =>
        split at h
        · cases h
        · next settings hparse =>
          cases h
          exact .file hname (absolute_iff.mpr rfl) htext hparse

/-- A configuration with the template of the command line, if there is one, in the place of that of
a kind. -/
inductive Overridden (o : Options) (c : Config) : CommandKind → Config → Prop
  | kept {k : CommandKind} : o.command = none → Overridden o c k c
  | run {template : String} : o.command = some template →
      Overridden o c .run { c with run := some template }
  | runAndUpdateSnapshots {template : String} : o.command = some template →
      Overridden o c .runAndUpdateSnapshots { c with runAndUpdateSnapshots := some template }

theorem overridden_iff {o : Options} {c c' : Config} :
    Overridden o c (kind o) c' ↔ withCommand c o = c' := by
  rw [withCommand]
  constructor
  · intro h
    generalize kind o = k at h
    cases h with
    | kept hnone => rw [hnone]
    | run hsome => rw [hsome]; rfl
    | runAndUpdateSnapshots hsome => rw [hsome]; rfl
  · rintro rfl
    cases hcommand : o.command with
    | none => exact .kept hcommand
    | some template =>
      cases kind o with
      | run => exact .run hcommand
      | runAndUpdateSnapshots => exact .runAndUpdateSnapshots hcommand

/-- The kind of command that a run looks for, and the configuration that it does so with. -/
structure Prepared (m : Machine) (o : Options) (k : CommandKind) (c : Config) : Prop where
  selects : Selects o k
  overridden : ∃ c₀, Configured m o c₀ ∧ Overridden o c₀ k c

/-- The test file of a run, open in its workspace. -/
structure Opened (m : Machine) (o : Options) (file : String) (d : Document) : Prop where
  testFilePath : Absolute m.directory file d.testFilePath
  text : m.text? d.testFilePath = some d.text
  tree : d.tree = m.tree d.text
  /-- Without a workspace of its own the run takes the working directory. -/
  directory : o.workspace = none → d.workspaceRoot = m.directory
  workspace : ∀ path, o.workspace = some path → Absolute m.directory path d.workspaceRoot

/-- The test file as it is opened when it has a text. -/
def document (m : Machine) (o : Options) (file text : String) : Document :=
  ⟨workspace m o, absolute m.directory file, text, m.tree text⟩

section

variable {m : Machine} {o : Options} {file : String} {k : CommandKind} {c c₀ : Config}

theorem Configured.unique (h : Configured m o c) (h₀ : Configured m o c₀) : c = c₀ := by
  rw [configured_iff] at h h₀
  exact Except.ok.inj (h.symm.trans h₀)

theorem Configured.prepared (h : Configured m o c) : Prepared m o (kind o) (withCommand c o) :=
  ⟨selects_iff.mpr rfl, c, h, overridden_iff.mpr rfl⟩

theorem Prepared.eq (h : Prepared m o k c) (h₀ : Configured m o c₀) :
    k = kind o ∧ c = withCommand c₀ o := by
  obtain ⟨hselects, c₁, hconfigured, hoverridden⟩ := h
  obtain rfl := selects_iff.mp hselects
  rw [hconfigured.unique h₀] at hoverridden
  exact ⟨rfl, (overridden_iff.mp hoverridden).symm⟩

theorem Prepared.unique {k' : CommandKind} {c' : Config} (h : Prepared m o k c)
    (h' : Prepared m o k' c') : k = k' ∧ c = c' := by
  obtain ⟨c₀, hconfigured, -⟩ := h.overridden
  obtain ⟨rfl, rfl⟩ := h.eq hconfigured
  obtain ⟨rfl, rfl⟩ := h'.eq hconfigured
  exact ⟨rfl, rfl⟩

theorem opened_document {text : String} (h : m.text? (absolute m.directory file) = some text) :
    Opened m o file (document m o file text) where
  testFilePath := absolute_iff.mpr rfl
  text := h
  tree := rfl
  directory := by
    intro hnone
    rw [document, workspace, hnone]
  workspace := by
    intro path hsome
    rw [document, CommandLine.workspace, hsome]
    exact absolute_iff.mpr rfl

theorem Opened.eq {d : Document} (h : Opened m o file d) :
    m.text? (absolute m.directory file) = some d.text ∧ d = document m o file d.text := by
  obtain ⟨hpath, htext, htree, hdirectory, hworkspace⟩ := h
  have hfile := absolute_iff.mp hpath
  have hroot : d.workspaceRoot = CommandLine.workspace m o := by
    rw [CommandLine.workspace]
    cases hoption : o.workspace with
    | none => exact hdirectory hoption
    | some path => exact (absolute_iff.mp (hworkspace path hoption)).symm
  refine ⟨hfile ▸ htext, ?_⟩
  rw [document, ← hroot, hfile, ← htree]

theorem Opened.unique {d d' : Document} (h : Opened m o file d) (h' : Opened m o file d') :
    d = d' := by
  have htext := Option.some.inj (h.eq.1.symm.trans h'.eq.1)
  rw [h.eq.2, h'.eq.2, htext]

end

end CommandLine

end CursorCommand
