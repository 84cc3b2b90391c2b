import CursorCommand.Command
import CursorCommand.Proofs.Path.Relative

/-!
# Paths written with slashes

Writing slashes for backslashes changes neither where a path is split nor its drive, and no part of
a way has a separator. So it does not matter whether paths are rewritten before the way between them
is worked out or the way afterwards, and a command with slashes is the command for rewritten paths.
-/
namespace CursorCommand

namespace Path

open Route

theorem toList_withSlashes (path : String) : (withSlashes path).toList = path.toList.map slash := by
  rw [withSlashes, String.toList_ofList]
  rfl

theorem slash_ne (c : Char) : slash c ≠ '\\' := by
  unfold slash
  split
  · decide
  · assumption

theorem backslash_not_mem (cs : List Char) : '\\' ∉ cs.map slash := by
  intro h
  obtain ⟨c, -, hc⟩ := List.mem_map.mp h
  exact slash_ne c hc

theorem separatorOf_map_slash (cs : List Char) : separatorOf (cs.map slash) = '/' := by
  rw [separatorOf, if_neg]
  simp [backslash_not_mem cs]

/-- The parts of a way are whole parts of the path, behind the steps up. -/
theorem whole_of_mem_wayParts {ignoreCase : Bool} {root path : Route}
    (h : ∀ n ∈ path.names, IsName n) :
    ∀ part ∈ wayParts ignoreCase root path, ∀ c ∈ part, isSeparator c = false := by
  obtain ⟨-, ds, -, hds, -⟩ := diverge_shared (samePart ignoreCase) root.parts path.parts
  intro part hpart
  rcases List.mem_append.mp hpart with hup | hdown
  · rw [List.eq_of_mem_replicate hup]
    simp [parent, isSeparator]
  · apply whole_of_mem_parts h part
    rw [hds]
    exact List.mem_append_right ds hdown

theorem map_intercalate (f : Char → Char) (sep : Char) (parts : List (List Char)) :
    ([sep].intercalate parts).map f = [f sep].intercalate (parts.map (List.map f)) := by
  induction parts with
  | nil => rfl
  | cons part parts ih =>
    cases parts with
    | nil => simp
    | cons next parts =>
      rw [List.map_cons, List.map_cons, List.intercalate_cons_cons, List.intercalate_cons_cons,
        List.map_append, List.map_append, ih]
      rfl

theorem differentDrives_map_slash (root path : List Char) :
    differentDrives (root.map slash) (path.map slash) = differentDrives root path := by
  rw [differentDrives, differentDrives, drive?_map_slash, drive?_map_slash]

theorem relativeChars_map_slash (root path : List Char) :
    relativeChars (root.map slash) (path.map slash) = (relativeChars root path).map slash := by
  rw [relativeChars, relativeChars, differentDrives_map_slash]
  split
  · rfl
  · simp only [drive?_map_slash, ofPath_map_slash, separatorOf_map_slash]
    rw [map_intercalate, slash_of_isSeparator (isSeparator_separatorOf path),
      map_map_slash_eq_self (whole_of_mem_wayParts (isName_of_mem_ofPath path))]

/-- Rewriting the way between two paths is the same as rewriting the paths. -/
theorem withSlashes_relative (root path : String) :
    withSlashes (relative root path) = relative (withSlashes root) (withSlashes path) := by
  rw [← String.toList_inj, toList_withSlashes, relative, relative, String.toList_ofList,
    String.toList_ofList, toList_withSlashes, toList_withSlashes, relativeChars_map_slash]

theorem withSlashes_withSlashes (path : String) :
    withSlashes (withSlashes path) = withSlashes path := by
  rw [← String.toList_inj, toList_withSlashes, toList_withSlashes, List.map_map]
  apply List.map_congr_left
  intro c _
  exact if_neg (slash_ne c)

theorem backslash_not_mem_withSlashes (path : String) : '\\' ∉ (withSlashes path).toList := by
  rw [toList_withSlashes]
  exact backslash_not_mem path.toList

end Path

namespace Target

open CursorCommand.Path

/-- The target with slashes for the backslashes in both of its paths. -/
def slashed (t : Target) : Target :=
  { t with
    workspaceRoot := withSlashes t.workspaceRoot
    testFilePath := withSlashes t.testFilePath }

/-- What stands in the place of a placeholder is the same whether paths are rewritten at the end or
at the start. -/
theorem value_unixPaths (t : Target) (p : Placeholder) :
    { t with unixPaths := true }.value p = { t.slashed with unixPaths := false }.value p := by
  cases p with
  | relativeTestPath => exact withSlashes_relative t.workspaceRoot t.testFilePath
  | _ => rfl

theorem value_slashed (t : Target) (p : Placeholder) :
    { t.slashed with unixPaths := true }.value p = { t with unixPaths := true }.value p := by
  cases p with
  | workspaceRoot => exact withSlashes_withSlashes t.workspaceRoot
  | testFilePath => exact withSlashes_withSlashes t.testFilePath
  | relativeTestPath =>
    change withSlashes (relative (withSlashes _) (withSlashes _)) = withSlashes (relative _ _)
    rw [← withSlashes_relative, withSlashes_withSlashes]
  | _ => rfl

end Target

/-- Asking for slashes gives the command for the paths with slashes, which no longer depends on
asking; the way between two paths is rewritten with them, and no path in the command has a backslash
left. -/
theorem command_unixPaths (t : Target) (template : String) :
    let unix : Target := { t with unixPaths := true }
    unix.command template = { t.slashed with unixPaths := false }.command template ∧
    unix.command template = { t.slashed with unixPaths := true }.command template ∧
    (∀ root path : String, Path.withSlashes (Path.relative root path) =
      Path.relative (Path.withSlashes root) (Path.withSlashes path)) ∧
    '\\' ∉ (unix.value .workspaceRoot).toList ∧ '\\' ∉ (unix.value .testFilePath).toList ∧
      '\\' ∉ (unix.value .relativeTestPath).toList := by
  intro unix
  have hfirst : unix.value = { t.slashed with unixPaths := false }.value := funext t.value_unixPaths
  have hsecond : { t.slashed with unixPaths := true }.value = unix.value := funext t.value_slashed
  refine ⟨?_, ?_, Path.withSlashes_relative, Path.backslash_not_mem_withSlashes _,
    Path.backslash_not_mem_withSlashes _, Path.backslash_not_mem_withSlashes _⟩
  · rw [Target.command, Target.command, hfirst]
  · rw [Target.command, Target.command, hsecond]

end CursorCommand
