import CursorCommand.CommandLine.Files
import Mathlib.Data.List.Basic
import Mathlib.Data.List.Nodup

/-!
# Where paths lead in a file tree

A path is followed part by part, and only from a directory. So a file is found at its own path, at
the same path with empty parts and dots in between, and at no path that ends in a slash.
-/
namespace CursorCommand

namespace FileTree

variable {t : FileTree} {place next : List String} {part : String}

/-- A part that goes down, to something of that name. -/
def IsName (part : String) : Prop := part ≠ "" ∧ part ≠ "." ∧ part ≠ ".."

theorem isDirectory_iff : t.isDirectory place = true ↔
    place = [] ∨ (∃ f ∈ t.files, place <+: f.1 ∧ place ≠ f.1) ∨
      ∃ d ∈ t.directories, place <+: d := by
  have hlonger (f : List String) :
      (place.length < f.length ∧ place <+: f) ↔ (place <+: f ∧ place ≠ f) := by
    constructor
    · rintro ⟨hlength, hfront⟩
      exact ⟨hfront, fun heq => absurd hlength (by rw [heq]; exact Nat.lt_irrefl _)⟩
    · rintro ⟨hfront, hne⟩
      exact ⟨Nat.lt_of_not_le fun hle => hne (hfront.eq_of_length_le hle), hfront⟩
  simp only [isDirectory, Bool.or_eq_true, List.isEmpty_iff, List.any_eq_true, Bool.and_eq_true,
    decide_eq_true_eq, List.isPrefixOf_iff_prefix, hlonger, or_assoc]

theorem isDirectory_nil (t : FileTree) : t.isDirectory [] = true := isDirectory_iff.mpr (.inl rfl)

theorem isDirectory_of_isPrefix (h : t.isDirectory next = true) (hfront : place <+: next) :
    t.isDirectory place = true := by
  rw [isDirectory_iff] at h ⊢
  rcases h with rfl | ⟨f, hf, hfile, hne⟩ | ⟨d, hd, hdirectory⟩
  · exact .inl (List.prefix_nil.mp hfront)
  · refine .inr (.inl ⟨f, hf, hfront.trans hfile, ?_⟩)
    rintro rfl
    exact hne (hfile.eq_of_length_le hfront.length_le)
  · exact .inr (.inr ⟨d, hd, hfront.trans hdirectory⟩)

theorem step?_of_not_isDirectory (h : t.isDirectory place = false) (part : String) :
    t.step? place part = none := by
  rw [step?, if_neg (by simp [h])]

theorem step?_idle (h : t.isDirectory place = true) (hpart : part = "" ∨ part = ".") :
    t.step? place part = some place := by
  rw [step?, if_pos h, if_pos hpart]

theorem step?_name (h : t.isDirectory place = true) (hpart : IsName part) :
    t.step? place part = some (place ++ [part]) := by
  rw [step?, if_pos h, if_neg (by simp [hpart.1, hpart.2.1]), if_neg hpart.2.2]

/-- A part that is no name leads from a directory to a directory. -/
theorem isDirectory_of_step? (h : t.step? place part = some next) (hpart : ¬ IsName part) :
    t.isDirectory next = true := by
  have hplace : t.isDirectory place = true := by
    by_contra hnot
    rw [step?_of_not_isDirectory (by simpa using hnot)] at h
    cases h
  by_cases hidle : part = "" ∨ part = "."
  · rw [step?_idle hplace hidle] at h
    exact Option.some.inj h ▸ hplace
  · have hup : part = ".." := by
      rw [not_or] at hidle
      by_contra hnot
      exact hpart ⟨hidle.1, hidle.2, hnot⟩
    rw [step?, if_pos hplace, if_neg hidle, if_pos hup] at h
    exact Option.some.inj h ▸ isDirectory_of_isPrefix hplace (List.dropLast_prefix place)

/-! ### Paths and their parts -/

theorem parts_slash (front back : String) :
    parts (front ++ "/" ++ back) = parts front ++ parts back := by
  have hlist : (front ++ "/" ++ back).toList = front.toList ++ '/' :: back.toList := by simp
  rw [parts, hlist, List.splitOnP_append_cons _ _ (by decide), List.map_append]
  rfl

theorem parts_of_whole {name : String} (h : '/' ∉ name.toList) : parts name = [name] := by
  have hwhole : ∀ c ∈ name.toList, (c == '/') = false := by
    intro c hc
    exact beq_false_of_ne fun heq => h (heq ▸ hc)
  rw [parts, List.splitOnP_eq_singleton hwhole, List.map_singleton, String.ofList_toList]

theorem parts_ne_nil (path : String) : parts path ≠ [] := by
  rw [parts, Ne, List.map_eq_nil_iff]
  exact List.splitOnP_ne_nil _ _

theorem parts_intercalate {names : List String} (hne : names ≠ [])
    (hnames : ∀ n ∈ names, '/' ∉ n.toList) : parts ("/".intercalate names) = names := by
  have hsplit : (['/'].intercalate (names.map String.toList)).splitOn '/' =
      names.map String.toList := by
    apply List.splitOn_intercalate
    · intro cs hcs
      obtain ⟨n, hn, rfl⟩ := List.mem_map.mp hcs
      exact hnames n hn
    · simpa using hne
  have hlist : ("/".intercalate names).toList = ['/'].intercalate (names.map String.toList) := by
    rw [String.toList_intercalate]
    rfl
  have hparts : parts ("/".intercalate names) =
      (("/".intercalate names).toList.splitOn '/').map String.ofList := rfl
  rw [hparts, hlist, hsplit, List.map_map]
  simp [Function.comp_def]

/-- An empty part, or a dot, in front of others makes no difference: they start from a directory
too. -/
theorem foldlM_idle (hpart : part = "" ∨ part = ".") {ps : List String} (hne : ps ≠ []) :
    (part :: ps).foldlM t.step? place = ps.foldlM t.step? place := by
  rw [List.foldlM_cons]
  cases hplace : t.isDirectory place with
  | true =>
    rw [step?_idle hplace hpart]
    rfl
  | false =>
    obtain ⟨p, ps, rfl⟩ := List.exists_cons_of_ne_nil hne
    rw [List.foldlM_cons, step?_of_not_isDirectory hplace, step?_of_not_isDirectory hplace]
    rfl

/-- Names are followed down as long as they lead to directories. -/
theorem foldlM_names {names : List String} (hnames : ∀ n ∈ names, IsName n)
    (hdirectories : ∀ front, front <+: names → front ≠ names →
      t.isDirectory (place ++ front) = true) :
    names.foldlM t.step? place = some (place ++ names) := by
  induction names generalizing place with
  | nil => rw [List.append_nil]; rfl
  | cons name names ih =>
    have hplace : t.isDirectory place = true := by
      simpa using hdirectories [] List.nil_prefix (by simp)
    rw [List.foldlM_cons, step?_name hplace (hnames name List.mem_cons_self), Option.bind_eq_bind,
      Option.bind_some, ih fun n hn => hnames n (List.mem_cons_of_mem name hn)]
    · rw [List.append_assoc, List.singleton_append]
    · intro front hfront hne
      have hcons := hdirectories (name :: front) (List.prefix_cons_inj name |>.mpr hfront)
        (by simpa using hne)
      rwa [List.append_assoc, List.singleton_append]

/-! ### Files -/

/-- Files have names, each its own, and are no directories. -/
structure Proper (t : FileTree) : Prop where
  leaf : ∀ f ∈ t.files, t.isDirectory f.1 = false
  names : ∀ f ∈ t.files, ∀ n ∈ f.1, IsName n ∧ '/' ∉ n.toList
  nodup : (t.files.map Prod.fst).Nodup

theorem bytes?_eq (t : FileTree) (path : String) : t.bytes? path =
    ((parts path).foldlM t.step? []).bind fun place =>
      (t.files.find? fun f => f.1 == place).map (·.2) := rfl

/-- A path that ends in a slash leads to no file, nor does one that ends in a dot or two. -/
theorem bytes?_behind_slash (h : t.Proper) (path : String) (hpart : ¬ IsName part)
    (hwhole : '/' ∉ part.toList) : t.bytes? (path ++ "/" ++ part) = none := by
  rw [bytes?_eq, parts_slash, parts_of_whole hwhole, List.foldlM_append, Option.bind_eq_none_iff]
  intro next hnext
  -- Wherever the front leads, the last part goes on from there to a directory.
  obtain ⟨place, -, hstep⟩ := Option.bind_eq_some_iff.mp hnext
  rw [List.foldlM_cons] at hstep
  obtain ⟨last, hlast, hnil⟩ := Option.bind_eq_some_iff.mp hstep
  cases hnil
  rw [Option.map_eq_none_iff, List.find?_eq_none]
  intro f hf heq
  have hdirectory := isDirectory_of_step? hlast hpart
  rw [← beq_iff_eq.mp heq, h.leaf f hf] at hdirectory
  cases hdirectory

/-- Empty parts and dots in a path make no difference to the file that it leads to. -/
theorem bytes?_idle_between (t : FileTree) (front back : String)
    (hpart : part = "" ∨ part = ".") :
    t.bytes? (front ++ "/" ++ part ++ "/" ++ back) = t.bytes? (front ++ "/" ++ back) := by
  have hwhole : '/' ∉ part.toList := by
    rcases hpart with rfl | rfl <;> decide
  rw [bytes?_eq, bytes?_eq, parts_slash, parts_slash, parts_slash, parts_of_whole hwhole,
    List.append_assoc, List.foldlM_append, List.foldlM_append]
  congr 2
  funext place
  exact foldlM_idle hpart (parts_ne_nil back)

/-- A file is read at its own path. -/
theorem bytes?_own_path (h : t.Proper) {names : List String} {bytes : ByteArray}
    (hf : (names, bytes) ∈ t.files) : t.bytes? ("/" ++ "/".intercalate names) = some bytes := by
  have hleaf := h.leaf _ hf
  have hnames := h.names _ hf
  have hne : names ≠ [] := by
    rintro rfl
    rw [isDirectory_nil] at hleaf
    cases hleaf
  have hparts : parts ("/" ++ "/".intercalate names) = "" :: names := by
    have hroot : "/" ++ "/".intercalate names = "" ++ "/" ++ "/".intercalate names := by simp
    rw [hroot, parts_slash, parts_intercalate hne fun n hn => (hnames n hn).2]
    rfl
  have hwalk : names.foldlM t.step? [] = some names := by
    refine foldlM_names (fun n hn => (hnames n hn).1) ?_
    intro front hfront hproper
    exact isDirectory_iff.mpr (.inr (.inl ⟨_, hf, hfront, hproper⟩))
  rw [bytes?_eq, hparts, foldlM_idle (.inl rfl) hne, hwalk, Option.bind_some]
  cases hfound : t.files.find? fun f => f.1 == names with
  | none => exact absurd (beq_self_eq_true names) (List.find?_eq_none.mp hfound _ hf)
  | some g =>
    have hg : g.1 = names := by simpa using List.find?_some hfound
    have heq := List.inj_on_of_nodup_map h.nodup (List.mem_of_find?_eq_some hfound) hf hg
    rw [heq]
    rfl

/-- A run reads the same file whether or not a path from its directory has a dot in front. -/
theorem machine_text?_dot (t : FileTree) (directory : String) (parse : String → Node)
    {path : String} (h : path.toList.head? ≠ some '/') :
    (t.machine directory parse).text? (CommandLine.absolute directory ("./" ++ path)) =
      (t.machine directory parse).text? (CommandLine.absolute directory path) := by
  have hbytes (front : String) :
      t.bytes? (front ++ "/" ++ ("./" ++ path)) = t.bytes? (front ++ "/" ++ path) := by
    have hdot : front ++ "/" ++ ("./" ++ path) = front ++ "/" ++ "." ++ "/" ++ path := by
      rw [← String.toList_inj]
      simp
    rw [hdot, bytes?_idle_between t front path (.inr rfl)]
  have hrelative : ("./" ++ path).toList.head? ≠ some '/' := by simp
  have htext (file : String) : (t.machine directory parse).text? file =
      (t.bytes? file).bind String.fromUTF8? := rfl
  rw [htext, htext, CommandLine.absolute, CommandLine.absolute, if_neg hrelative, if_neg h]
  split
  · next hslash =>
    obtain ⟨front, hfront⟩ := List.getLast?_eq_some_iff.mp hslash
    have hdirectory : directory = String.ofList front ++ "/" := by
      rw [← String.toList_inj, hfront]
      simp
    rw [hdirectory, hbytes]
  · rw [hbytes]

end FileTree

end CursorCommand
