import CursorCommand.Proofs.Path.Characters
import Mathlib.Data.List.Forall2

/-!
# Relative paths lead where they should

The way from one path to another, written behind the first, makes a path with the same parts as the
second, and no other text that does so has fewer parts. The first path must not lead above where it
starts: no text takes back such a step.
-/
namespace CursorCommand

namespace Path

section

variable {α : Type} {same : α → α → Bool}

/-- What two lists share is equal part by part. -/
theorem diverge_shared (same : α → α → Bool) (as bs : List α) :
    ∃ cs ds, as = cs ++ (diverge same as bs).1 ∧ bs = ds ++ (diverge same as bs).2 ∧
      List.Forall₂ (fun c d => same c d = true) cs ds := by
  induction as, bs using diverge.induct same with
  | case1 a as b bs hab ih =>
    obtain ⟨cs, ds, has, hbs, hsame⟩ := ih
    rw [diverge, if_pos hab]
    exact ⟨a :: cs, b :: ds, by rw [List.cons_append, ← has], by rw [List.cons_append, ← hbs],
      .cons hab hsame⟩
  | case2 a as b bs hab =>
    rw [diverge, if_neg hab]
    exact ⟨[], [], rfl, rfl, .nil⟩
  | case3 as bs hne =>
    rw [diverge]
    · exact ⟨[], [], rfl, rfl, .nil⟩
    · exact hne

/-- Two lists share as much as they can. -/
theorem length_diverge_add_le {as bs : List α} {k : Nat} (hk : k ≤ as.length)
    (h : List.Forall₂ (fun a b => same a b = true) (as.take k) (bs.take k)) :
    (diverge same as bs).1.length + k ≤ as.length := by
  induction as, bs using diverge.induct same generalizing k with
  | case1 a as b bs hab ih =>
    rw [diverge, if_pos hab]
    cases k with
    | zero =>
      obtain ⟨cs, ds, has, -, -⟩ := diverge_shared same as bs
      have hlen := congrArg List.length has
      simp only [List.length_append] at hlen
      simp only [List.length_cons]
      omega
    | succ k =>
      rw [List.take_succ_cons, List.take_succ_cons, List.forall₂_cons] at h
      have hrest := ih (Nat.le_of_succ_le_succ hk) h.2
      simp only [List.length_cons]
      omega
  | case2 a as b bs hab =>
    rw [diverge, if_neg hab]
    cases k with
    | zero => exact Nat.le_refl _
    | succ k =>
      rw [List.take_succ_cons, List.take_succ_cons, List.forall₂_cons] at h
      exact (hab h.1).elim
  | case3 as bs hne =>
    rw [diverge]
    · cases k with
      | zero => exact Nat.le_refl _
      | succ k =>
        cases as with
        | nil => cases hk
        | cons a as =>
          cases bs with
          | nil => cases h
          | cons b bs => exact (hne a as b bs rfl rfl).elim
    · exact hne

end

theorem samePart_refl (ignoreCase : Bool) (part : List Char) :
    samePart ignoreCase part part = true := by
  cases ignoreCase <;> simp [samePart, sameLetters]

theorem forall₂_samePart_refl (ignoreCase : Bool) (parts : List (List Char)) :
    List.Forall₂ (fun a b => samePart ignoreCase a b = true) parts parts :=
  List.forall₂_same.mpr fun part _ => samePart_refl ignoreCase part

/-- No other part has the letters of the part that leads up. -/
theorem eq_parent_of_samePart {ignoreCase : Bool} {part : List Char}
    (h : samePart ignoreCase part parent = true) : part = parent := by
  cases ignoreCase with
  | false => simpa [samePart] using h
  | true =>
    have hlower : part.map Char.toLower = parent := beq_iff_eq.mp h
    exact (keeps_toLower.map_eq_dots (by simp [parent])).mp hlower

open Route

section

variable {ignoreCase : Bool} {root path : Route}

theorem ups_eq_zero (h : parent ∉ root.parts) : root.ups = 0 := by
  by_contra hups
  exact h (List.mem_append_left _ (List.mem_replicate.mpr ⟨hups, rfl⟩))

theorem ups_eq_zero_of_head_ne {part : List Char} {parts : List (List Char)} (hpart : part ≠ parent)
    (h : path.parts = part :: parts) : path.ups = 0 := by
  cases hups : path.ups with
  | zero => rfl
  | succ n =>
    rw [Route.parts, hups, List.replicate_succ, List.cons_append] at h
    exact (hpart (List.cons.inj h).1.symm).elim

theorem parts_of_ups_eq_zero (h : root.ups = 0) : root.parts = root.names := by
  rw [Route.parts, h]
  rfl

/-- The parts of a way are those of a route, and it leads to the path. -/
theorem exists_route_wayParts (ignoreCase : Bool) (hroot : parent ∉ root.parts)
    (hpath : ∀ n ∈ path.names, IsName n) :
    ∃ way : Route, (∀ n ∈ way.names, IsName n) ∧ way.parts = wayParts ignoreCase root path ∧
      List.Forall₂ (fun a b => samePart ignoreCase a b = true) (root.followedBy way).parts
        path.parts := by
  obtain ⟨cs, ds, hcs, hds, hsame⟩ := diverge_shared (samePart ignoreCase) root.parts path.parts
  have hrootUps := ups_eq_zero hroot
  rw [wayParts]
  generalize diverge (samePart ignoreCase) root.parts path.parts = rest at *
  rcases rest with ⟨up, down⟩
  simp only at hcs hds ⊢
  have hnames : root.names = cs ++ up := (parts_of_ups_eq_zero hrootUps).symm.trans hcs
  cases hsame with
  | nil =>
    -- Nothing is shared, so all of the first path is taken back and all of the second is gone.
    refine ⟨⟨up.length + path.ups, path.names⟩, hpath, ?_, ?_⟩
    · rw [← show path.parts = down from hds, Route.parts, Route.parts, List.replicate_add,
        List.append_assoc]
    · have hlen : root.names.length = up.length := congrArg List.length hnames
      rw [← hlen, followedBy_back hrootUps]
      exact forall₂_samePart_refl ignoreCase path.parts
  | @cons c d cs ds hcd hsame =>
    -- The paths share a name, so the second leads down only.
    have hd : d ≠ parent := by
      rintro rfl
      rw [eq_parent_of_samePart hcd] at hcs
      exact hroot (hcs ▸ List.mem_cons_self)
    have hpathUps : path.ups = 0 := ups_eq_zero_of_head_ne hd hds
    have hpathNames : path.names = d :: ds ++ down :=
      (parts_of_ups_eq_zero hpathUps).symm.trans hds
    refine ⟨⟨up.length, down⟩, ?_, rfl, ?_⟩
    · intro n hn
      exact hpath n (hpathNames ▸ List.mem_append_right _ hn)
    · have hlen : root.names.length = (c :: cs).length + up.length := by
        rw [hnames, List.length_append]
      have hkeep : root.names.take (root.names.length - up.length) = c :: cs := by
        rw [hlen, Nat.add_sub_cancel, hnames, List.take_left]
      have hshared : List.Forall₂ (fun a b => samePart ignoreCase a b = true) (c :: cs) (d :: ds) :=
        .cons hcd hsame
      rw [parts_followedBy hrootUps (by simp only; omega), hkeep, hds]
      exact List.rel_append hshared (forall₂_samePart_refl ignoreCase down)

/-- No route to the path has fewer parts than the way. -/
theorem length_wayParts_le {way : Route} (hroot : root.ups = 0)
    (h : List.Forall₂ (fun a b => samePart ignoreCase a b = true) (root.followedBy way).parts
      path.parts) :
    (wayParts ignoreCase root path).length ≤ way.parts.length := by
  obtain ⟨cs, ds, hcs, hds, hsame⟩ := diverge_shared (samePart ignoreCase) root.names path.parts
  have hrootLen := congrArg List.length hcs
  have hpathLen := congrArg List.length hds
  have hsharedLen := hsame.length_eq
  have hlen := h.length_eq
  have hwayLen : way.parts.length = way.ups + way.names.length := by
    rw [Route.parts, List.length_append, List.length_replicate]
  rw [List.length_append] at hrootLen hpathLen
  rw [wayParts, parts_of_ups_eq_zero hroot, List.length_append, List.length_replicate]
  by_cases hups : way.ups ≤ root.names.length
  · -- The names that are kept are shared, so there are no more of them than the way keeps.
    rw [parts_followedBy hroot hups] at h hlen
    have hkept := List.forall₂_take (root.names.length - way.ups) h
    rw [List.take_left' (by rw [List.length_take]; omega)] at hkept
    have hmost := length_diverge_add_le (Nat.sub_le _ way.ups) hkept
    rw [List.length_append, List.length_take] at hlen
    omega
  · rw [Route.parts, followedBy, List.length_append, List.length_replicate, List.length_append,
      List.length_take] at hlen
    simp only [hroot] at hlen
    omega

end

/-- The normalised parts of a path. -/
def components (path : String) : List (List Char) := (Route.ofPath path.toList).parts

/-- Whether parts are compared without regard to case: one of the paths has a drive letter. -/
def ignoresCase (root path : String) : Bool :=
  (drive? root.toList).isSome || (drive? path.toList).isSome

/-- Parts are the same, up to the case of ASCII letters if one of the paths has a drive letter. -/
def Agree (root path : String) (as bs : List (List Char)) : Prop :=
  if ignoresCase root path then
    List.Forall₂ (fun a b => a.map Char.toLower = b.map Char.toLower) as bs
  else as = bs

/-- A text written behind the root makes a path with the same parts as the path. -/
def Leads (root path way : String) : Prop :=
  Agree root path (components (root ++ "/" ++ way)) (components path)

theorem agree_iff {root path : String} {as bs : List (List Char)} :
    Agree root path as bs ↔
      List.Forall₂ (fun a b => samePart (ignoresCase root path) a b = true) as bs := by
  rw [Agree]
  cases ignoresCase root path with
  | true => simp [samePart, sameLetters]
  | false => simp [samePart, List.forall₂_eq_eq_eq]

theorem ofPath_behind (root way : String) :
    ofPath (root ++ "/" ++ way).toList = (ofPath root.toList).followedBy (ofPath way.toList) := by
  have hchars : (root ++ "/" ++ way).toList = root.toList ++ '/' :: way.toList := by simp
  rw [hchars, ofPath_append _ _ rfl]

theorem differentDrives_eq_false {root path : List Char}
    (h : ∀ a b, drive? root = some a → drive? path = some b → a.toLower = b.toLower) :
    differentDrives root path = false := by
  rw [differentDrives]
  cases ha : drive? root with
  | none => rfl
  | some a =>
    cases hb : drive? path with
    | none => rfl
    | some b => simp [h a b ha hb]

theorem isSeparator_separatorOf (path : List Char) : isSeparator (separatorOf path) = true := by
  rw [separatorOf]
  split <;> rfl

section

variable {root path : String}

theorem toList_relative
    (h : ∀ a b, drive? root.toList = some a → drive? path.toList = some b → a.toLower = b.toLower) :
    (relative root path).toList = [separatorOf path.toList].intercalate
      (wayParts (ignoresCase root path) (ofPath root.toList) (ofPath path.toList)) := by
  rw [relative, String.toList_ofList, relativeChars, differentDrives_eq_false h,
    if_neg Bool.false_ne_true, ignoresCase]

/-- What is written for the way reads back as a route that leads to the path. -/
theorem components_relative
    (hdrive : ∀ a b, drive? root.toList = some a → drive? path.toList = some b →
      a.toLower = b.toLower)
    (hroot : parent ∉ components root) :
    components (relative root path) =
        wayParts (ignoresCase root path) (ofPath root.toList) (ofPath path.toList) ∧
      Leads root path (relative root path) := by
  obtain ⟨way, hnames, hparts, hleads⟩ := exists_route_wayParts (ignoresCase root path) hroot
    (isName_of_mem_ofPath path.toList)
  have hway : ofPath (relative root path).toList = way := by
    rw [toList_relative hdrive, ← hparts]
    exact ofPath_intercalate (isSeparator_separatorOf path.toList) hnames
  constructor
  · rw [components, hway, hparts]
  · rw [Leads, agree_iff, components, ofPath_behind, hway]
    exact hleads

theorem leads_empty_iff :
    Leads root path "" ↔ Agree root path (components root) (components path) := by
  have hempty : ofPath "".toList = here := by decide
  rw [Leads, components, ofPath_behind, hempty, followedBy_here]
  rfl

theorem length_components_relative_le
    (hdrive : ∀ a b, drive? root.toList = some a → drive? path.toList = some b →
      a.toLower = b.toLower)
    (hroot : parent ∉ components root) {other : String} (h : Leads root path other) :
    (components (relative root path)).length ≤ (components other).length := by
  rw [Leads, agree_iff, components, ofPath_behind] at h
  rw [(components_relative hdrive hroot).1]
  exact length_wayParts_le (ups_eq_zero hroot) h

end

/-- The relative path leads from the root to the path, its parts are those that it is written from,
and no text that leads there has fewer parts. -/
theorem relative_shortest (root path : String)
    (hdrive : ∀ a b, drive? root.toList = some a → drive? path.toList = some b →
      a.toLower = b.toLower)
    (hroot : parent ∉ components root) :
    let way := relative root path
    let ways := wayParts (ignoresCase root path) (ofPath root.toList) (ofPath path.toList)
    Leads root path way ∧
      (way.toList = [separatorOf path.toList].intercalate ways ∧ components way = ways) ∧
      (∀ other, Leads root path other → (components way).length ≤ (components other).length) ∧
      (way = "" ↔ Agree root path (components root) (components path)) := by
  intro way ways
  have htext : way.toList = [separatorOf path.toList].intercalate ways := toList_relative hdrive
  obtain ⟨hways, hleads⟩ := components_relative hdrive hroot
  have hshortest : ∀ other, Leads root path other →
      (components way).length ≤ (components other).length :=
    fun other hother => length_components_relative_le hdrive hroot hother
  refine ⟨hleads, ⟨htext, hways⟩, hshortest, ?_⟩
  rw [← leads_empty_iff]
  constructor
  · intro hempty
    rw [← hempty]
    exact hleads
  · intro hempty
    have hnil : components way = [] :=
      List.eq_nil_of_length_eq_zero (Nat.le_zero.mp (hshortest "" hempty))
    rw [show ways = [] from hways.symm.trans hnil] at htext
    exact String.toList_eq_nil_iff.mp htext

/-- Drive letters in either case, and nothing but the drive is shared. -/
theorem relative_shortest_drive :
    let root := "c:\\Work\\src"
    let path := "C:/work/lib/../../up/a.ts"
    (∀ a b, drive? root.toList = some a → drive? path.toList = some b → a.toLower = b.toLower) ∧
      parent ∉ components root ∧ relative root path = "../../up/a.ts" ∧
      Leads root path "../../up/a.ts" ∧
      ∀ other, Leads root path other → 4 ≤ (components other).length := by
  intro root path
  have hdrive : ∀ a b, drive? root.toList = some a → drive? path.toList = some b →
      a.toLower = b.toLower := by
    intro a b ha hb
    have hrootDrive : drive? root.toList = some 'c' := by decide
    have hpathDrive : drive? path.toList = some 'C' := by decide
    rw [← Option.some.inj (hrootDrive.symm.trans ha), ← Option.some.inj (hpathDrive.symm.trans hb)]
    decide
  have hroot : parent ∉ components root := by decide
  have hway : relative root path = "../../up/a.ts" := by decide
  obtain ⟨hleads, -, hshortest, -⟩ := relative_shortest root path hdrive hroot
  rw [hway] at hleads hshortest
  exact ⟨hdrive, hroot, hway, hleads, hshortest⟩

end Path

end CursorCommand
