import CursorCommand.Path.Relative
import CursorCommand.Proofs.Path.Route

/-!
# Characters that a path does not tell apart

A change of characters that leaves separators, dots, colons and letters what they are goes through
all that is read off a path: the route of the changed path is the route with its names changed, and
so is the drive. Writing slashes for backslashes is such a change, and it leaves names as they are;
writing letters small is another.
-/
namespace CursorCommand

namespace Path

theorem isSeparator_iff {c : Char} : isSeparator c = true ↔ c = '/' ∨ c = '\\' := by
  rw [isSeparator, Bool.or_eq_true, beq_iff_eq, beq_iff_eq]

/-- A change of characters that shows neither in where a path is split, nor in which parts are dots,
nor in whether there is a drive. -/
structure Keeps (f : Char → Char) : Prop where
  separator : ∀ c, isSeparator (f c) = isSeparator c
  dot : ∀ c, f c = '.' ↔ c = '.'
  colon : ∀ c, f c = ':' ↔ c = ':'
  alpha : ∀ c, (f c).isAlpha = c.isAlpha

end Path

/-- A route with the characters of its names changed. -/
def Route.map (f : Char → Char) (r : Route) : Route := ⟨r.ups, r.names.map (List.map f)⟩

namespace Path

open Route

section

variable {f : Char → Char} (hf : Keeps f)

include hf

theorem Keeps.splitOnP_map (cs : List Char) :
    (cs.map f).splitOnP isSeparator = (cs.splitOnP isSeparator).map (List.map f) := by
  induction cs with
  | nil => rfl
  | cons c cs ih =>
    rw [List.map_cons, List.splitOnP_cons_eq_if_modifyHead, List.splitOnP_cons_eq_if_modifyHead,
      hf.separator, ih]
    split
    · rfl
    · cases cs.splitOnP isSeparator <;> rfl

theorem Keeps.map_eq_dots {part dots : List Char} (hdots : ∀ c ∈ dots, c = '.') :
    part.map f = dots ↔ part = dots := by
  induction part generalizing dots with
  | nil => simp
  | cons c part ih =>
    cases dots with
    | nil => simp
    | cons d dots =>
      rw [List.forall_mem_cons] at hdots
      rw [List.map_cons, List.cons_eq_cons, List.cons_eq_cons, ih hdots.2, hdots.1, hf.dot]

theorem Keeps.step_map (r : Route) (part : List Char) :
    (r.map f).step (part.map f) = (r.step part).map f := by
  have hnone : part.map f = [] ∨ part.map f = ['.'] ↔ part = [] ∨ part = ['.'] := by
    rw [hf.map_eq_dots (by simp), hf.map_eq_dots (by simp)]
  have hup : part.map f = parent ↔ part = parent := hf.map_eq_dots (by simp [parent])
  by_cases hpart : part = [] ∨ part = ['.']
  · rw [step_none hpart, step_none (hnone.mpr hpart)]
  · by_cases hparent : part = parent
    · rw [hup.mpr hparent, hparent]
      rcases r with ⟨ups, names⟩
      cases names with
      | nil => rfl
      | cons n ns =>
        rw [step_parent (by simp [Route.map]), step_parent (List.cons_ne_nil n ns)]
        simp only [Route.map, List.map_dropLast]
    · rw [step_name hpart hparent, step_name (mt hnone.mp hpart) (mt hup.mp hparent)]
      simp [Route.map]

theorem Keeps.ofPath_map (cs : List Char) : ofPath (cs.map f) = (ofPath cs).map f := by
  have hfold : ∀ (parts : List (List Char)) (r : Route),
      (parts.map (List.map f)).foldl step (r.map f) = (parts.foldl step r).map f := by
    intro parts
    induction parts with
    | nil => exact fun _ => rfl
    | cons part parts ih =>
      intro r
      rw [List.map_cons, List.foldl_cons, hf.step_map, ih, List.foldl_cons]
  rw [ofPath, hf.splitOnP_map]
  exact hfold _ here

theorem Keeps.parts_map (r : Route) : (r.map f).parts = r.parts.map (List.map f) := by
  have hparent : parent.map f = parent := (hf.map_eq_dots (by simp [parent])).mpr rfl
  rw [Route.parts, Route.parts, List.map_append, List.map_replicate, hparent]
  rfl

end

theorem drive?_cons_cons (a b : Char) (cs : List Char) :
    drive? (a :: b :: cs) = if b = ':' ∧ a.isAlpha = true then some a else none := by
  by_cases hb : b = ':'
  · subst hb
    simp [drive?]
  · rw [if_neg fun h => hb h.1, drive?]
    intro letter rest h
    exact hb (List.cons.inj (List.cons.inj h).2).1

theorem Keeps.drive?_map {f : Char → Char} (hf : Keeps f) (cs : List Char) :
    drive? (cs.map f) = (drive? cs).map f := by
  rcases cs with _ | ⟨a, _ | ⟨b, cs⟩⟩
  · rfl
  · rfl
  · simp only [List.map_cons, drive?_cons_cons, hf.colon, hf.alpha]
    split <;> rfl

theorem isAlpha_of_drive? {cs : List Char} {letter : Char} (h : drive? cs = some letter) :
    letter.isAlpha = true := by
  rcases cs with _ | ⟨a, _ | ⟨b, cs⟩⟩
  · cases h
  · cases h
  · rw [drive?_cons_cons, Option.ite_none_right_eq_some] at h
    exact Option.some.inj h.2 ▸ h.1.2

/-- A character as it is written in a path with slashes. -/
def slash (c : Char) : Char := if c = '\\' then '/' else c

theorem slash_cases {P : Char → Char → Prop} (backslash : P '\\' '/') (same : ∀ c, P c c)
    (c : Char) : P c (slash c) := by
  unfold slash
  split
  · rename_i h
    exact h ▸ backslash
  · exact same c

theorem slash_of_isSeparator {c : Char} (h : isSeparator c = true) : slash c = '/' := by
  rcases isSeparator_iff.mp h with rfl | rfl <;> rfl

theorem slash_eq_self {c : Char} (h : isSeparator c = false) : slash c = c := by
  apply if_neg
  rintro rfl
  cases h

theorem keeps_slash : Keeps slash where
  separator := slash_cases (P := fun c d => isSeparator d = isSeparator c) rfl fun _ => rfl
  dot := slash_cases (P := fun c d => d = '.' ↔ c = '.') (by decide) fun _ => Iff.rfl
  colon := slash_cases (P := fun c d => d = ':' ↔ c = ':') (by decide) fun _ => Iff.rfl
  alpha := slash_cases (P := fun c d => d.isAlpha = c.isAlpha) rfl fun _ => rfl

theorem map_slash_eq_self {part : List Char} (h : ∀ c ∈ part, isSeparator c = false) :
    part.map slash = part :=
  (List.map_congr_left fun c hc => slash_eq_self (h c hc)).trans (List.map_id' part)

theorem map_map_slash_eq_self {parts : List (List Char)}
    (h : ∀ part ∈ parts, ∀ c ∈ part, isSeparator c = false) :
    parts.map (List.map slash) = parts :=
  (List.map_congr_left fun part hpart => map_slash_eq_self (h part hpart)).trans (List.map_id' parts)

/-- Slashes for backslashes leave a path with the same route. -/
theorem ofPath_map_slash (cs : List Char) : ofPath (cs.map slash) = ofPath cs := by
  rw [keeps_slash.ofPath_map, Route.map,
    map_map_slash_eq_self fun n hn => (isName_of_mem_ofPath cs n hn).whole]

theorem drive?_map_slash (cs : List Char) : drive? (cs.map slash) = drive? cs := by
  rw [keeps_slash.drive?_map]
  cases h : drive? cs with
  | none => rfl
  | some letter =>
    have hne : letter ≠ '\\' := by
      rintro rfl
      cases isAlpha_of_drive? h
    rw [Option.map_some, slash, if_neg hne]

theorem isLower_toLower {c : Char} (h : c.isUpper = true) : c.toLower.isLower = true := by
  have hupper : 65 ≤ c.val.toNat ∧ c.val.toNat ≤ 90 := of_decide_eq_true h
  have hlower : c.toLower.val = c.val + ('a'.val - 'A'.val) :=
    congrArg Char.val (dif_pos (of_decide_eq_true h))
  have hshift : ('a'.val - 'A'.val).toNat = 32 := rfl
  have hval : c.toLower.val.toNat = c.val.toNat + 32 := by
    rw [hlower, UInt32.toNat_add, hshift]
    omega
  refine Bool.and_eq_true_iff.mpr ⟨decide_eq_true ?_, decide_eq_true ?_⟩
  · change 97 ≤ c.toLower.val.toNat
    omega
  · change c.toLower.val.toNat ≤ 122
    omega

theorem toLower_eq_self {c : Char} (h : c.isUpper = false) : c.toLower = c :=
  dif_neg (of_decide_eq_false h)

/-- What is not a letter comes from itself alone when letters are made small. -/
theorem toLower_eq_iff {c d : Char} (hupper : d.isUpper = false) (hlower : d.isLower = false) :
    c.toLower = d ↔ c = d := by
  constructor
  · intro h
    cases hc : c.isUpper with
    | true => simp [← h, isLower_toLower hc] at hlower
    | false => exact (toLower_eq_self hc).symm.trans h
  · rintro rfl
    exact toLower_eq_self hupper

theorem keeps_toLower : Keeps Char.toLower where
  separator c := by
    have hslash : c.toLower = '/' ↔ c = '/' := toLower_eq_iff rfl rfl
    have hback : c.toLower = '\\' ↔ c = '\\' := toLower_eq_iff rfl rfl
    rw [Bool.eq_iff_iff, isSeparator_iff, isSeparator_iff, hslash, hback]
  dot c := toLower_eq_iff rfl rfl
  colon c := toLower_eq_iff rfl rfl
  alpha c := by
    cases hc : c.isUpper with
    | true =>
      change (c.toLower.isUpper || c.toLower.isLower) = (c.isUpper || c.isLower)
      rw [hc, isLower_toLower hc, Bool.or_true, Bool.true_or]
    | false => rw [toLower_eq_self hc]

end Path

end CursorCommand
