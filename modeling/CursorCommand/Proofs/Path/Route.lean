import CursorCommand.Path.Route
import Mathlib.Data.List.Basic

/-!
# Routes, put together

Going one route and then another is again a route, and normalising the two texts with a separator
between them gives it. The parts of a route are its own normal form: joined by a separator and read
again, they give the route back.
-/
namespace CursorCommand

namespace Route

open CursorCommand.Path

variable {r : Route}

/-- A part of a path that leads down: not empty, not a dot or two, and without a separator. -/
structure IsName (part : List Char) : Prop where
  ne_nil : part ≠ []
  ne_dot : part ≠ ['.']
  ne_parent : part ≠ parent
  whole : ∀ c ∈ part, isSeparator c = false

/-- The route `s` from where `r` ends: each step up takes back a name of `r` while there is one. -/
def followedBy (r s : Route) : Route :=
  ⟨r.ups + (s.ups - r.names.length), r.names.take (r.names.length - s.ups) ++ s.names⟩

theorem step_none {part : List Char} (h : part = [] ∨ part = ['.']) : r.step part = r := if_pos h

theorem step_parent_nil (n : Nat) : step ⟨n, []⟩ parent = ⟨n + 1, []⟩ := rfl

theorem step_parent (h : r.names ≠ []) : r.step parent = ⟨r.ups, r.names.dropLast⟩ := by
  rcases r with ⟨ups, names⟩
  cases names with
  | nil => exact (h rfl).elim
  | cons n ns => rfl

theorem step_name {part : List Char} (hnone : ¬ (part = [] ∨ part = ['.'])) (hup : part ≠ parent) :
    r.step part = ⟨r.ups, r.names ++ [part]⟩ := by
  rw [step, if_neg hnone, if_neg hup]

@[simp] theorem followedBy_here (r : Route) : r.followedBy here = r := by
  simp [followedBy, here]

theorem here_followedBy (r : Route) : here.followedBy r = r := by
  simp [followedBy, here]

/-- Taking back all of a route and going another ends where the other one does. -/
theorem followedBy_back {s : Route} (hr : r.ups = 0) :
    r.followedBy ⟨r.names.length + s.ups, s.names⟩ = s := by
  simp [followedBy, hr]

theorem parts_followedBy {s : Route} (hr : r.ups = 0) (h : s.ups ≤ r.names.length) :
    (r.followedBy s).parts = r.names.take (r.names.length - s.ups) ++ s.names := by
  rw [parts, followedBy, hr, Nat.sub_eq_zero_of_le h]
  rfl

theorem step_parent_followedBy (r : Route) (n : Nat) :
    (r.followedBy ⟨n, []⟩).step parent = r.followedBy ⟨n + 1, []⟩ := by
  by_cases hlen : r.names.length ≤ n
  · have hups : r.ups + (n - r.names.length) + 1 = r.ups + (n + 1 - r.names.length) := by omega
    simp only [followedBy, Nat.sub_eq_zero_of_le hlen,
      Nat.sub_eq_zero_of_le (Nat.le_succ_of_le hlen), List.take_zero, List.append_nil,
      step_parent_nil, hups]
  · have hne : r.names.take (r.names.length - n) ≠ [] := by
      rw [← List.length_pos_iff, List.length_take]
      omega
    have hdrop : (r.names.take (r.names.length - n)).dropLast =
        r.names.take (r.names.length - (n + 1)) := by
      rw [List.dropLast_eq_take, List.take_take, List.length_take]
      congr 1
      omega
    have hups : r.ups + (n - r.names.length) = r.ups + (n + 1 - r.names.length) := by omega
    rw [step_parent (by simpa [followedBy] using hne)]
    simp only [followedBy, List.append_nil, hdrop, hups]

theorem step_followedBy (r s : Route) (part : List Char) :
    (r.followedBy s).step part = r.followedBy (s.step part) := by
  by_cases hnone : part = [] ∨ part = ['.']
  · rw [step_none hnone, step_none hnone]
  · by_cases hup : part = parent
    · subst hup
      rcases s with ⟨ups, names⟩
      cases names with
      | nil => exact step_parent_followedBy r ups
      | cons n ns =>
        rw [step_parent (by simp [followedBy]), step_parent (by simp)]
        simp only [followedBy, List.dropLast_append_of_ne_nil (List.cons_ne_nil n ns)]
    · rw [step_name hnone hup, step_name hnone hup]
      simp only [followedBy, List.append_assoc]

theorem foldl_step_followedBy (r s : Route) (parts : List (List Char)) :
    parts.foldl step (r.followedBy s) = r.followedBy (parts.foldl step s) := by
  induction parts generalizing s with
  | nil => rfl
  | cons part parts ih => rw [List.foldl_cons, List.foldl_cons, step_followedBy, ih]

theorem foldl_step (r : Route) (parts : List (List Char)) :
    parts.foldl step r = r.followedBy (parts.foldl step here) := by
  rw [← foldl_step_followedBy, followedBy_here]

/-- A path behind another leads on from where that one ends. -/
theorem ofPath_append (a b : List Char) {sep : Char} (h : isSeparator sep = true) :
    ofPath (a ++ sep :: b) = (ofPath a).followedBy (ofPath b) := by
  rw [ofPath, List.splitOnP_append_cons a b h, List.foldl_append, foldl_step]
  rfl

theorem splitOnP_whole (path : List Char) :
    ∀ part ∈ path.splitOnP isSeparator, ∀ c ∈ part, isSeparator c = false := by
  induction path with
  | nil => simp
  | cons c cs ih =>
    rw [List.splitOnP_cons_eq_if_modifyHead]
    split
    · simpa using ih
    · rename_i hc
      cases hsplit : cs.splitOnP isSeparator with
      | nil => simp
      | cons first rest =>
        rw [hsplit, List.forall_mem_cons] at ih
        rw [List.modifyHead_cons, List.forall_mem_cons, List.forall_mem_cons]
        exact ⟨⟨by simpa using hc, ih.1⟩, ih.2⟩

theorem step_names {part : List Char} (hr : ∀ n ∈ r.names, IsName n)
    (hpart : ∀ c ∈ part, isSeparator c = false) : ∀ n ∈ (r.step part).names, IsName n := by
  by_cases hnone : part = [] ∨ part = ['.']
  · rwa [step_none hnone]
  · by_cases hup : part = parent
    · subst hup
      by_cases hnil : r.names = []
      · rcases r with ⟨ups, names⟩
        subst hnil
        simp [step_parent_nil]
      · rw [step_parent hnil]
        exact fun n hn => hr n (List.dropLast_subset _ hn)
    · rw [step_name hnone hup]
      rw [not_or] at hnone
      intro n hn
      rcases List.mem_append.mp hn with hn | hn
      · exact hr n hn
      · rw [List.mem_singleton.mp hn]
        exact ⟨hnone.1, hnone.2, hup, hpart⟩

/-- Normalising leaves steps up and names, and nothing else. -/
theorem isName_of_mem_ofPath (path : List Char) : ∀ n ∈ (ofPath path).names, IsName n := by
  have hfold : ∀ (parts : List (List Char)) (r : Route),
      (∀ part ∈ parts, ∀ c ∈ part, isSeparator c = false) → (∀ n ∈ r.names, IsName n) →
        ∀ n ∈ (parts.foldl step r).names, IsName n := by
    intro parts
    induction parts with
    | nil => exact fun _ _ hr => hr
    | cons part parts ih =>
      intro r hparts hr
      rw [List.forall_mem_cons] at hparts
      exact ih (r.step part) hparts.2 (step_names hr hparts.1)
  exact hfold _ here (splitOnP_whole path) (by simp [here])

theorem foldl_step_names {names : List (List Char)} (h : ∀ n ∈ names, IsName n) (r : Route) :
    names.foldl step r = ⟨r.ups, r.names ++ names⟩ := by
  induction names generalizing r with
  | nil => simp
  | cons n names ih =>
    rw [List.forall_mem_cons] at h
    have hnone : ¬ (n = [] ∨ n = ['.']) := not_or.mpr ⟨h.1.ne_nil, h.1.ne_dot⟩
    rw [List.foldl_cons, step_name hnone h.1.ne_parent, ih h.2]
    simp

theorem ofPath_of_isName {name : List Char} (h : IsName name) : ofPath name = ⟨0, [name]⟩ := by
  rw [ofPath, List.splitOnP_eq_singleton h.whole]
  exact foldl_step_names (by simpa using h) here

theorem foldl_step_parents (n m : Nat) :
    (List.replicate n parent).foldl step ⟨m, []⟩ = ⟨m + n, []⟩ := by
  induction n generalizing m with
  | zero => rfl
  | succ n ih =>
    rw [List.replicate_succ, List.foldl_cons, step_parent_nil, ih]
    simp only [Route.mk.injEq, and_true]
    omega

/-- A route is read back from its parts. -/
theorem foldl_step_parts (h : ∀ n ∈ r.names, IsName n) : r.parts.foldl step here = r := by
  rw [parts, List.foldl_append, here, foldl_step_parents, foldl_step_names h]
  simp

theorem whole_of_mem_parts (h : ∀ n ∈ r.names, IsName n) :
    ∀ part ∈ r.parts, ∀ c ∈ part, isSeparator c = false := by
  intro part hpart
  rcases List.mem_append.mp hpart with hpart | hpart
  · rw [List.eq_of_mem_replicate hpart]
    simp [parent, isSeparator]
  · exact (h part hpart).whole

theorem splitOnP_intercalate {sep : Char} (hsep : isSeparator sep = true)
    {parts : List (List Char)} (hne : parts ≠ [])
    (h : ∀ part ∈ parts, ∀ c ∈ part, isSeparator c = false) :
    ([sep].intercalate parts).splitOnP isSeparator = parts := by
  induction parts with
  | nil => exact (hne rfl).elim
  | cons part parts ih =>
    rw [List.forall_mem_cons] at h
    cases parts with
    | nil => rw [List.intercalate_singleton, List.splitOnP_eq_singleton h.1]
    | cons next parts =>
      rw [List.intercalate_cons_cons, List.append_assoc, List.singleton_append,
        List.splitOnP_append_cons_of_forall_mem h.1 sep hsep, ih (List.cons_ne_nil next parts) h.2]

/-- The parts of a route, joined by a separator, make a path that normalises to it. -/
theorem ofPath_intercalate {sep : Char} (hsep : isSeparator sep = true)
    (h : ∀ n ∈ r.names, IsName n) : ofPath ([sep].intercalate r.parts) = r := by
  by_cases hnil : r.parts = []
  · have hr := foldl_step_parts h
    rw [hnil] at hr ⊢
    exact hr
  · rw [ofPath, splitOnP_intercalate hsep hnil (whole_of_mem_parts h), foldl_step_parts h]

end Route

end CursorCommand
