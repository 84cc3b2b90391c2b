import CursorCommand.Proofs.Path.Slashes
import Mathlib.Logic.Relation

/-!
# The way does not depend on how paths are spelled

A path has many spellings: behind any separator there may be more separators, dots, and names that
are taken back at once. None of them shows in the route of the path, in its drive or in the
separator that it is written with, which is all that the way between two paths is made from. Of the
first path neither the kind of its separators shows, nor, where there is a drive, the case of its
letters.
-/
namespace CursorCommand

namespace Path

open Route
open Relation (ReflTransGen)

/-- What may stand between two separators `s` and lead nowhere: nothing, a dot, or a name that is
taken back at once. -/
inductive Idle (s : Char) : List Char → Prop
  | empty : Idle s []
  | dot : Idle s ['.']
  | back {name : List Char} : IsName name → Idle s (name ++ s :: parent)

/-- One change of how a path is spelled. -/
inductive Respelled : List Char → List Char → Prop
  | insert {s : Char} {before between after : List Char} : isSeparator s = true → Idle s between →
      Respelled (before ++ s :: after) (before ++ s :: (between ++ s :: after))
  | append {s : Char} {path : List Char} : isSeparator s = true → s ∈ path →
      Respelled path (path ++ [s])

/-- One change of how the path is spelled that a way starts from. -/
inductive RespelledRoot (ignoreCase : Bool) : List Char → List Char → Prop
  | path {a b : List Char} : Respelled a b → RespelledRoot ignoreCase a b
  | separator {s s' : Char} {before after : List Char} : isSeparator s = true →
      isSeparator s' = true → RespelledRoot ignoreCase (before ++ s :: after) (before ++ s' :: after)
  | letter {c c' : Char} {before after : List Char} : ignoreCase = true → c.toLower = c'.toLower →
      RespelledRoot ignoreCase (before ++ c :: after) (before ++ c' :: after)

theorem Idle.ofPath_eq {s : Char} {between : List Char} (h : Idle s between)
    (hs : isSeparator s = true) : ofPath between = here := by
  cases h with
  | empty => rfl
  | dot => rfl
  | back hname =>
    rw [ofPath_append _ _ hs, ofPath_of_isName hname]
    rfl

theorem Idle.eq_of_mem {s c : Char} {between : List Char} (h : Idle s between)
    (hc : isSeparator c = true) (hmem : c ∈ between) : c = s := by
  cases h with
  | empty => cases hmem
  | dot =>
    rw [List.mem_singleton.mp hmem] at hc
    cases hc
  | back hname =>
    rcases List.mem_append.mp hmem with hmem | hmem
    · rw [hname.whole c hmem] at hc
      cases hc
    · rcases List.mem_cons.mp hmem with rfl | hmem
      · rfl
      · rw [show c = '.' by simpa [parent] using hmem] at hc
        cases hc

/-- Whether a path has a drive is settled in front of its first separator. -/
theorem drive?_front {s : Char} (hs : isSeparator s = true) (before after after' : List Char) :
    drive? (before ++ s :: after) = drive? (before ++ s :: after') := by
  have halpha : s.isAlpha = false := by
    rcases isSeparator_iff.mp hs with rfl | rfl <;> rfl
  have hnone : ∀ rest, drive? (s :: rest) = none := by
    intro rest
    cases rest with
    | nil => rfl
    | cons c rest =>
      rw [drive?_cons_cons, if_neg]
      simp [halpha]
  rcases before with _ | ⟨a, _ | ⟨b, before⟩⟩
  · rw [List.nil_append, List.nil_append, hnone, hnone]
  · rw [List.singleton_append, List.singleton_append, drive?_cons_cons, drive?_cons_cons]
  · simp only [List.cons_append, drive?_cons_cons]

theorem separatorOf_congr {a b : List Char}
    (h : ∀ c, isSeparator c = true → (c ∈ a ↔ c ∈ b)) : separatorOf a = separatorOf b := by
  have hback := h '\\' rfl
  have hslash := h '/' rfl
  simp only [separatorOf, List.contains_eq_mem, hback, hslash]

namespace Respelled

variable {a b : List Char}

theorem ofPath_eq (h : Respelled a b) : ofPath b = ofPath a := by
  cases h with
  | insert hs hidle =>
    rw [ofPath_append _ _ hs, ofPath_append _ _ hs, ofPath_append _ _ hs, hidle.ofPath_eq hs,
      here_followedBy]
  | append hs _ =>
    rw [ofPath_append _ _ hs]
    exact followedBy_here _

theorem drive?_eq (h : Respelled a b) : drive? b = drive? a := by
  cases h with
  | insert hs _ => exact drive?_front hs _ _ _
  | append hs hmem =>
    obtain ⟨before, after, rfl⟩ := List.append_of_mem hmem
    rw [List.append_assoc, List.cons_append]
    exact drive?_front hs _ _ _

theorem separatorOf_eq (h : Respelled a b) : separatorOf b = separatorOf a := by
  apply separatorOf_congr
  intro c hc
  cases h with
  | insert _ hidle =>
    have hbetween := fun hmem => hidle.eq_of_mem hc hmem
    simp only [List.mem_append, List.mem_cons]
    tauto
  | append _ hmem =>
    rw [List.mem_append, List.mem_singleton]
    exact ⟨fun h => h.elim id fun heq => heq ▸ hmem, .inl⟩

end Respelled

/-- A part as it is compared. -/
def folded (ignoreCase : Bool) (part : List Char) : List Char :=
  if ignoreCase then part.map Char.toLower else part

theorem samePart_eq (ignoreCase : Bool) (a b : List Char) :
    samePart ignoreCase a b = (folded ignoreCase a == folded ignoreCase b) := by
  cases ignoreCase <;> rfl

/-- What two lists have left behind the part that they share depends on what the first is the same
as, not on what it is. -/
theorem diverge_congr {α : Type} {same : α → α → Bool} {as as' : List α}
    (h : List.Forall₂ (fun a a' => ∀ b, same a b = same a' b) as as') (bs : List α) :
    (diverge same as bs).1.length = (diverge same as' bs).1.length ∧
      (diverge same as bs).2 = (diverge same as' bs).2 := by
  induction h generalizing bs with
  | nil => exact ⟨rfl, rfl⟩
  | @cons a a' as as' haa' hrest ih =>
    have hlength : (a :: as).length = (a' :: as').length := (List.Forall₂.cons haa' hrest).length_eq
    cases bs with
    | nil => exact ⟨hlength, rfl⟩
    | cons b bs =>
      rw [diverge, diverge, haa' b]
      split
      · exact ih bs
      · exact ⟨hlength, rfl⟩

theorem wayParts_congr {ignoreCase : Bool} {root root' : Route} (path : Route)
    (h : root.parts.map (folded ignoreCase) = root'.parts.map (folded ignoreCase)) :
    wayParts ignoreCase root path = wayParts ignoreCase root' path := by
  rw [← List.forall₂_eq_eq_eq, List.forall₂_map_left_iff, List.forall₂_map_right_iff] at h
  have hsame : List.Forall₂ (fun a a' => ∀ b, samePart ignoreCase a b = samePart ignoreCase a' b)
      root.parts root'.parts :=
    h.imp fun a a' haa' b => by rw [samePart_eq, samePart_eq, haa']
  obtain ⟨hlength, hrest⟩ := diverge_congr hsame path.parts
  rw [wayParts, wayParts, hlength, hrest]

/-- Two paths are the same to start from: they have the same drive, and their parts compare the
same. -/
structure Alike (ignoreCase : Bool) (a b : List Char) : Prop where
  drive : (drive? b).map Char.toLower = (drive? a).map Char.toLower
  parts : (ofPath b).parts.map (folded ignoreCase) = (ofPath a).parts.map (folded ignoreCase)

namespace Alike

variable {ignoreCase : Bool} {a b c : List Char}

theorem refl (ignoreCase : Bool) (a : List Char) : Alike ignoreCase a a := ⟨rfl, rfl⟩

theorem trans (hab : Alike ignoreCase a b) (hbc : Alike ignoreCase b c) : Alike ignoreCase a c :=
  ⟨hbc.drive.trans hab.drive, hbc.parts.trans hab.parts⟩

theorem of_eq (hdrive : drive? b = drive? a) (hroute : ofPath b = ofPath a) :
    Alike ignoreCase a b := ⟨by rw [hdrive], by rw [hroute]⟩

theorem parts_eq (h : Alike false a b) : (ofPath b).parts = (ofPath a).parts := by
  have hfolded : folded false = id := rfl
  have hparts := h.parts
  rwa [hfolded, List.map_id, List.map_id] at hparts

theorem of_map_toLower (h : b.map Char.toLower = a.map Char.toLower) : Alike true a b := by
  constructor
  · rw [← keeps_toLower.drive?_map, h, keeps_toLower.drive?_map]
  · change (ofPath b).parts.map (List.map Char.toLower) = (ofPath a).parts.map (List.map Char.toLower)
    rw [← keeps_toLower.parts_map, ← keeps_toLower.ofPath_map, h, keeps_toLower.ofPath_map,
      keeps_toLower.parts_map]

theorem of_map_slash (h : b.map slash = a.map slash) : Alike ignoreCase a b := by
  apply of_eq
  · rw [← drive?_map_slash, h, drive?_map_slash]
  · rw [← ofPath_map_slash, h, ofPath_map_slash]

end Alike

theorem RespelledRoot.alike {ignoreCase : Bool} {a b : List Char} (h : RespelledRoot ignoreCase a b) :
    Alike ignoreCase a b := by
  cases h with
  | path h => exact .of_eq h.drive?_eq h.ofPath_eq
  | separator hs hs' =>
    apply Alike.of_map_slash
    simp [slash_of_isSeparator hs, slash_of_isSeparator hs']
  | letter hcase hc =>
    subst hcase
    apply Alike.of_map_toLower
    simp [hc]

/-- Any number of changes leave the path that a way starts from the same. -/
theorem alike_of_respelledRoot {ignoreCase : Bool} {a b : List Char}
    (h : ReflTransGen (RespelledRoot ignoreCase) a b) : Alike ignoreCase a b := by
  induction h with
  | refl => exact .refl ignoreCase a
  | tail _ hstep ih => exact ih.trans hstep.alike

theorem differentDrives_congr {root root' : List Char} (path : List Char)
    (h : (drive? root').map Char.toLower = (drive? root).map Char.toLower) :
    differentDrives root' path = differentDrives root path := by
  rw [differentDrives, differentDrives]
  cases hroot : drive? root with
  | none =>
    rw [hroot, Option.map_none, Option.map_eq_none_iff] at h
    rw [h]
  | some a =>
    rw [hroot, Option.map_some, Option.map_eq_some_iff] at h
    obtain ⟨b, hroot', hb⟩ := h
    rw [hroot']
    cases drive? path with
    | none => rfl
    | some c => simp only [hb]

/-- The way from two paths that are the same to start from is the same. -/
theorem Alike.relativeChars_eq {root root' path : List Char}
    (h : Alike ((drive? root).isSome || (drive? path).isSome) root root') :
    relativeChars root' path = relativeChars root path := by
  have hdrive : (drive? root').isSome = (drive? root).isSome := by
    rw [← Option.isSome_map, h.drive, Option.isSome_map]
  rw [relativeChars, relativeChars, differentDrives_congr path h.drive]
  simp only [hdrive, wayParts_congr (ofPath path) h.parts]

theorem relativeChars_of_respelled {root path path' : List Char}
    (hdrive : differentDrives root path = false) (h : ReflTransGen Respelled path path') :
    relativeChars root path' = relativeChars root path := by
  obtain ⟨hdrive', hroute, hseparator⟩ : drive? path' = drive? path ∧ ofPath path' = ofPath path ∧
      separatorOf path' = separatorOf path := by
    induction h with
    | refl => exact ⟨rfl, rfl, rfl⟩
    | tail _ hstep ih =>
      exact ⟨hstep.drive?_eq.trans ih.1, hstep.ofPath_eq.trans ih.2.1,
        hstep.separatorOf_eq.trans ih.2.2⟩
  have hsame : differentDrives root path' = false := by
    rw [← hdrive, differentDrives, differentDrives, hdrive']
  rw [relativeChars, relativeChars, hsame, hdrive, if_neg Bool.false_ne_true,
    if_neg Bool.false_ne_true, hdrive', hroute, hseparator]

/-- The way between two paths on one drive is the same however both are spelled, and the spelling of
the first never matters. The parts of a path are steps up and names behind them, they are read back
from what they make when joined, and no spelling changes them, up to the case of letters where that
is changed. -/
theorem relative_respelled :
    (∀ root root' path path' : String,
      ReflTransGen (RespelledRoot (ignoresCase root path)) root.toList root'.toList →
      ReflTransGen Respelled path.toList path'.toList →
      (∀ a b, drive? root.toList = some a → drive? path.toList = some b → a.toLower = b.toLower) →
      relative root' path' = relative root path) ∧
    (∀ root root' path : String,
      ReflTransGen (RespelledRoot (ignoresCase root path)) root.toList root'.toList →
      relative root' path = relative root path) ∧
    (∀ path, ∃ ups names, components path = List.replicate ups parent ++ names ∧
      ∀ name ∈ names, IsName name) ∧
    (∀ path sep, isSeparator sep = true →
      components (String.ofList ([sep].intercalate (components path))) = components path) ∧
    (∀ path path' : String, ReflTransGen (RespelledRoot false) path.toList path'.toList →
      components path' = components path) ∧
    ∀ path path' : String, ReflTransGen (RespelledRoot true) path.toList path'.toList →
      (components path').map (List.map Char.toLower) =
        (components path).map (List.map Char.toLower) := by
  refine ⟨?_, ?_, ?_, ?_, ?_, ?_⟩
  · intro root root' path path' hroot hpath hdrives
    have halike := alike_of_respelledRoot hroot
    have hsame : differentDrives root'.toList path.toList = false := by
      rw [differentDrives_congr path.toList halike.drive, differentDrives_eq_false hdrives]
    rw [relative, relative, relativeChars_of_respelled hsame hpath, halike.relativeChars_eq]
  · intro root root' path hroot
    rw [relative, relative, (alike_of_respelledRoot hroot).relativeChars_eq]
  · intro path
    exact ⟨_, _, rfl, isName_of_mem_ofPath path.toList⟩
  · intro path sep hsep
    rw [components, String.toList_ofList, components,
      ofPath_intercalate hsep (isName_of_mem_ofPath path.toList)]
  · intro path path' h
    exact (alike_of_respelledRoot h).parts_eq
  · intro path path' h
    exact (alike_of_respelledRoot h).parts

/-- Both paths respelled, the first one in every way there is. -/
theorem relative_respelled_drive :
    let root := "c:\\Ws"
    let path := "C:/ws/a.ts"
    ReflTransGen (RespelledRoot (ignoresCase root path)) root.toList "C:/x\\..\\Ws/".toList ∧
      ReflTransGen Respelled path.toList "C:/./ws/a.ts".toList ∧
      (∀ a b, drive? root.toList = some a → drive? path.toList = some b → a.toLower = b.toLower) ∧
      relative root path = "a.ts" ∧ relative "C:/x\\..\\Ws/" "C:/./ws/a.ts" = "a.ts" := by
  intro root path
  have hx : IsName ['x'] := ⟨by decide, by decide, by decide, by simp [isSeparator]⟩
  have hback : RespelledRoot true "c:\\Ws".toList "c:\\x\\..\\Ws".toList :=
    show RespelledRoot true (['c', ':'] ++ '\\' :: ['W', 's'])
      (['c', ':'] ++ '\\' :: (['x'] ++ '\\' :: parent ++ '\\' :: ['W', 's'])) from
    .path (.insert rfl (.back hx))
  have hseparator : RespelledRoot true "c:\\x\\..\\Ws".toList "c:/x\\..\\Ws".toList :=
    show RespelledRoot true (['c', ':'] ++ '\\' :: "x\\..\\Ws".toList)
      (['c', ':'] ++ '/' :: "x\\..\\Ws".toList) from .separator rfl rfl
  have hletter : RespelledRoot true "c:/x\\..\\Ws".toList "C:/x\\..\\Ws".toList :=
    show RespelledRoot true ([] ++ 'c' :: ":/x\\..\\Ws".toList) ([] ++ 'C' :: ":/x\\..\\Ws".toList) from
    .letter rfl rfl
  have happend : RespelledRoot true "C:/x\\..\\Ws".toList "C:/x\\..\\Ws/".toList :=
    show RespelledRoot true "C:/x\\..\\Ws".toList ("C:/x\\..\\Ws".toList ++ ['/']) from
    .path (.append rfl (by decide))
  have hroot : ReflTransGen (RespelledRoot true) "c:\\Ws".toList "C:/x\\..\\Ws/".toList :=
    .tail (.tail (.tail (.single hback) hseparator) hletter) happend
  have hpath : ReflTransGen Respelled "C:/ws/a.ts".toList "C:/./ws/a.ts".toList :=
    .single <| show Respelled (['C', ':'] ++ '/' :: "ws/a.ts".toList)
      (['C', ':'] ++ '/' :: (['.'] ++ '/' :: "ws/a.ts".toList)) from .insert rfl .dot
  have hdrives : ∀ a b, drive? root.toList = some a → drive? path.toList = some b →
      a.toLower = b.toLower := by
    intro a b ha hb
    have hrootDrive : drive? root.toList = some 'c' := by decide
    have hpathDrive : drive? path.toList = some 'C' := by decide
    rw [← Option.some.inj (hrootDrive.symm.trans ha), ← Option.some.inj (hpathDrive.symm.trans hb)]
    decide
  have hcase : ignoresCase root path = true := by decide
  have hway : relative root path = "a.ts" := by decide
  have hsame := relative_respelled.1 root _ path _ (hcase ▸ hroot) hpath hdrives
  exact ⟨hcase ▸ hroot, hpath, hdrives, hway, hsame.trans hway⟩

end Path

end CursorCommand
