import CursorCommand.Block.Json
import CursorCommand.Proofs.Json.Printing
import CursorCommand.Proofs.Json.Reading
import Mathlib.Data.List.Forall2

/-!
# Blocks and their JSON texts

Which written values describe a block, whatever the order of the members, the spelling of strings
and the other members between them. Every text of such a value is read as the block, and the texts
that are printed are among them.
-/
namespace CursorCommand

namespace Block

/-- A written value stands for a name; null for an unknown one. -/
inductive SaysName : Form → Option String → Prop
  | null : SaysName .null none
  | string {ps : List Quoted.Piece} {s : String} : Quoted.Says ps s.toList →
      SaysName (.string ps) (some s)

/-- A member stands for one whose key is text; its value is left as it is written. -/
def SaysMember (m : List Quoted.Piece × Form) (d : String × Form) : Prop :=
  Quoted.Says m.1 d.1.toList ∧ m.2 = d.2

def keys : List String := ["name", "parentNames", "start", "end"]

/-- The member for a name. An unknown name may be left out. -/
inductive NameMember : Option String → List (String × Form) → Prop
  | written {f : Form} {name : Option String} : SaysName f name → NameMember name [("name", f)]
  | omitted : NameMember none []

/-- The members that every object of a block has. -/
def required (b : Block) (parents : List Form) : List (String × Form) :=
  [("parentNames", .array parents), ("start", .number (.ofNat b.start)),
    ("end", .number (.ofNat b.stop))]

/-- A written value describes a block: as an object, with members of other keys among its own and
all of them in any order, or as an array of the four values. -/
inductive WrittenAs (b : Block) : Form → Prop
  | object {ms : List (List Quoted.Piece × Form)} {name others decoded : List (String × Form)}
      {parents : List Form} : NameMember b.name name → List.Forall₂ SaysName parents b.parents →
      (∀ m ∈ others, m.1 ∉ keys) → decoded.Perm (name ++ b.required parents ++ others) →
      List.Forall₂ SaysMember ms decoded → WrittenAs b (.object ms)
  | array {name : Form} {parents : List Form} : SaysName name b.name →
      List.Forall₂ SaysName parents b.parents →
      WrittenAs b (.array [name, .array parents, .number (.ofNat b.start),
        .number (.ofNat b.stop)])

/-- The offsets of a block are numbers of 64 bits. -/
def Bounded (b : Block) : Prop := b.start < offsetBound ∧ b.stop < offsetBound

theorem mapM_eq_some {α β : Type} {f : α → Option β} {as : List α} {bs : List β}
    (h : List.Forall₂ (fun a b => f a = some b) as bs) : as.mapM f = some bs := by
  induction h with
  | nil => rfl
  | cons hab _ ih => rw [List.mapM_cons, hab, ih]; rfl

theorem nameOfForm?_eq_some {f : Form} {name : Option String} (h : SaysName f name) :
    nameOfForm? f = some name := by
  cases h with
  | null => rfl
  | string h => rw [nameOfForm?, Quoted.text?_eq_some h, Option.map_some]

theorem parentsOfForm?_eq_some {fs : List Form} {parents : List (Option String)}
    (h : List.Forall₂ SaysName fs parents) : parentsOfForm? (.array fs) = some parents :=
  mapM_eq_some (h.imp fun _ _ => nameOfForm?_eq_some)

theorem decodeKey?_eq_some {m : List Quoted.Piece × Form} {d : String × Form}
    (h : SaysMember m d) : decodeKey? m = some d := by
  rw [decodeKey?, Quoted.text?_eq_some h.1, h.2]
  rfl

theorem offsetOfForm?_ofNat {n : Nat} (h : n < offsetBound) :
    offsetOfForm? (.number (.ofNat n)) = some n := by
  rw [offsetOfForm?, Numeral.natural?_ofNat, Option.filter_some, if_pos (decide_eq_true h)]

variable {b : Block}

theorem ofValues?_eq_some (hb : b.Bounded) {name : Form} {parents : List Form}
    (hname : SaysName name b.name) (hparents : List.Forall₂ SaysName parents b.parents) :
    ofValues? name (.array parents) (.number (.ofNat b.start)) (.number (.ofNat b.stop)) =
      some b := by
  rw [ofValues?, nameOfForm?_eq_some hname, parentsOfForm?_eq_some hparents,
    offsetOfForm?_ofNat hb.1, offsetOfForm?_ofNat hb.2]
  rfl

section

variable {name others decoded : List (String × Form)} {parents : List Form}

theorem valuesOf_perm {own : List (String × Form)} (hothers : ∀ m ∈ others, m.1 ∉ keys)
    (hperm : decoded.Perm (own ++ others)) {key : String} (hkey : key ∈ keys) :
    (valuesOf key decoded).Perm (valuesOf key own) := by
  have hnone : others.filter (fun m => m.1 == key) = [] := by
    rw [List.filter_eq_nil_iff]
    intro m hm heq
    exact hothers m hm (beq_iff_eq.mp heq ▸ hkey)
  -- The order of the members is lost here, but a key that stands once has one value all the same.
  have hvalues := (hperm.filter fun m => m.1 == key).map Prod.snd
  rwa [List.filter_append, hnone, List.append_nil] at hvalues

theorem valuesOf_required {n : Option String} (hname : NameMember n name)
    (hothers : ∀ m ∈ others, m.1 ∉ keys)
    (hperm : decoded.Perm (name ++ b.required parents ++ others)) {key : String} {value : Form}
    (hmem : (key, value) ∈ b.required parents) : valuesOf key decoded = [value] := by
  have hvalues {key : String} (hkey : key ∈ keys) := valuesOf_perm hothers hperm hkey
  simp only [required, List.mem_cons, Prod.mk.injEq, List.not_mem_nil, or_false] at hmem
  rcases hmem with ⟨rfl, rfl⟩ | ⟨rfl, rfl⟩ | ⟨rfl, rfl⟩
  all_goals cases hname <;> exact List.perm_singleton.mp (hvalues (by decide))

theorem ofMembers?_eq_some (hb : b.Bounded) (hname : NameMember b.name name)
    (hparents : List.Forall₂ SaysName parents b.parents) (hothers : ∀ m ∈ others, m.1 ∉ keys)
    (hperm : decoded.Perm (name ++ b.required parents ++ others)) :
    ofMembers? decoded = some b := by
  have hrequired {key : String} {value : Form} (h : (key, value) ∈ b.required parents) :=
    valuesOf_required hname hothers hperm h
  have hvalues : (valuesOf "name" decoded).Perm _ := valuesOf_perm hothers hperm (by decide)
  rw [ofMembers?, hrequired (.head _), hrequired (.tail _ (.head _)),
    hrequired (.tail _ (.tail _ (.head _)))]
  rcases b with ⟨n, parentNames, start, stop⟩
  cases hname with
  | written h =>
    rw [List.perm_singleton.mp hvalues]
    exact ofValues?_eq_some hb h hparents
  | omitted =>
    rw [List.perm_nil.mp hvalues]
    exact ofValues?_eq_some hb .null hparents

end

theorem ofForm?_eq_some (hb : b.Bounded) {f : Form} (h : b.WrittenAs f) : ofForm? f = some b := by
  cases h with
  | array hname hparents => exact ofValues?_eq_some hb hname hparents
  | object hname hparents hothers hperm hdecoded =>
    rw [ofForm?, mapM_eq_some (hdecoded.imp fun _ _ => decodeKey?_eq_some)]
    exact ofMembers?_eq_some hb hname hparents hothers hperm

theorem spelled_nameJson (name : Option String) : (nameJson name).Spelled := by
  cases name <;> exact trivial

theorem saysName_form (name : Option String) : SaysName (nameJson name).form name := by
  cases name with
  | none => exact .null
  | some s => exact .string (Quoted.says_pieces s.toList)

theorem spelled_toJson (b : Block) : b.toJson.Spelled := by
  have hparents : Json.SpelledElements (b.parents.map nameJson) := by
    rw [Json.spelledElements_iff, List.forall_mem_map]
    exact fun name _ => spelled_nameJson name
  exact ⟨spelled_nameJson b.name, hparents, Numeral.writes_ofNat b.start,
    Numeral.writes_ofNat b.stop, trivial⟩

theorem saysMember_formMembers (ms : List (String × Json)) :
    List.Forall₂ SaysMember (Json.formMembers ms) (ms.map fun m => (m.1, m.2.form)) := by
  induction ms with
  | nil => exact .nil
  | cons m ms ih => exact .cons ⟨Quoted.says_pieces m.1.toList, rfl⟩ ih

/-- A printed block is an object with the four members in their order. -/
theorem writtenAs_form (b : Block) : b.WrittenAs b.toJson.form := by
  have hparents : List.Forall₂ SaysName (Json.formElements (b.parents.map nameJson)) b.parents := by
    rw [Json.formElements_eq_map, List.map_map, List.forall₂_map_left_iff, List.forall₂_same]
    exact fun name _ => saysName_form name
  refine .object (.written (saysName_form b.name)) hparents (List.forall_mem_nil _) ?_
    (saysMember_formMembers _)
  rw [List.append_nil]
  exact .refl _

theorem parse?_eq_some (hb : b.Bounded) {f : Form} (h : b.WrittenAs f) {text : String}
    (htext : Form.WritesText text.toList f) : parse? text = some b := by
  rw [parse?, htext.read?_eq, Option.bind_some, ofForm?_eq_some hb h]

theorem parseAll?_prettyText {bs : List Block} (hbs : ∀ b ∈ bs, b.Bounded) :
    parseAll? ((Json.array (bs.map toJson)).prettyText ++ "\n") = some bs := by
  have hspelled : (Json.array (bs.map toJson)).Spelled := by
    rw [Json.Spelled, Json.spelledElements_iff, List.forall_mem_map]
    exact fun b _ => spelled_toJson b
  have hblocks : List.Forall₂ (fun f b => ofForm? f = some b)
      (Json.formElements (bs.map toJson)) bs := by
    rw [Json.formElements_eq_map, List.map_map, List.forall₂_map_left_iff, List.forall₂_same]
    exact fun b hb => ofForm?_eq_some (hbs b hb) (writtenAs_form b)
  rw [parseAll?, (Json.writesText_prettyText hspelled).read?_eq]
  exact mapM_eq_some hblocks

/-- Blocks round-trip through JSON: a printed block and a printed list are read back, and so is a
block from any other text of it. -/
theorem json_round_trip :
    (∀ b : Block, b.Bounded → parse? b.toJson.compactText = some b ∧
      ∀ (text : String) (f : Form), b.WrittenAs f → Form.WritesText text.toList f →
        parse? text = some b) ∧
    ∀ bs : List Block, (∀ b ∈ bs, b.Bounded) →
      parseAll? ((Json.array (bs.map toJson)).prettyText ++ "\n") = some bs := by
  refine ⟨?_, fun _ => parseAll?_prettyText⟩
  intro b hb
  have hcompact := Json.writesText_compactText (spelled_toJson b)
  exact ⟨parse?_eq_some hb (writtenAs_form b) hcompact, fun _ _ h => parse?_eq_some hb h⟩

/-- A text with an unknown key, a blank, an escaped name and the members in another order. -/
theorem json_round_trip_reordered :
    parse? ("\x7b\"end\":5, \"x\":[],\"name\":\"\\ud83d\\ude00\",\"parentNames\":[null]," ++
      "\"start\":3\x7d") = some ⟨some "😀", [none], 3, 5⟩ := by
  have hface : Quoted.Says [.unit 0xD83D, .unit 0xDE00] "😀".toList := by
    rw [show "😀".toList = ['😀'] by rfl]
    exact .pair (by decide) (by decide) (by decide) .nil
  have hothers : ∀ m ∈ [("x", Form.array [])], m.1 ∉ keys := by decide
  have hperm : ([("end", Form.number (.ofNat 5)), ("x", Form.array [])] ++
      [("name", Form.string [.unit 0xD83D, .unit 0xDE00]), ("parentNames", Form.array [.null]),
        ("start", Form.number (.ofNat 3))]).Perm _ := List.perm_append_comm
  have hmember (key : String) (f : Form) : SaysMember (key.toList.map Quoted.piece, f) (key, f) :=
    ⟨Quoted.says_pieces key.toList, rfl⟩
  have hform : WrittenAs ⟨some "😀", [none], 3, 5⟩ _ :=
    .object (.written (.string hface)) (.cons .null .nil) hothers hperm
      (.cons (hmember _ _) (.cons (hmember _ _) (.cons (hmember _ _) (.cons (hmember _ _)
        (.cons (hmember _ _) .nil)))))
  have hblank := Json.blank_nil
  have htext := Form.Writes.object hblank
    (Json.writes_member "end" hblank (.number (Numeral.writes_ofNat 5)))
    (.nextMember hblank Json.blank_space (Json.writes_member "x" hblank (.emptyArray hblank))
      (.nextMember hblank hblank
        (Json.writes_member "name" hblank
          (.string (.unit ⟨13, false⟩ ⟨8, false⟩ ⟨3, false⟩ ⟨13, false⟩
            (.unit ⟨13, false⟩ ⟨14, false⟩ ⟨0, false⟩ ⟨0, false⟩ .nil))))
        (.nextMember hblank hblank
          (Json.writes_member "parentNames" hblank (.array hblank .null (.lastElement hblank)))
          (.nextMember hblank hblank
            (Json.writes_member "start" hblank (.number (Numeral.writes_ofNat 3)))
            (.lastMember hblank)))))
  refine (json_round_trip.1 _ ⟨by decide, by decide⟩).2 _ _ hform ?_
  convert Form.WritesText.mk hblank htext hblank using 1
  · decide +kernel
  · rfl

end Block

end CursorCommand
