import CursorCommand.Command
import CursorCommand.Config.Basic

/-!
# Full titles as regular expressions

A full title is read back as a test runner reads it: from left to right, token by token. Names are
escaped, but the separator and the stand-in for unknown names are not, so the reading must not run
across the boundary between two of them. `readAll?` refuses every operator but the four kinds of
token, and `Spelled` says which test names a full title should select.
-/
namespace CursorCommand

namespace Title

/-- The characters that a regular expression does not take as themselves. -/
def operators : List Char :=
  ['^', '$', '\\', '.', '*', '+', '?', '(', ')', '[', ']', '{', '}', '|']

theorem mem_metacharacters_iff {c : Char} : c ∈ metacharacters ↔ c ∈ operators :=
  (by decide : metacharacters.Perm operators).mem_iff

theorem escapeChar_of_mem {c : Char} (h : c ∈ operators) : escapeChar c = ['\\', c] := by
  rw [escapeChar, if_pos (by simpa [mem_metacharacters_iff] using h)]

theorem escapeChar_of_not_mem {c : Char} (h : c ∉ operators) : escapeChar c = [c] := by
  rw [escapeChar, if_neg (by simpa [mem_metacharacters_iff] using h)]

theorem ofName_known (unknown : String) {name : String} (h : name ≠ "") :
    ofName unknown (some name) = escape name := by
  simp [ofName, ofName?, h]

/-- What a regular expression without other operators is made of. -/
inductive Token where
  /-- `\s` -/
  | space
  /-- `.*` -/
  | anything
  /-- A character, behind a backslash if it is an operator. -/
  | exactly (c : Char)
  deriving DecidableEq, Repr

/-- What a dialect of regular expressions takes for white space and for the end of a line. -/
structure Dialect where
  IsSpace : Char → Prop
  EndsLine : Char → Prop

/-- A text within one line. -/
def Dialect.OneLine (d : Dialect) (x : List Char) : Prop := ∀ c ∈ x, ¬ d.EndsLine c

namespace Token

/-- The tokens of a regular expression; none if it has an operator that makes no token. -/
def readAll? : List Char → Option (List Token)
  | [] => some []
  | '\\' :: 's' :: cs => (readAll? cs).map (space :: ·)
  | '\\' :: c :: cs => if c ∈ operators then (readAll? cs).map (exactly c :: ·) else none
  | '.' :: '*' :: cs => (readAll? cs).map (anything :: ·)
  | c :: cs => if c ∈ operators then none else (readAll? cs).map (exactly c :: ·)

def Accepts (d : Dialect) : Token → List Char → Prop
  | space, x => ∃ c, d.IsSpace c ∧ x = [c]
  | anything, x => d.OneLine x
  | exactly c, x => x = [c]

/-- Tokens match a text in full when it divides into parts that they accept one by one. -/
def Matches (d : Dialect) : List Token → List Char → Prop
  | [], x => x = []
  | t :: ts, x => ∃ y z, x = y ++ z ∧ t.Accepts d y ∧ Matches d ts z

end Token

/-- A known name fits itself alone, and one that is unknown or empty fits any text in one line. -/
def Fits (d : Dialect) (name : Option String) (x : List Char) : Prop :=
  match name with
  | some text => if text = "" then d.OneLine x else x = text.toList
  | none => d.OneLine x

/-- Texts that fit the names, with one white space character between each two. -/
inductive Spelled (d : Dialect) : List (Option String) → List Char → Prop
  | last {name : Option String} {x : List Char} : Fits d name x → Spelled d [name] x
  | more {name : Option String} {names : List (Option String)} {x y : List Char} {w : Char} :
      Fits d name x → d.IsSpace w → Spelled d names y → Spelled d (name :: names) (x ++ w :: y)

namespace Token

theorem readAll?_escapeChar (c : Char) (rest : List Char) :
    readAll? (escapeChar c ++ rest) = (readAll? rest).map (exactly c :: ·) := by
  by_cases h : c ∈ operators
  · have hspace : c ≠ 's' := by
      rintro rfl
      exact absurd h (by decide)
    rw [escapeChar_of_mem h, List.cons_append, List.singleton_append, readAll?, if_pos h]
    exact hspace
  · have hbackslash : c ≠ '\\' := by
      rintro rfl
      exact h (by decide)
    have hdot : c ≠ '.' := by
      rintro rfl
      exact h (by decide)
    rw [escapeChar_of_not_mem h, List.singleton_append, readAll?, if_neg h]
    · exact fun _ hc _ => hbackslash hc
    · exact fun _ _ hc _ => hbackslash hc
    · exact fun _ hc _ => hdot hc

theorem readAll?_escape (cs rest : List Char) :
    readAll? (cs.flatMap escapeChar ++ rest) = (readAll? rest).map (cs.map exactly ++ ·) := by
  induction cs with
  | nil => simp
  | cons c cs ih =>
    rw [List.flatMap_cons, List.append_assoc, readAll?_escapeChar, ih, Option.map_map]
    rfl

/-- The tokens that a name is written with. -/
def ofName : Option String → List Token
  | some text => if text = "" then [anything] else text.toList.map exactly
  | none => [anything]

/-- However a name ends, it is read apart from what follows it. -/
theorem readAll?_ofName (name : Option String) (rest : List Char) :
    readAll? ((Title.ofName Config.standard.unknown name).toList ++ rest) =
      (readAll? rest).map (ofName name ++ ·) := by
  have hunknown : readAll? (Config.standard.unknown.toList ++ rest) =
      (readAll? rest).map ([anything] ++ ·) := rfl
  cases name with
  | none => exact hunknown
  | some text =>
    by_cases h : text = ""
    · subst h
      exact hunknown
    · rw [ofName_known _ h, Title.escape, String.toList_ofList, readAll?_escape, ofName, if_neg h]

theorem readAll?_titles {names : List (Option String)} (hne : names ≠ []) :
    readAll? (Config.standard.separator.intercalate
      (names.map (Title.ofName Config.standard.unknown))).toList =
        some ([space].intercalate (names.map ofName)) := by
  rw [String.toList_intercalate, List.map_map]
  induction names with
  | nil => exact (hne rfl).elim
  | cons name names ih =>
    cases names with
    | nil =>
      have hlast := readAll?_ofName name []
      rw [List.append_nil] at hlast
      simpa [readAll?] using hlast
    | cons next names =>
      have hspace (rest : List Char) : readAll? (Config.standard.separator.toList ++ rest) =
          (readAll? rest).map ([space] ++ ·) := rfl
      have hrest := ih (List.cons_ne_nil next names)
      simp only [List.map_cons, List.intercalate_cons_cons, List.append_assoc] at hrest ⊢
      rw [Function.comp_apply, readAll?_ofName, hspace, hrest]
      rfl

variable {d : Dialect}

theorem matches_append {ts us : List Token} {x : List Char} :
    Matches d (ts ++ us) x ↔ ∃ y z, x = y ++ z ∧ Matches d ts y ∧ Matches d us z := by
  induction ts generalizing x with
  | nil =>
    constructor
    · intro h
      exact ⟨[], x, rfl, rfl, h⟩
    · intro h
      rcases h with ⟨y, z, rfl, rfl, h⟩
      exact h
  | cons t ts ih =>
    rw [List.cons_append]
    constructor
    · intro h
      rcases h with ⟨v, w, rfl, ht, hw⟩
      obtain ⟨y, z, rfl, hy, hz⟩ := ih.mp hw
      exact ⟨v ++ y, z, by rw [List.append_assoc], ⟨v, y, rfl, ht, hy⟩, hz⟩
    · intro h
      rcases h with ⟨y, z, rfl, ⟨v, w, rfl, ht, hw⟩, hz⟩
      exact ⟨v, w ++ z, by rw [List.append_assoc], ht, ih.mpr ⟨w, z, rfl, hw, hz⟩⟩

theorem matches_exactly {cs x : List Char} : Matches d (cs.map exactly) x ↔ x = cs := by
  induction cs generalizing x with
  | nil => rfl
  | cons c cs ih =>
    constructor
    · intro h
      rcases h with ⟨y, z, rfl, hy, hz⟩
      rw [hy, ih.mp hz]
      rfl
    · rintro rfl
      exact ⟨[c], cs, rfl, rfl, ih.mpr rfl⟩

theorem matches_singleton {t : Token} {x : List Char} : Matches d [t] x ↔ t.Accepts d x := by
  simp [Matches]

theorem matches_ofName {name : Option String} {x : List Char} :
    Matches d (ofName name) x ↔ Fits d name x := by
  cases name with
  | none => exact matches_singleton
  | some text =>
    rw [ofName, Fits]
    split
    · exact matches_singleton
    · exact matches_exactly

theorem matches_titles {names : List (Option String)} (hne : names ≠ []) {x : List Char} :
    Matches d ([space].intercalate (names.map ofName)) x ↔ Spelled d names x := by
  induction names generalizing x with
  | nil => exact (hne rfl).elim
  | cons name names ih =>
    cases names with
    | nil =>
      rw [List.map_singleton, List.intercalate_singleton, matches_ofName]
      constructor
      · exact .last
      · intro h
        rcases h with h | ⟨-, -, h⟩
        · exact h
        · cases h
    | cons next names =>
      rw [List.map_cons, List.map_cons, List.intercalate_cons_cons, ← List.map_cons,
        List.append_assoc, matches_append]
      constructor
      · intro h
        rcases h with ⟨y, z, rfl, hy, v, w, rfl, ⟨c, hc, rfl⟩, hw⟩
        exact .more (matches_ofName.mp hy) hc ((ih (List.cons_ne_nil next names)).mp hw)
      · intro h
        rcases h with h | ⟨hfits, hc, hrest⟩
        exact ⟨_, _, rfl, matches_ofName.mpr hfits, [_], _, rfl, ⟨_, hc, rfl⟩,
          (ih (List.cons_ne_nil next names)).mpr hrest⟩

end Token

end Title

/-- The full title of a block is a regular expression for the names that it should select, in any
dialect: known names as they are, anything in one line for the others, white space between. -/
theorem fullTestName_selects (t : Target) (b : Block) :
    let target : Target :=
      { t with
        separator := Config.standard.separator
        unknown := Config.standard.unknown
        block := some b }
    ∃ tokens, Title.Token.readAll? (target.value .fullTestName).toList = some tokens ∧
      ∀ (d : Title.Dialect) (x : List Char),
        Title.Token.Matches d tokens x ↔ Title.Spelled d (b.parents ++ [b.name]) x := by
  intro target
  have hne : b.parents ++ [b.name] ≠ [] := by simp
  have hvalue : target.value .fullTestName = Config.standard.separator.intercalate
      ((b.parents ++ [b.name]).map (Title.ofName Config.standard.unknown)) :=
    congrArg Titles.full (Titles.ofBlock_some _ _ b)
  refine ⟨_, ?_, fun d x => Title.Token.matches_titles hne⟩
  rw [hvalue]
  exact Title.Token.readAll?_titles hne

end CursorCommand
