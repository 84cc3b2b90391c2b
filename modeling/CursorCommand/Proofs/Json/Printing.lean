import CursorCommand.Json.Print
import CursorCommand.Proofs.Json.Grammar

/-!
# What printed values write

Both printers keep to the grammar and write the same value; they differ in blanks only.
-/
namespace CursorCommand

namespace Quoted

/-- The piece by which a printed string writes a character. -/
def piece (c : Char) : Piece :=
  if c.toNat < 0x20 ∧ c ∉ ['\x08', '\x0c', '\n', '\r', '\t'] then .unit c.toNat else .char c

theorem char_hexDigit (n : Nat) (h : n < 16) :
    (HexDigit.mk ⟨n, h⟩ false).char = Nat.digitChar n := by
  revert n
  decide

theorem writes_control {c : Char} (hc : c.toNat < 0x20) {cs : List Char} {ps : List Piece}
    (h : Writes cs ps) :
    Writes (['\\', 'u', '0', '0'] ++ hexChars c.toNat ++ cs) (.unit c.toNat :: ps) := by
  have hnumber : c.toNat / 16 % 16 * 16 + c.toNat % 16 = c.toNat := by omega
  have hunit := Writes.unit ⟨0, false⟩ ⟨0, false⟩ ⟨⟨c.toNat / 16 % 16, by omega⟩, false⟩
    ⟨⟨c.toNat % 16, by omega⟩, false⟩ h
  have hzero : (HexDigit.mk 0 false).char = '0' := by decide
  simp only [char_hexDigit, hzero, HexDigit.number, HexDigit.append_cons,
    HexDigit.append_nil] at hunit
  simpa [hexChars, hnumber] using hunit

theorem writes_writeChar (c : Char) {cs : List Char} {ps : List Piece} (h : Writes cs ps) :
    Writes (writeChar c ++ cs) (piece c :: ps) := by
  unfold writeChar
  split_ifs with h1 h2 h3 h4 h5 h6 h7 hcontrol
  any_goals
    subst_vars
    exact .short (by decide) h
  · rw [piece, if_pos ⟨hcontrol, by simp [h3, h4, h5, h6, h7]⟩]
    exact writes_control hcontrol h
  · rw [piece, if_neg fun hunit => hcontrol hunit.1]
    exact .self (Nat.not_lt.mp hcontrol) h1 h2 h

theorem writes_flatMap (cs : List Char) : Writes (cs.flatMap writeChar) (cs.map piece) := by
  induction cs with
  | nil => exact .nil
  | cons c cs ih => exact writes_writeChar c ih

theorem says_pieces (cs : List Char) : Says (cs.map piece) cs := by
  induction cs with
  | nil => exact .nil
  | cons c cs ih =>
    rw [List.map_cons, piece]
    split
    · next h => exact .unit (by omega) ih
    · exact .char ih

end Quoted

namespace Numeral

theorem eq_zero_of_head?_toDigits {n : Nat} (h : (Nat.toDigits 10 n).head? = some '0') :
    n = 0 := by
  induction n using Nat.strong_induction_on with
  | _ n ih =>
    by_cases hn : n < 10
    · have hdigits : ∀ m < 10, Nat.digitChar m = '0' → m = 0 := by decide
      rw [Nat.toDigits_of_lt_base hn, List.head?_cons, Option.some.injEq] at h
      exact hdigits n hn h
    · have hle := Nat.not_lt.mp hn
      rw [Nat.toDigits_of_base_le (by decide) hle,
        List.head?_append_of_ne_nil _ Nat.toDigits_ne_nil] at h
      have hzero := ih (n / 10) (by omega) h
      omega

theorem digits_toDigits (n : Nat) : Digits (Nat.toDigits 10 n) :=
  ⟨Nat.toDigits_ne_nil, fun _ => Nat.isDigit_of_mem_toDigits (by decide) (by decide)⟩

theorem writes_ofNat (n : Nat) : Writes (ofNat n).chars (ofNat n) := by
  have hzero (h : (Nat.toDigits 10 n).head? = some '0') : Nat.toDigits 10 n = ['0'] := by
    rw [eq_zero_of_head?_toDigits h]
    rfl
  have hwrites : Writes ((if false = true then ['-'] else []) ++
      (Nat.toDigits 10 n ++ ([] ++ []))) (ofNat n) :=
    .mk (digits_toDigits n) hzero .none .none
  simpa [chars, exponentChars, ofNat] using hwrites

theorem natural?_ofNat (n : Nat) : (ofNat n).natural? = some n := by
  simp [natural?, ofNat, Nat.ofDigitChars_toDigits]

end Numeral

namespace Json

mutual

/-- The written value of a printed one. -/
def form : Json → Form
  | .null => .null
  | .bool b => .bool b
  | .number n => .number n
  | .string s => .string (s.toList.map Quoted.piece)
  | .array es => .array (formElements es)
  | .object ms => .object (formMembers ms)

def formElements : List Json → List Form
  | [] => []
  | e :: es => form e :: formElements es

def formMembers : List (String × Json) → List (List Quoted.Piece × Form)
  | [] => []
  | (key, v) :: ms => (key.toList.map Quoted.piece, form v) :: formMembers ms

end

mutual

/-- The numbers in a value are numbers of the grammar. -/
def Spelled : Json → Prop
  | .number n => Numeral.Writes n.chars n
  | .array es => SpelledElements es
  | .object ms => SpelledMembers ms
  | _ => True

def SpelledElements : List Json → Prop
  | [] => True
  | e :: es => Spelled e ∧ SpelledElements es

def SpelledMembers : List (String × Json) → Prop
  | [] => True
  | (_, v) :: ms => Spelled v ∧ SpelledMembers ms

end

theorem formElements_eq_map (es : List Json) : formElements es = es.map form := by
  induction es with
  | nil => rfl
  | cons e es ih => rw [formElements, ih, List.map_cons]

theorem spelledElements_iff {es : List Json} : SpelledElements es ↔ ∀ e ∈ es, e.Spelled := by
  induction es with
  | nil => simp [SpelledElements]
  | cons e es ih => rw [SpelledElements, ih, List.forall_mem_cons]

theorem blank_nil : Form.Blank [] := nofun

theorem blank_space : Form.Blank [' '] := by
  intro c hc
  rw [List.mem_singleton.mp hc]
  rfl

theorem blank_newline (depth : Nat) : Form.Blank (newline depth) := by
  intro c hc
  rcases List.mem_cons.mp hc with rfl | hc
  · rfl
  · rw [List.eq_of_mem_replicate hc]
    rfl

theorem writes_quoted (s : String) :
    Form.Writes (Quoted.write s.toList) (.value (.string (s.toList.map Quoted.piece))) :=
  .string (Quoted.writes_flatMap s.toList)

theorem writes_member (key : String) {bs cs : List Char} {v : Form} (hbs : Form.Blank bs)
    (h : Form.Writes cs (.value v)) :
    Form.Writes (Quoted.write key.toList ++ ':' :: (bs ++ cs))
      (.member (key.toList.map Quoted.piece) v) := by
  have hmember := Form.Writes.member (Quoted.writes_flatMap key.toList) blank_nil hbs h
  simpa [Quoted.write] using hmember

mutual

theorem writes_compact : ∀ {j : Json}, j.Spelled → Form.Writes (compact j) (.value j.form)
  | .null, _ => .null
  | .bool true, _ => .true
  | .bool false, _ => .false
  | .number _, h => .number h
  | .string s, _ => writes_quoted s
  | .array [], _ => .emptyArray blank_nil
  | .array (_ :: _), h => .array blank_nil (writes_compact h.1) (writes_compactElements h.2)
  | .object [], _ => .emptyObject blank_nil
  | .object ((key, _) :: _), h => by
    have hmember := writes_member key blank_nil (writes_compact h.1)
    have hobject := Form.Writes.object blank_nil hmember (writes_compactMembers h.2)
    simpa [compact, form, formMembers] using hobject

theorem writes_compactElements : ∀ {es : List Json}, SpelledElements es →
    Form.Writes (compactElements es) (.elements (formElements es))
  | [], _ => .lastElement blank_nil
  | _ :: _, h => .element blank_nil blank_nil (writes_compact h.1) (writes_compactElements h.2)

theorem writes_compactMembers : ∀ {ms : List (String × Json)}, SpelledMembers ms →
    Form.Writes (compactMembers ms) (.members (formMembers ms))
  | [], _ => .lastMember blank_nil
  | (key, _) :: _, h => by
    have hmember := writes_member key blank_nil (writes_compact h.1)
    have hmembers := Form.Writes.nextMember blank_nil blank_nil hmember (writes_compactMembers h.2)
    simpa [compactMembers, formMembers] using hmembers

end

mutual

theorem writes_prettyAt : ∀ (depth : Nat) {j : Json}, j.Spelled →
    Form.Writes (prettyAt depth j) (.value j.form)
  | _, .null, _ => .null
  | _, .bool true, _ => .true
  | _, .bool false, _ => .false
  | _, .number _, h => .number h
  | _, .string s, _ => writes_quoted s
  | _, .array [], _ => .emptyArray blank_nil
  | depth, .array (_ :: _), h => by
    have helement := writes_prettyAt (depth + 1) h.1
    have harray := Form.Writes.array (blank_newline (depth + 1)) helement
      (writes_prettyElements depth h.2)
    simpa [prettyAt, form, formElements] using harray
  | _, .object [], _ => .emptyObject blank_nil
  | depth, .object ((key, _) :: _), h => by
    have hmember := writes_member key blank_space (writes_prettyAt (depth + 1) h.1)
    have hobject := Form.Writes.object (blank_newline (depth + 1)) hmember
      (writes_prettyMembers depth h.2)
    simpa [prettyAt, form, formMembers] using hobject

theorem writes_prettyElements : ∀ (depth : Nat) {es : List Json}, SpelledElements es →
    Form.Writes (prettyElements depth es) (.elements (formElements es))
  | depth, [], _ => .lastElement (blank_newline depth)
  | depth, _ :: _, h => by
    have helement := writes_prettyAt (depth + 1) h.1
    have helements := Form.Writes.element blank_nil (blank_newline (depth + 1)) helement
      (writes_prettyElements depth h.2)
    simpa [prettyElements, formElements] using helements

theorem writes_prettyMembers : ∀ (depth : Nat) {ms : List (String × Json)}, SpelledMembers ms →
    Form.Writes (prettyMembers depth ms) (.members (formMembers ms))
  | depth, [], _ => .lastMember (blank_newline depth)
  | depth, (key, _) :: _, h => by
    have hmember := writes_member key blank_space (writes_prettyAt (depth + 1) h.1)
    have hmembers := Form.Writes.nextMember blank_nil (blank_newline (depth + 1)) hmember
      (writes_prettyMembers depth h.2)
    simpa [prettyMembers, formMembers] using hmembers

end

theorem writesText_compactText {j : Json} (h : j.Spelled) :
    Form.WritesText j.compactText.toList j.form := by
  have htext := Form.WritesText.mk blank_nil (writes_compact h) blank_nil
  simpa [compactText] using htext

/-- A pretty text may end its last line. -/
theorem writesText_prettyText {j : Json} (h : j.Spelled) :
    Form.WritesText (j.prettyText ++ "\n").toList j.form := by
  have htext := Form.WritesText.mk blank_nil (writes_prettyAt 0 h) (blank_newline 0)
  simpa [prettyText, newline] using htext

end Json

end CursorCommand
