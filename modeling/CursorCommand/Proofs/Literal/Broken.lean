import CursorCommand.Proofs.Literal.Value

/-!
# Broken escapes

A hexadecimal escape that is begun and not finished stands for its letter. What it took from the
text before it broke is lost with its backslash: the digits that were there, and behind an opening
brace also the brace and the character at which reading stopped. So it loses only its backslash
exactly when nothing follows that it could take. Braces around a surrogate are broken as well, while
four digits without braces name a code unit, so there the two spellings differ.
-/
namespace CursorCommand

namespace HexDigit

/-- Every character that reads as a hexadecimal digit is the spelling of one. -/
theorem exists_char {c : Char} {value : Nat} (h : Hex.digit? c = some value) :
    ∃ d : HexDigit, d.char = c := by
  have hspelled : ∀ n, n = c.toNat → Char.ofNat n = c := by
    rintro n rfl
    exact Char.ofNat_toNat c
  unfold Hex.digit? at h
  split at h
  · rename_i hrange
    have hlow : 48 ≤ c.toNat := hrange.1
    have hhigh : c.toNat ≤ 57 := hrange.2
    refine ⟨⟨⟨c.toNat - 48, by omega⟩, false⟩, ?_⟩
    rw [char, if_pos (show c.toNat - 48 < 10 by omega)]
    exact hspelled _ (show 48 + (c.toNat - 48) = c.toNat by omega)
  split at h
  · rename_i hrange
    have hlow : 97 ≤ c.toNat := hrange.1
    have hhigh : c.toNat ≤ 102 := hrange.2
    refine ⟨⟨⟨c.toNat - 87, by omega⟩, false⟩, ?_⟩
    rw [char, if_neg (show ¬ c.toNat - 87 < 10 by omega)]
    exact hspelled _ (show 97 + (c.toNat - 87 - 10) = c.toNat by omega)
  split at h
  · rename_i hrange
    have hlow : 65 ≤ c.toNat := hrange.1
    have hhigh : c.toNat ≤ 70 := hrange.2
    refine ⟨⟨⟨c.toNat - 55, by omega⟩, true⟩, ?_⟩
    rw [char, if_neg (show ¬ c.toNat - 55 < 10 by omega)]
    exact hspelled _ (show 65 + (c.toNat - 55 - 10) = c.toNat by omega)
  · cases h

/-- No hexadecimal digit stands at the front. -/
def NoneAhead (cs : List Char) : Prop := ∀ c ∈ cs.head?, Hex.digit? c = none

/-- As many digits as there are at the front, but no more than `count`. -/
theorem exists_front (count : Nat) (cs : List Char) :
    ∃ (ds : List HexDigit) (rest : List Char), cs = ds.map char ++ rest ∧
      (ds.length = count ∨ ds.length < count ∧ NoneAhead rest) := by
  induction count generalizing cs with
  | zero => exact ⟨[], cs, rfl, .inl rfl⟩
  | succ count ih =>
    cases cs with
    | nil => exact ⟨[], [], rfl, .inr ⟨Nat.succ_pos count, by simp [NoneAhead]⟩⟩
    | cons c cs =>
      cases hdigit : Hex.digit? c with
      | none =>
        exact ⟨[], c :: cs, rfl, .inr ⟨Nat.succ_pos count, by simpa [NoneAhead] using hdigit⟩⟩
      | some value =>
        obtain ⟨d, rfl⟩ := exists_char hdigit
        obtain ⟨ds, rest, rfl, hlength⟩ := ih cs
        refine ⟨d :: ds, rest, rfl, ?_⟩
        simpa using hlength

end HexDigit

theorem CodePoint.toNat_ofNat {n : Nat} (h : n.isValidChar) : (Char.ofNat n).toNat = n := by
  rw [Char.ofNat, dif_pos h]
  rfl

namespace Escape

open HexDigit

/-- Too few digits are all taken. -/
theorem hex_short {count : Nat} {ds : List HexDigit} {rest : List Char}
    (hlength : ds.length < count) (h : NoneAhead rest) :
    hex count (ds.map char ++ rest) = (none, rest) := by
  obtain ⟨missing, rfl⟩ := Nat.exists_eq_add_of_lt hlength
  have hdigits := hexDigits_append (missing + 1) 0 ds rest
  have hstop : hexDigits (missing + 1) (append 0 ds) rest = (append 0 ds, missing + 1, rest) := by
    cases rest with
    | nil => rfl
    | cons c rest => rw [hexDigits, h c rfl]
  rw [hstop] at hdigits
  rw [hex, show ds.length + missing + 1 = missing + 1 + ds.length by omega, hdigits]

/-- A broken hexadecimal escape: its letter, what it takes behind the letter, and what is left. -/
inductive Broken : Char → List Char → List Char → Prop
  /-- Fewer than two digits. -/
  | byte {ds : List HexDigit} {rest : List Char} : ds.length < 2 → NoneAhead rest →
      Broken 'x' (ds.map char) rest
  /-- Fewer than four digits and no brace. -/
  | unit {ds : List HexDigit} {rest : List Char} : ds.length < 4 → NoneAhead rest →
      (ds.map char ++ rest).head? ≠ some '{' → Broken 'u' (ds.map char) rest
  /-- Digits in braces up to the end of the text. -/
  | unclosed {ds : List HexDigit} : number ds < 2 ^ 32 → Broken 'u' ('{' :: ds.map char) []
  /-- A character in braces that is no digit, or one digit too many. -/
  | stray {ds : List HexDigit} {c : Char} {rest : List Char} : number ds < 2 ^ 32 → c ≠ '}' →
      (Hex.digit? c = none ∨ braceLimit ≤ number ds) →
      Broken 'u' ('{' :: (ds.map char ++ [c])) rest
  /-- A number in braces that no character has. -/
  | point {ds : List HexDigit} {rest : List Char} : number ds < 2 ^ 32 →
      ¬ (number ds).isValidChar → Broken 'u' ('{' :: (ds.map char ++ ['}'])) rest

variable {letter : Char} {taken rest : List Char}

theorem Broken.letter_eq (h : Broken letter taken rest) : letter = 'x' ∨ letter = 'u' := by
  cases h with
  | byte _ _ => exact .inl rfl
  | _ => exact .inr rfl

theorem byte_broken (h : Broken 'x' taken rest) : byte (taken ++ rest) = (none, rest) := by
  cases h with
  | byte hlength hrest => rw [byte, hex_short hlength hrest]

theorem unicode_broken (h : Broken 'u' taken rest) : unicode (taken ++ rest) = (none, rest) := by
  cases h with
  | unit hlength hrest hbrace =>
    rw [unicode, hex_short hlength hrest]
    rintro cs hcs
    exact hbrace (by rw [hcs]; rfl)
  | unclosed hbits =>
    have hbraced := braced_append hbits []
    rw [List.append_nil] at hbraced
    rw [List.append_nil, unicode, hbraced]
    rfl
  | @stray ds c _ hbits hclose hstop =>
    have hstray : braced (number ds) (c :: rest) = (none, rest) := by
      rw [braced, if_neg hclose]
      rcases hstop with hdigit | hlimit
      · simp [hdigit]
      · rw [if_neg (Nat.not_lt.mpr hlimit)]
    rw [List.cons_append, List.append_assoc, unicode, braced_append hbits]
    exact hstray
  | point hbits hvalid =>
    rw [List.cons_append, List.append_assoc, List.singleton_append, unicode, braced_append hbits,
      braced_close]
    exact congrArg (·, rest) (CodePoint.char?_eq_none hvalid)

theorem read_broken (h : Broken letter taken rest) :
    read (letter :: (taken ++ rest)) = ([letter], rest) := by
  rcases h.letter_eq with rfl | rfl
  · rw [read, byte_broken h]
    rfl
  · rw [read, unicode_broken h]
    rfl

/-- A `\x` escape names a character with two digits or is broken. -/
theorem byte_cases (cs : List Char) :
    (∃ a b rest, cs = [a, b].map char ++ rest) ∨
      ∃ taken rest, cs = taken ++ rest ∧ Broken 'x' taken rest := by
  obtain ⟨ds, rest, rfl, hlength | ⟨hlength, hrest⟩⟩ := exists_front 2 cs
  · obtain ⟨a, b, rfl⟩ := List.length_eq_two.mp hlength
    exact .inl ⟨a, b, rest, rfl⟩
  · exact .inr ⟨ds.map char, rest, rfl, .byte hlength hrest⟩

/-- What stands in braces, up to where reading stops. -/
theorem exists_braced {value : Nat} (h : value < 2 ^ 32) (cs : List Char) :
    ∃ ds : List HexDigit, append value ds < 2 ^ 32 ∧
      (cs = ds.map char ∨ ∃ c rest, cs = ds.map char ++ c :: rest ∧
        (c = '}' ∨ Hex.digit? c = none ∨ braceLimit ≤ append value ds)) := by
  induction cs generalizing value with
  | nil => exact ⟨[], h, .inl rfl⟩
  | cons c cs ih =>
    cases hdigit : Hex.digit? c with
    | none => exact ⟨[], h, .inr ⟨c, cs, rfl, .inr (.inl hdigit)⟩⟩
    | some n =>
      by_cases hlimit : braceLimit ≤ value
      · exact ⟨[], h, .inr ⟨c, cs, rfl, .inr (.inr hlimit)⟩⟩
      · obtain ⟨d, rfl⟩ := exists_char hdigit
        have hbits : value * 16 + d.value < 2 ^ 32 := by
          have hlast := d.value.isLt
          have hsplit : braceLimit * 16 = 2 ^ 32 := rfl
          omega
        obtain ⟨ds, hds, hrest⟩ := ih hbits
        refine ⟨d :: ds, hds, ?_⟩
        rcases hrest with rfl | ⟨c, rest, rfl, hstop⟩
        · exact .inl rfl
        · exact .inr ⟨c, rest, rfl, hstop⟩

/-- A `\u` escape names a code unit with four digits or a character with digits in braces, or is
broken. No digits at all name the character zero. -/
theorem unicode_cases (cs : List Char) :
    (∃ a b c d rest, cs = [a, b, c, d].map char ++ rest) ∨
      (∃ ds rest, cs = '{' :: (ds.map char ++ '}' :: rest) ∧ (number ds).isValidChar) ∨
      ∃ taken rest, cs = taken ++ rest ∧ Broken 'u' taken rest := by
  by_cases hopen : cs.head? = some '{'
  · right
    obtain ⟨cs, rfl⟩ := List.head?_eq_some_iff.mp hopen
    obtain ⟨ds, hbits, rfl | ⟨c, rest, rfl, hstop⟩⟩ :=
      exists_braced (show 0 < 2 ^ 32 by decide) cs
    · exact .inr ⟨_, [], (List.append_nil _).symm, .unclosed hbits⟩
    · by_cases hclose : c = '}'
      · subst hclose
        by_cases hvalid : (number ds).isValidChar
        · exact .inl ⟨ds, rest, rfl, hvalid⟩
        · exact .inr ⟨_, rest, by simp, .point hbits hvalid⟩
      · exact .inr ⟨_, rest, by simp, .stray hbits hclose (hstop.resolve_left hclose)⟩
  · obtain ⟨ds, rest, rfl, hlength | ⟨hlength, hrest⟩⟩ := exists_front 4 cs
    · obtain ⟨a, b, c, d, rfl⟩ := List.length_eq_four.mp hlength
      exact .inl ⟨a, b, c, d, rest, rfl⟩
    · exact .inr (.inr ⟨ds.map char, rest, rfl, .unit hlength hrest hopen⟩)

theorem isLow_of_lowSurrogate? {cs : List Char} {low : Nat}
    (h : lowSurrogate? cs = some (low, rest)) : CodeUnit.isLow low = true := by
  unfold lowSurrogate? at h
  split at h
  · split at h
    · split at h
      · rename_i hlow
        cases h
        exact hlow
      · cases h
    · cases h
  · cases h

/-- A code unit stands alone or makes a pair with an escaped one behind it. -/
theorem ofUnit_cases {unit : Nat} (hunit : unit < 0x10000) (cs : List Char) :
    ofUnit unit cs = (some (CodeUnit.lone unit), cs) ∨
      ∃ low rest, CodeUnit.isHigh unit = true ∧ CodeUnit.isLow low = true ∧
        ofUnit unit cs = (some (Char.ofNat (CodeUnit.pair unit low)), rest) := by
  cases hhigh : CodeUnit.isHigh unit with
  | false => exact .inl (ofUnit_lone hunit fun htrue => by rw [hhigh] at htrue; cases htrue)
  | true =>
    cases hnext : lowSurrogate? cs with
    | none => exact .inl (ofUnit_lone hunit fun _ => hnext)
    | some next =>
      have hlow := isLow_of_lowSurrogate? hnext
      exact .inr ⟨next.1, next.2, rfl, hlow, ofUnit_pair hhigh hlow hnext⟩

/-- A pair makes a character that takes two units. -/
theorem ofNat_pair_ne {high low : Nat} (hhigh : CodeUnit.isHigh high = true)
    (hlow : CodeUnit.isLow low = true) {c : Char} (hc : c.toNat < 0x10000) :
    Char.ofNat (CodeUnit.pair high low) ≠ c := by
  rintro rfl
  have hpair : 0x10000 ≤ CodeUnit.pair high low := by
    unfold CodeUnit.pair
    omega
  rw [CodePoint.toNat_ofNat (CodeUnit.pair_valid hhigh hlow)] at hc
  exact Nat.not_lt.mpr hpair hc

theorem backslash_not_mem_chars (ds : List HexDigit) : '\\' ∉ ds.map char := by
  intro h
  obtain ⟨d, -, hd⟩ := List.mem_map.mp h
  exact char_ne (by decide) hd

/-- An escape gives at most one character, and none of what it takes is a backslash unless it gives
something else than a brace. -/
theorem read_takes (cs : List Char) :
    (∃ taken, cs = taken ++ (read cs).2 ∧ '\\' ∉ taken ∧ (read cs).1.length ≤ 1) ∨
      ∃ c, (read cs).1 = [c] ∧ c ≠ '{' := by
  fun_cases read cs with
  | case8 cs =>
    right
    split
    · exact ⟨'0', rfl, by decide⟩
    · exact ⟨'\x00', rfl, by decide⟩
  | case9 cs c rest h =>
    rcases byte_cases cs with ⟨a, b, rest, rfl⟩ | ⟨taken, rest, rfl, hbroken⟩
    · rw [byte_chars] at h
      cases h
      exact .inl ⟨'x' :: [a, b].map char, rfl, by simpa using backslash_not_mem_chars [a, b],
        Nat.le_refl 1⟩
    · rw [byte_broken hbroken] at h
      cases h
      exact .inr ⟨'x', rfl, by decide⟩
  | case10 cs c rest h =>
    rcases unicode_cases cs with ⟨a, b, d, e, rest, rfl⟩ | ⟨ds, rest, rfl, hvalid⟩ |
      ⟨taken, rest, rfl, hbroken⟩
    · rw [unicode_unit] at h
      have hunit : number [a, b, d, e] < 0x10000 := by simpa using number_lt [a, b, d, e]
      rcases ofUnit_cases hunit rest with hlone | ⟨low, after, hhigh, hlow, hpair⟩
      · rw [hlone] at h
        cases h
        exact .inl ⟨'u' :: [a, b, d, e].map char, rfl,
          by simpa using backslash_not_mem_chars [a, b, d, e], Nat.le_refl 1⟩
      · rw [hpair] at h
        cases h
        have hne := ofNat_pair_ne hhigh hlow (show '{'.toNat < 0x10000 by simp)
        exact .inr ⟨_, by rw [Option.getD_some], hne⟩
    · rw [unicode_point hvalid] at h
      cases h
      exact .inl ⟨'u' :: '{' :: (ds.map char ++ ['}']), by simp,
        by simpa using backslash_not_mem_chars ds, Nat.le_refl 1⟩
    · rw [unicode_broken hbroken] at h
      cases h
      exact .inr ⟨'u', rfl, by decide⟩
  | case11 cs => exact .inl ⟨['\r', '\n'], rfl, by decide, Nat.zero_le 1⟩
  | case12 cs => exact .inl ⟨['\r'], rfl, by decide, Nat.zero_le 1⟩
  | case13 cs => exact .inl ⟨['\n'], rfl, by decide, Nat.zero_le 1⟩
  | case14 cs => exact .inl ⟨['\u2028'], rfl, by decide, Nat.zero_le 1⟩
  | case15 cs => exact .inl ⟨['\u2029'], rfl, by decide, Nat.zero_le 1⟩
  | case16 c cs =>
    by_cases hbrace : c = '{'
    · exact .inl ⟨[c], rfl, by simp [hbrace], Nat.le_refl 1⟩
    · exact .inr ⟨c, rfl, hbrace⟩
  | _ => exact .inr ⟨_, rfl, by decide⟩

/-- So many hexadecimal digits stand at the front. -/
def DigitsAhead (count : Nat) (cs : List Char) : Prop :=
  count ≤ cs.length ∧ (cs.take count).all fun c => (Hex.digit? c).isSome

instance (count : Nat) (cs : List Char) : Decidable (DigitsAhead count cs) := by
  unfold DigitsAhead
  infer_instance

/-- Braces stand at the front with one hexadecimal digit or more in them. -/
def BracesAhead (cs : List Char) : Prop :=
  ∃ ds : List Char, ds ≠ [] ∧ (∀ c ∈ ds, (Hex.digit? c).isSome = true) ∧
    '{' :: (ds ++ ['}']) <+: cs

theorem isSome_digit?_of_mem {ds : List HexDigit} {c : Char} (h : c ∈ ds.map char) :
    (Hex.digit? c).isSome = true := by
  obtain ⟨d, -, rfl⟩ := List.mem_map.mp h
  rw [digit?_char, Option.isSome_some]

theorem digitsAhead_chars (ds : List HexDigit) (rest : List Char) :
    DigitsAhead ds.length (ds.map char ++ rest) := by
  refine ⟨by simp, ?_⟩
  rw [List.take_left' (List.length_map char), List.all_eq_true]
  exact fun c hc => isSome_digit?_of_mem hc

theorem exists_broken_byte {cs : List Char} (h : ¬ DigitsAhead 2 cs) :
    ∃ taken rest, cs = taken ++ rest ∧ Broken 'x' taken rest := by
  rcases byte_cases cs with ⟨a, b, rest, rfl⟩ | hbroken
  · exact (h (digitsAhead_chars [a, b] rest)).elim
  · exact hbroken

theorem exists_broken_unicode {cs : List Char} (hdigits : ¬ DigitsAhead 4 cs)
    (hbraces : ¬ BracesAhead cs) :
    (∃ rest, cs = '{' :: '}' :: rest) ∨
      ∃ taken rest, cs = taken ++ rest ∧ Broken 'u' taken rest := by
  rcases unicode_cases cs with ⟨a, b, c, d, rest, rfl⟩ | ⟨ds, rest, rfl, -⟩ | hbroken
  · exact (hdigits (digitsAhead_chars [a, b, c, d] rest)).elim
  · cases ds with
    | nil => exact .inl ⟨rest, rfl⟩
    | cons d ds =>
      refine (hbraces ⟨(d :: ds).map char, by simp, fun c => isSome_digit?_of_mem, rest, ?_⟩).elim
      simp
  · exact .inr hbroken

end Escape

namespace Literal

open Escape HexDigit

theorem decode_broken {letter : Char} {taken rest : List Char} (h : Broken letter taken rest) :
    decode ('\\' :: letter :: (taken ++ rest)) = letter :: decode rest := by
  rw [decode_backslash, read_broken h]
  rfl

/-- A text never decodes to a brace, more characters, and what it decodes to behind a backslash. -/
theorem decode_ne_brace (s cs : List Char) :
    decode cs ≠ '{' :: (s ++ decode ('\\' :: cs)) := by
  intro h
  have hlength := congrArg List.length h
  cases cs with
  | nil =>
    rw [decode_nil] at h
    cases h
  | cons c cs =>
    by_cases hc : c = '\\'
    · subst hc
      have hplain : decode ('\\' :: '\\' :: cs) = '\\' :: decode cs :=
        @decode_element (.escaped '\\' (by decide)) cs rfl trivial
      rw [hplain, decode_backslash] at h hlength
      rcases read_takes cs with ⟨taken, hcs, hno, hone⟩ | ⟨c, hgives, hne⟩
      · have hrest : decode cs = taken ++ decode (read cs).2 := by
          rw [← decode_append hno, ← hcs]
        rw [hrest] at hlength
        simp only [List.length_append, List.length_cons] at hlength
        omega
      · rw [hgives] at h
        exact hne (List.cons.inj h).1
    · rw [decode_cons hc] at h hlength
      obtain ⟨rfl, -⟩ := List.cons.inj h
      have hplain : decode ('\\' :: '{' :: cs) = '{' :: decode cs :=
        @decode_element (.escaped '{' (by decide)) cs rfl trivial
      rw [hplain] at hlength
      simp only [List.length_append, List.length_cons] at hlength
      omega

/-- A broken escape takes no backslash unless one stands in its braces. -/
theorem backslash_mem_taken {letter : Char} {taken rest : List Char}
    (h : Broken letter taken rest) (hmem : '\\' ∈ taken) :
    ∃ ds : List HexDigit, taken = '{' :: (ds.map char ++ ['\\']) := by
  cases h with
  | byte _ _ => exact (backslash_not_mem_chars _ hmem).elim
  | unit _ _ _ => exact (backslash_not_mem_chars _ hmem).elim
  | unclosed _ =>
    have hdigits := (List.mem_cons.mp hmem).resolve_left (by decide)
    exact (backslash_not_mem_chars _ hdigits).elim
  | @stray ds c _ _ _ _ =>
    have hinside := (List.mem_cons.mp hmem).resolve_left (by decide)
    have hlast := (List.mem_append.mp hinside).resolve_left (backslash_not_mem_chars ds)
    exact ⟨ds, by rw [List.mem_singleton.mp hlast]⟩
  | @point ds _ _ _ =>
    have hinside := (List.mem_cons.mp hmem).resolve_left (by decide)
    have hlast := (List.mem_append.mp hinside).resolve_left (backslash_not_mem_chars ds)
    exact absurd hlast (by decide)

/-- What a broken escape takes makes a difference to the value, however the text goes on. -/
theorem decode_taken_eq_iff {letter : Char} {taken rest : List Char}
    (h : Broken letter taken rest) : decode rest = decode (taken ++ rest) ↔ taken = [] := by
  by_cases hmem : '\\' ∈ taken
  · obtain ⟨ds, rfl⟩ := backslash_mem_taken h hmem
    have htaken : decode ('{' :: (ds.map char ++ ['\\']) ++ rest) =
        '{' :: (ds.map char ++ decode ('\\' :: rest)) := by
      rw [List.cons_append, List.append_assoc, List.singleton_append, decode_cons (by decide),
        decode_append (backslash_not_mem_chars ds)]
    rw [htaken]
    exact ⟨fun heq => (decode_ne_brace _ rest heq).elim, fun hnil => by cases hnil⟩
  · rw [decode_append hmem, List.self_eq_append_left]

/-- Behind the letter of an escape the text breaks it. What the escape takes is missing from the
value, and only the backslash is missing when that is nothing. -/
def BreaksOff (p : List Char) (letter : Char) (r : List Char) : Prop :=
  ∃ taken rest, r = taken ++ rest ∧ Broken letter taken rest ∧
    cook (p ++ '\\' :: letter :: r) = p ++ letter :: cook rest ∧
    (cook (p ++ '\\' :: letter :: r) = p ++ letter :: cook r ↔ taken = [])

theorem breaksOff_broken {p : List Char} (hp : '\\' ∉ p) {letter : Char} {taken rest : List Char}
    (h : Broken letter taken rest) : BreaksOff p letter (taken ++ rest) := by
  have hvalue : cook (p ++ '\\' :: letter :: (taken ++ rest)) = p ++ letter :: cook rest := by
    rw [cook_eq_decode, cook_eq_decode, decode_append hp, decode_broken h]
  refine ⟨taken, rest, rfl, h, hvalue, ?_⟩
  rw [hvalue, List.append_cancel_left_eq, List.cons.injEq, cook_eq_decode, cook_eq_decode,
    decode_taken_eq_iff h]
  exact and_iff_right rfl

/-- A hexadecimal escape without the digits that it needs stands for its letter, and what it took is
lost with its backslash, unless it has empty braces: they name the character zero. -/
theorem cook_unfinished (p r : List Char) (hp : '\\' ∉ p) :
    (¬ DigitsAhead 2 r → BreaksOff p 'x' r) ∧
    (¬ DigitsAhead 4 r → ¬ BracesAhead r →
      (∃ rest, r = '{' :: '}' :: rest ∧
        cook (p ++ '\\' :: 'u' :: r) = p ++ '\x00' :: cook rest) ∨ BreaksOff p 'u' r) := by
  constructor
  · intro hdigits
    obtain ⟨taken, rest, rfl, hbroken⟩ := exists_broken_byte hdigits
    exact breaksOff_broken hp hbroken
  · intro hdigits hbraces
    rcases exists_broken_unicode hdigits hbraces with ⟨rest, rfl⟩ | ⟨taken, rest, rfl, hbroken⟩
    · left
      have hzero : unicode ('{' :: '}' :: rest) = (some '\x00', rest) :=
        @unicode_point [] (.inl (by decide)) rest
      refine ⟨rest, rfl, ?_⟩
      rw [cook_eq_decode, cook_eq_decode, decode_append hp, decode_backslash, Escape.read, hzero]
      rfl
    · exact .inr (breaksOff_broken hp hbroken)

/-- One digit in front of another escape, and a brace that this other escape leaves open. -/
theorem cook_unfinished_twice :
    '\\' ∉ ['é'] ∧ BreaksOff ['é'] 'x' "4\\x410".toList ∧
      BreaksOff ['é'] 'u' "\x7b4\\x410".toList := by
  have hp : '\\' ∉ ['é'] := by decide
  have hbraces : ¬ BracesAhead "\x7b4\\x410".toList := by
    rintro ⟨ds, hne, hdigits, hprefix⟩
    match ds with
    | [] => exact hne rfl
    | [_] => simp at hprefix
    | d :: e :: ds =>
      simp only [List.cons_append, String.reduceToList, List.cons_prefix_cons] at hprefix
      obtain ⟨-, -, rfl, -⟩ := hprefix
      exact absurd (hdigits '\\' (by simp)) (by decide)
  refine ⟨hp, (cook_unfinished ['é'] _ hp).1 (by decide), ?_⟩
  rcases (cook_unfinished ['é'] _ hp).2 (by decide) hbraces with ⟨rest, hrest, -⟩ | hbreaks
  · exact absurd hrest (by simp)
  · exact hbreaks

/-- The digit that a `\x` escape takes before it breaks is not in the value. -/
theorem cook_loses_digit :
    ¬ ∀ p r : List Char, '\\' ∉ p →
      (¬ DigitsAhead 2 r → cook (p ++ '\\' :: 'x' :: r) = p ++ 'x' :: cook r) ∧
      (¬ DigitsAhead 4 r → ¬ BracesAhead r →
        cook (p ++ '\\' :: 'u' :: r) = p ++ 'u' :: cook r) := by
  intro h
  have hkept := (h ['é'] "4\\x410".toList (by decide)).1 (by decide)
  exact absurd hkept (by decide +kernel)

/-- Without braces a surrogate is never read as the letter of its escape. -/
theorem ofUnit_surrogate_ne {unit : Nat} (hunit : unit < 0x10000)
    (h : CodeUnit.isSurrogate unit = true) (cs : List Char) :
    (ofUnit unit cs).1.getD 'u' ≠ 'u' := by
  rcases ofUnit_cases hunit cs with hlone | ⟨low, rest, hhigh, hlow, hpair⟩
  · rw [hlone, Option.getD_some, CodeUnit.lone, if_pos h]
    decide
  · rw [hpair, Option.getD_some]
    exact ofNat_pair_ne hhigh hlow (by simp)

/-- Four digits in braces name the same character as without them unless they name a surrogate,
which in braces is none: then the escape stands for its letter. -/
theorem cook_braces_iff (p r : List Char) (a b c d : HexDigit) (hp : '\\' ∉ p) :
    let unit := number [a, b, c, d]
    let bare := cook (p ++ '\\' :: 'u' :: ([a, b, c, d].map char ++ r))
    let braced := cook (p ++ '\\' :: 'u' :: '{' :: ([a, b, c, d].map char ++ '}' :: r))
    (bare = braced ↔ CodeUnit.isSurrogate unit = false) ∧
    (CodeUnit.isSurrogate unit = true → braced = p ++ 'u' :: cook r) := by
  intro unit bare braced
  have hunit : unit < 0x10000 := by simpa using number_lt [a, b, c, d]
  have hvalid := CodeUnit.valid_iff hunit
  have hbare : bare = p ++ (ofUnit unit r).1.getD 'u' :: decode (ofUnit unit r).2 := by
    rw [show bare = _ from cook_eq_decode _, decode_append hp, decode_backslash, Escape.read,
      unicode_unit]
    rfl
  cases hsurrogate : CodeUnit.isSurrogate unit with
  | false =>
    have hlone : ofUnit unit r = (some (Char.ofNat unit), r) := by
      rw [ofUnit_lone hunit, CodeUnit.lone, hsurrogate]
      · rfl
      · intro hhigh
        rw [CodeUnit.isSurrogate, hhigh] at hsurrogate
        cases hsurrogate
    have hbraced : braced = p ++ Char.ofNat unit :: decode r := by
      rw [show braced = _ from cook_eq_decode _, decode_append hp, decode_backslash, Escape.read,
        unicode_point (hvalid.mpr hsurrogate)]
      rfl
    rw [hbare, hlone, hbraced]
    exact ⟨⟨fun _ => rfl, fun _ => rfl⟩, fun h => by cases h⟩
  | true =>
    have hpoint : Broken 'u' ('{' :: ([a, b, c, d].map char ++ ['}'])) r :=
      .point (Nat.lt_trans hunit (by decide)) fun h => by
        rw [hvalid.mp h] at hsurrogate
        cases hsurrogate
    have hbraced : braced = p ++ 'u' :: cook r := by
      rw [cook_eq_decode, ← decode_broken hpoint, ← decode_append hp]
      exact cook_eq_decode _
    refine ⟨⟨fun heq => ?_, fun h => by cases h⟩, fun _ => hbraced⟩
    rw [hbare, hbraced, List.append_cancel_left_eq] at heq
    exact (ofUnit_surrogate_ne hunit hsurrogate r (List.cons.inj heq).1).elim

/-- The first half of a pair in braces is read as the letter, and the second half stands alone. -/
theorem cook_braces_pair :
    let high : List HexDigit := [⟨13, false⟩, ⟨8, false⟩, ⟨3, false⟩, ⟨13, false⟩]
    '\\' ∉ ['a'] ∧ CodeUnit.isSurrogate (number high) = true ∧
      cook "a\\u{d83d}\\uDE00".toList = 'a' :: 'u' :: cook "\\uDE00".toList := by
  intro high
  have hp : '\\' ∉ ['a'] := by decide
  have hsurrogate : CodeUnit.isSurrogate (number high) = true := by decide
  exact ⟨hp, hsurrogate,
    (cook_braces_iff ['a'] "\\uDE00".toList ⟨13, false⟩ ⟨8, false⟩ ⟨3, false⟩ ⟨13, false⟩ hp).2
      hsurrogate⟩

/-- A low surrogate is replaced without braces and read as the letter with them. -/
theorem cook_braces_differ :
    ¬ ∀ (p r : List Char) (a b c d : HexDigit), '\\' ∉ p →
      cook (p ++ '\\' :: 'u' :: ([a, b, c, d].map char ++ r)) =
        cook (p ++ '\\' :: 'u' :: '{' :: ([a, b, c, d].map char ++ '}' :: r)) := by
  intro h
  have hsame := h [] [] ⟨13, true⟩ ⟨15, true⟩ ⟨15, true⟩ ⟨15, true⟩ (by decide)
  exact absurd hsame (by decide +kernel)

end Literal

end CursorCommand
