import CursorCommand.Literal.Decode
import CursorCommand.Proofs.Literal.Spelling

/-!
# Literals have the value that they spell

Decoding a body gives the text that its elements spell, whatever the elements and their neighbours.
Only code units are not decoded one by one: `decode_run` takes a whole run of them, and the run ends
where no escaped low surrogate follows.
-/
namespace CursorCommand

namespace Escape

open HexDigit

theorem hexDigits_append (count value : Nat) (ds : List HexDigit) (cs : List Char) :
    hexDigits (count + ds.length) value (ds.map char ++ cs) =
      hexDigits count (append value ds) cs := by
  induction ds generalizing value with
  | nil => rfl
  | cons d ds ih =>
    simp only [List.length_cons, ← Nat.add_assoc, List.map_cons, List.cons_append, hexDigits,
      digit?_char]
    exact ih (value * 16 + d.value)

theorem hex_chars (ds : List HexDigit) (rest : List Char) :
    hex ds.length (ds.map char ++ rest) = (some (number ds), rest) := by
  have hdigits := hexDigits_append 0 0 ds rest
  rw [Nat.zero_add] at hdigits
  rw [hex, hdigits]
  rfl

/-- Digits are taken as long as their number fits into 32 bits. -/
theorem braced_append {value : Nat} {ds : List HexDigit} (h : append value ds < 2 ^ 32)
    (cs : List Char) : braced value (ds.map char ++ cs) = braced (append value ds) cs := by
  induction ds generalizing value with
  | nil => rfl
  | cons d ds ih =>
    have hbrace : d.char ≠ '}' := char_ne (by decide)
    have hlimit : value < braceLimit := by
      have hle := le_append (value * 16 + d.value) ds
      have hbits : braceLimit * 16 = 2 ^ 32 := rfl
      rw [append_cons] at h
      omega
    simp only [List.map_cons, List.cons_append, braced, if_neg hbrace, if_pos hlimit, digit?_char]
    exact ih h

theorem braced_close (value : Nat) (rest : List Char) :
    braced value ('}' :: rest) = (CodePoint.char? value, rest) := by
  rw [braced, if_pos rfl]

theorem byte_chars (a b : HexDigit) (rest : List Char) :
    byte ([a, b].map char ++ rest) = (some (Char.ofNat (number [a, b])), rest) := by
  have hlt : number [a, b] < 256 := number_lt [a, b]
  have hhex : hex 2 ([a, b].map char ++ rest) = (some (number [a, b]), rest) :=
    hex_chars [a, b] rest
  rw [byte, hhex]
  simp only
  rw [CodePoint.char?_eq_some (Or.inl (by omega))]

theorem unicode_point {digits : List HexDigit} (h : (number digits).isValidChar)
    (rest : List Char) :
    unicode ('{' :: (digits.map char ++ '}' :: rest)) =
      (some (Char.ofNat (number digits)), rest) := by
  have hlt : append 0 digits < 2 ^ 32 := by
    rcases h with h | h
    · exact Nat.lt_trans h (by decide)
    · exact Nat.lt_trans h.2 (by decide)
  rw [unicode, braced_append hlt, braced_close]
  exact congrArg (·, rest) (CodePoint.char?_eq_some h)

theorem unicode_unit (a b c d : HexDigit) (rest : List Char) :
    unicode ([a, b, c, d].map char ++ rest) = ofUnit (number [a, b, c, d]) rest := by
  have hhex : hex 4 ([a, b, c, d].map char ++ rest) = (some (number [a, b, c, d]), rest) :=
    hex_chars [a, b, c, d] rest
  have hbrace : a.char ≠ '{' := char_ne (by decide)
  rw [unicode, hhex]
  intro cs hcs
  exact hbrace (List.cons.inj hcs).1

theorem lowSurrogate?_unit (a b c d : HexDigit) (rest : List Char) :
    lowSurrogate? ('\\' :: 'u' :: ([a, b, c, d].map char ++ rest)) =
      if CodeUnit.isLow (number [a, b, c, d]) then some (number [a, b, c, d], rest) else none := by
  have hhex : hex 4 ([a, b, c, d].map char ++ rest) = (some (number [a, b, c, d]), rest) :=
    hex_chars [a, b, c, d] rest
  rw [lowSurrogate?, hhex]

theorem lowSurrogate?_of_ne {c : Char} (h : c ≠ 'u') (rest : List Char) :
    lowSurrogate? ('\\' :: c :: rest) = none := by
  rw [lowSurrogate?]
  intro cs hcs
  exact h (List.cons.inj (List.cons.inj hcs).2).1

theorem lowSurrogate?_of_head_ne {c : Char} (h : c ≠ '\\') (rest : List Char) :
    lowSurrogate? (c :: rest) = none := by
  rw [lowSurrogate?]
  intro cs hcs
  exact h (List.cons.inj hcs).1

theorem ofUnit_pair {high low : Nat} {cs rest : List Char} (hhigh : CodeUnit.isHigh high = true)
    (hlow : CodeUnit.isLow low = true) (hcs : lowSurrogate? cs = some (low, rest)) :
    ofUnit high cs = (some (Char.ofNat (CodeUnit.pair high low)), rest) := by
  rw [ofUnit, if_pos hhigh, hcs]
  exact congrArg (·, rest) (CodePoint.char?_eq_some (CodeUnit.pair_valid hhigh hlow))

/-- A unit stands alone unless it is a high surrogate with an escaped low one behind it. -/
theorem ofUnit_lone {unit : Nat} {cs : List Char} (hunit : unit < 0x10000)
    (h : CodeUnit.isHigh unit = true → lowSurrogate? cs = none) :
    ofUnit unit cs = (some (CodeUnit.lone unit), cs) := by
  have hvalid := CodeUnit.valid_iff hunit
  rw [ofUnit, CodeUnit.lone]
  cases hhigh : CodeUnit.isHigh unit with
  | true => simp [h hhigh, CodeUnit.isSurrogate, hhigh, replacement]
  | false =>
    cases hs : CodeUnit.isSurrogate unit with
    | false => simp [CodePoint.char?_eq_some (hvalid.mpr hs)]
    | true =>
      have hnot : ¬ unit.isValidChar := by
        rw [hvalid, hs]
        exact Bool.noConfusion
      simp [CodePoint.char?_eq_none hnot, replacement]

theorem read_of_plain {c : Char} (h : Literal.Plain c) (rest : List Char) :
    read (c :: rest) = ([c], rest) := by
  obtain ⟨hdigit, hspecial⟩ := h
  simp only [List.mem_cons, List.not_mem_nil, or_false, not_or] at hspecial
  have hzero : c ≠ '0' := by
    rintro rfl
    cases hdigit
  rw [read] <;> simp_all

theorem startsWithDigit_eq_false {cs : List Char} (h : ∀ c ∈ cs.head?, c.isDigit = false) :
    startsWithDigit cs = false := by
  cases cs with
  | nil => rfl
  | cons c cs => exact h c rfl

end Escape

namespace Literal

open Element

/-- An element that names no code unit is decoded by itself. -/
theorem decode_element {e : Element} {rest : List Char} (hunit : e.codeUnit? = none)
    (h : e.Before rest) : decode (e.chars ++ rest) = e.alone ++ decode rest := by
  cases e with
  | self c hc => exact decode_cons hc rest
  | control k =>
    cases k <;> exact decode_backslash _
  | nul =>
    rw [chars, List.cons_append, decode_backslash]
    have hread : Escape.read ('0' :: rest) = (['\x00'], rest) := by
      rw [Escape.read, Escape.startsWithDigit_eq_false h]
      rfl
    exact congrArg (fun r => r.1 ++ decode r.2) hread
  | byte a b =>
    rw [chars, List.cons_append, List.cons_append, decode_backslash, Escape.read,
      Escape.byte_chars]
    rfl
  | unit a b c d => cases hunit
  | point digits nonempty valid =>
    rw [chars, List.cons_append, List.cons_append, List.cons_append, List.append_assoc,
      decode_backslash, List.singleton_append, Escape.read, Escape.unicode_point valid]
    rfl
  | continuation t =>
    cases t with
    | cr =>
      rw [chars, List.cons_append, decode_backslash, Terminator.chars, List.singleton_append,
        Escape.read]
      · rfl
      · rintro cs rfl
        exact h rfl
    | _ => exact decode_backslash _
  | escaped c hc =>
    rw [chars, List.cons_append, decode_backslash, List.singleton_append,
      Escape.read_of_plain hc]
    rfl

theorem codeUnit?_lt {e : Element} {unit : Nat} (h : e.codeUnit? = some unit) :
    unit < 0x10000 := by
  cases e with
  | unit a b c d =>
    cases h
    simpa using HexDigit.number_lt [a, b, c, d]
  | _ => cases h

/-- A code unit takes with it an escaped low surrogate behind it. -/
theorem decode_codeUnit {e : Element} {unit : Nat} (h : e.codeUnit? = some unit)
    (rest : List Char) :
    decode (e.chars ++ rest) =
      (Escape.ofUnit unit rest).1.getD 'u' :: decode (Escape.ofUnit unit rest).2 := by
  cases e with
  | unit a b c d =>
    cases h
    rw [chars, List.cons_append, List.cons_append, decode_backslash, Escape.read,
      Escape.unicode_unit]
    rfl
  | _ => cases h

theorem lowSurrogate?_codeUnit {e : Element} {unit : Nat} (h : e.codeUnit? = some unit)
    (rest : List Char) :
    Escape.lowSurrogate? (e.chars ++ rest) =
      if CodeUnit.isLow unit then some (unit, rest) else none := by
  cases e with
  | unit a b c d =>
    cases h
    exact Escape.lowSurrogate?_unit a b c d rest
  | _ => cases h

theorem lowSurrogate?_of_codeUnit?_eq_none {e : Element} (h : e.codeUnit? = none)
    (rest : List Char) : Escape.lowSurrogate? (e.chars ++ rest) = none := by
  cases e with
  | self c hc => exact Escape.lowSurrogate?_of_head_ne hc rest
  | control k => cases k <;> exact Escape.lowSurrogate?_of_ne (by decide) rest
  | nul => exact Escape.lowSurrogate?_of_ne (by decide) rest
  | byte a b => exact Escape.lowSurrogate?_of_ne (by decide) _
  | unit a b c d => cases h
  | point digits nonempty valid => rfl
  | continuation t => cases t <;> exact Escape.lowSurrogate?_of_ne (by decide) _
  | escaped c hc =>
    apply Escape.lowSurrogate?_of_ne
    rintro rfl
    exact absurd hc (by decide)

/-- No element but a code unit looks like an escaped low surrogate. -/
theorem lowSurrogate?_text {es : List Element} (h : ∀ e ∈ es.head?, e.codeUnit? = none) :
    Escape.lowSurrogate? (text es) = none := by
  cases es with
  | nil => rfl
  | cons e es => exact lowSurrogate?_of_codeUnit?_eq_none (h e rfl) (text es)

/-- A run of code units is decoded together when none follows it. -/
theorem decode_run {run : List Element} {units : List Nat} {rest : List Char}
    (h : List.Forall₂ (fun e unit => e.codeUnit? = some unit) run units)
    (hrest : Escape.lowSurrogate? rest = none) :
    decode (text run ++ rest) = CodeUnit.decode units ++ decode rest := by
  induction units using CodeUnit.decode.induct generalizing run with
  | case1 =>
    cases h
    rfl
  | case2 unit =>
    cases h with
    | cons he hnil =>
      cases hnil
      have hlone := Escape.ofUnit_lone (codeUnit?_lt he) fun _ => hrest
      rw [text_cons, text_nil, List.append_nil, decode_codeUnit he, hlone]
      rfl
  | case3 high low units hpair ih =>
    cases h with
    | cons he hrun =>
      cases hrun with
      | @cons f _ run _ hf hrun =>
        have hboth := Bool.and_eq_true_iff.mp hpair
        have hnext := lowSurrogate?_codeUnit hf (text run ++ rest)
        rw [if_pos hboth.2] at hnext
        rw [text_cons, text_cons, List.append_assoc, List.append_assoc, decode_codeUnit he,
          Escape.ofUnit_pair hboth.1 hboth.2 hnext, CodeUnit.decode, if_pos hpair,
          Option.getD_some, ih hrun, List.cons_append]
  | case4 high low units hpair ih =>
    cases h with
    | @cons e _ run _ he hrun =>
      have hnext : CodeUnit.isHigh high = true →
          Escape.lowSurrogate? (text run ++ rest) = none := by
        intro hhigh
        cases hrun with
        | cons hf hrun =>
          rw [text_cons, List.append_assoc, lowSurrogate?_codeUnit hf, if_neg]
          exact fun hlow => hpair (Bool.and_eq_true_iff.mpr ⟨hhigh, hlow⟩)
      rw [text_cons, List.append_assoc, decode_codeUnit he,
        Escape.ofUnit_lone (codeUnit?_lt he) hnext, CodeUnit.decode, if_neg hpair,
        Option.getD_some, ih hrun, List.cons_append]

theorem forall₂_codeUnit? {run : List Element} (h : ∀ e ∈ run, e.isUnit = true) :
    List.Forall₂ (fun e unit => e.codeUnit? = some unit) run (run.filterMap codeUnit?) := by
  induction run with
  | nil => exact .nil
  | cons e run ih =>
    obtain ⟨unit, hunit⟩ := Option.isSome_iff_exists.mp (h e List.mem_cons_self)
    rw [List.filterMap_cons_some hunit]
    exact .cons hunit (ih fun f hf => h f (List.mem_cons_of_mem e hf))

/-- A run has nothing but code units in it, or it is one element that names none. -/
theorem run_cases {run : List Element} (hne : run ≠ [])
    (h : run.IsChain fun e f => (e.isUnit && f.isUnit) = true) :
    (∀ e ∈ run, e.isUnit = true) ∨ ∃ e, run = [e] ∧ e.codeUnit? = none := by
  induction run with
  | nil => exact (hne rfl).elim
  | cons e run ih =>
    cases run with
    | nil =>
      cases he : e.codeUnit? with
      | none => exact .inr ⟨e, rfl, he⟩
      | some unit => exact .inl (by simp [isUnit, he])
    | cons f run =>
      obtain ⟨hef, hchain⟩ := List.isChain_cons_cons.mp h
      have hboth := Bool.and_eq_true_iff.mp hef
      rcases ih (List.cons_ne_nil f run) hchain with hunits | ⟨g, hg, hnone⟩
      · left
        intro x hx
        rcases List.mem_cons.mp hx with rfl | hx
        · exact hboth.1
        · exact hunits x hx
      · obtain ⟨rfl, -⟩ := List.cons.inj hg
        simp [isUnit, hnone] at hboth

/-- No code unit follows a run of them. -/
theorem head?_flatten {run : List Element} {rs : List (List Element)} (hne : [] ∉ rs)
    (hunits : ∀ e ∈ run, e.isUnit = true)
    (hbetween : (run :: rs).IsChain fun run next =>
      ∃ hr hn, ((run.getLast hr).isUnit && (next.head hn).isUnit) = false) :
    ∀ e ∈ rs.flatten.head?, e.codeUnit? = none := by
  intro e he
  cases rs with
  | nil => cases he
  | cons next rs =>
    obtain ⟨hr, hn, hapart⟩ := (List.isChain_cons_cons.mp hbetween).1
    rw [hunits _ (List.getLast_mem hr), Bool.true_and] at hapart
    cases next with
    | nil => exact (hn rfl).elim
    | cons f next =>
      cases he
      simpa [isUnit] using hapart

/-- Runs are decoded one after the other. -/
theorem decode_runs {rs : List (List Element)} (hne : [] ∉ rs)
    (hinside : ∀ run ∈ rs, run.IsChain fun e f => (e.isUnit && f.isUnit) = true)
    (hbetween : rs.IsChain fun run next =>
      ∃ hr hn, ((run.getLast hr).isUnit && (next.head hn).isUnit) = false)
    (hspaced : Spaced rs.flatten) : decode (text rs.flatten) = rs.flatMap valueOfRun := by
  induction rs with
  | nil => exact decode_nil
  | cons run rs ih =>
    rw [List.mem_cons, not_or] at hne
    have htail := ih hne.2 (fun r hr => hinside r (List.mem_cons_of_mem run hr))
      hbetween.tail hspaced.right
    rw [List.flatten_cons, text_append, List.flatMap_cons]
    rcases run_cases (Ne.symm hne.1) (hinside run List.mem_cons_self) with hunits | ⟨e, rfl, hnone⟩
    · have hvalue : valueOfRun run = CodeUnit.decode (run.filterMap codeUnit?) :=
        if_pos (List.all_eq_true.mpr hunits)
      have hrest := lowSurrogate?_text (head?_flatten hne.2 hunits hbetween)
      rw [decode_run (forall₂_codeUnit? hunits) hrest, htail, hvalue]
    · have hvalue : valueOfRun [e] = e.alone := by simp [valueOfRun, isUnit, hnone]
      have hbefore : e.Before (text rs.flatten) := hspaced.1
      rw [text_cons, text_nil, List.append_nil, decode_element hnone hbefore, htail, hvalue]

theorem decode_text {es : List Element} (h : Spaced es) : decode (text es) = Element.value es := by
  obtain ⟨hflatten, hne, hinside, hbetween⟩ := List.splitBy_eq_iff.mp (rfl : runs es = runs es)
  rw [Element.value, ← decode_runs hne hinside hbetween (hflatten ▸ h), ← hflatten]

@[simp] theorem body_delimited (q : Char) (cs : List Char) : body (q :: (cs ++ [q])) = cs := by
  simp [body]

/-- A literal with any delimiter has the text that its body spells for its value, and leaving a body
without a backslash undecoded makes no difference. -/
theorem value_delimited (q : Char) (es : List Element) (h : Spaced es) :
    Literal.value (q :: (text es ++ [q])) = Element.value es ∧ ∀ cs, cook cs = decode cs := by
  constructor
  · rw [Literal.value, body_delimited, cook_eq_decode, decode_text h]
  · exact cook_eq_decode

/-- Two high surrogates before a low one, `\0` before an escape, and a continued carriage return. -/
theorem value_delimited_surrogates :
    let high : Element := .unit ⟨13, true⟩ ⟨8, false⟩ ⟨3, false⟩ ⟨13, false⟩
    let low : Element := .unit ⟨13, false⟩ ⟨14, true⟩ ⟨0, false⟩ ⟨0, false⟩
    let es : List Element := [high, high, low, .nul, .byte ⟨4, false⟩ ⟨1, false⟩, low,
      .continuation .cr, .self '"' (by decide), high]
    text es = "\\uD83d\\uD83d\\udE00\\0\\x41\\udE00\\\r\"\\uD83d".toList ∧ Spaced es ∧
      Literal.value ('"' :: (text es ++ ['"'])) =
        ['\uFFFD', Char.ofNat 0x1F600, '\x00', 'A', '\uFFFD', '"', '\uFFFD'] := by
  intro high low es
  have hspaced : Spaced es := by
    refine ⟨trivial, trivial, trivial, ?_, trivial, trivial, ?_, trivial, trivial, trivial⟩
    · rintro c ⟨⟩
      rfl
    · rintro ⟨⟩
  refine ⟨by decide, hspaced, ?_⟩
  rw [(value_delimited '"' es hspaced).1]
  decide

end Literal

end CursorCommand
