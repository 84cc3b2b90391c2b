import CursorCommand.Proofs.Json.Grammar

/-!
# Reading what the grammar writes

The reader gives the value that a text writes. Tokens are read one by one, so what is proved of a
part of a text is how the reader's state changes across it, whatever is open around that part.
-/
namespace CursorCommand

namespace Quoted

variable {cs : List Char} {ps : List Piece}

theorem short?_eq_some {letter c : Char} (h : (letter, c) ∈ shortEscapes) :
    short? letter = some c := by
  have hall : ∀ e ∈ shortEscapes, short? e.1 = some e.2 := by decide
  exact hall (letter, c) h

theorem unit?_char (w x y z : HexDigit) :
    unit? w.char x.char y.char z.char = some (HexDigit.number [w, x, y, z]) := by
  simp [unit?, HexDigit.digit?_char, HexDigit.number]

theorem read_short {letter c : Char} (h : (letter, c) ∈ shortEscapes) (cs : List Char) :
    read ('\\' :: letter :: cs) = (read cs).map (push (.char c)) := by
  have hshort := short?_eq_some h
  have hne : letter ≠ 'u' := by
    rintro rfl
    cases hshort
  rw [read]
  · rw [hshort]
  · intro _ _ _ _ _ heq
    exact absurd heq hne

theorem read_self {c : Char} (hc : 0x20 ≤ c.toNat) (hquote : c ≠ '"') (hslash : c ≠ '\\')
    (cs : List Char) : read (c :: cs) = (read cs).map (push (.char c)) := by
  rw [read]
  · rw [if_neg (Nat.not_lt.mpr hc)]
  · exact hquote
  · exact fun _ _ _ _ _ heq => absurd heq hslash
  · exact fun _ _ heq => absurd heq hslash
  · exact fun heq => absurd heq hslash

theorem read_of_writes (h : Writes cs ps) (rest : List Char) :
    read (cs ++ '"' :: rest) = some (ps, rest) := by
  induction h with
  | nil => rw [List.nil_append, read]
  | self hc hquote hslash _ ih =>
    rw [List.cons_append, read_self hc hquote hslash, ih]
    rfl
  | short hmem _ ih =>
    rw [List.cons_append, List.cons_append, read_short hmem, ih]
    rfl
  | unit w x y z _ ih =>
    simp only [List.cons_append, read, unit?_char, ih]
    rfl

theorem value?_unit {n : Nat} (h : CodeUnit.isHigh n = false) (ps : List Piece) :
    value? (.unit n :: ps) = (CodePoint.char? n).bind fun c => (value? ps).map (c :: ·) := by
  rcases ps with _ | ⟨c | low, ps⟩
  · simp [value?]
  · simp [value?]
  · rw [value?, if_neg (by simp [h])]

theorem value?_eq_some (h : Says ps cs) : value? ps = some cs := by
  induction h with
  | nil => rfl
  | char _ ih => rw [value?, ih]; rfl
  | @unit c ps cs hc _ ih =>
    have hhigh : CodeUnit.isHigh c.toNat = false :=
      (Bool.or_eq_false_iff.mp ((CodeUnit.valid_iff hc).mp c.valid)).1
    rw [value?_unit hhigh, CodePoint.char?_toNat, ih]
    rfl
  | @pair high low c ps cs hhigh hlow hpair _ ih =>
    rw [value?, if_pos hhigh, if_pos hlow, hpair, CodePoint.char?_toNat, ih]
    rfl

theorem text?_eq_some {s : String} (h : Says ps s.toList) : text? ps = some s := by
  rw [text?, value?_eq_some h, Option.map_some, String.ofList_toList]

end Quoted

namespace Numeral

/-- A text in front of which a number ends. -/
def EndsBefore (rest : List Char) : Prop :=
  ∀ c ∈ rest.head?, c.isDigit = false ∧ c ≠ '.' ∧ c ≠ 'e' ∧ c ≠ 'E'

variable {cs ds rest : List Char}

theorem Digits.exists_cons (h : Digits ds) : ∃ d ds', ds = d :: ds' ∧ d.isDigit = true := by
  obtain ⟨hne, hall⟩ := h
  obtain ⟨d, ds', rfl⟩ := List.exists_cons_of_ne_nil hne
  exact ⟨d, ds', rfl, hall d List.mem_cons_self⟩

theorem digits_append (hds : ∀ d ∈ ds, d.isDigit = true)
    (hrest : ∀ c ∈ rest.head?, c.isDigit = false) : digits (ds ++ rest) = (ds, rest) := by
  have hnone : digits rest = ([], rest) := by
    cases rest with
    | nil => rfl
    | cons c rest => simp [digits, hrest c rfl]
  obtain ⟨htake, hdrop⟩ := Prod.mk.inj hnone
  rw [digits, List.takeWhile_append_of_pos hds, List.dropWhile_append_of_pos hds, htake, hdrop,
    List.append_nil]

theorem readMinus_of_digit {c : Char} (hc : c.isDigit = true) (cs : List Char) :
    readMinus (c :: cs) = (false, c :: cs) := by
  rw [readMinus]
  intro _ heq
  obtain ⟨rfl, -⟩ := List.cons.inj heq
  cases hc

theorem readSign_of_writes {sign : List Char} {negative : Bool} (h : WritesSign sign negative)
    (hds : Digits ds) : readSign (sign ++ (ds ++ rest)) = (negative, ds ++ rest) := by
  cases h with
  | plus => rfl
  | minus => rfl
  | none =>
    obtain ⟨d, ds, rfl, hd⟩ := hds.exists_cons
    rw [List.nil_append, List.cons_append, readSign]
    all_goals
      intro _ heq
      obtain ⟨rfl, -⟩ := List.cons.inj heq
      cases hd

theorem readWhole_append (hds : Digits ds) (hzero : ds.head? = some '0' → ds = ['0'])
    (hrest : ∀ c ∈ rest.head?, c.isDigit = false) : readWhole (ds ++ rest) = some (ds, rest) := by
  rw [readWhole, digits_append hds.2 hrest]
  split
  · next heq => exact absurd (Prod.mk.inj heq).1 hds.1
  · next heq =>
    obtain ⟨rfl, -⟩ := Prod.mk.inj heq
    cases hzero rfl
  · next heq =>
    obtain ⟨rfl, rfl⟩ := Prod.mk.inj heq
    rfl

theorem readFraction_of_writes {fraction : List Char} (h : WritesFraction fraction ds)
    (hrest : ∀ c ∈ rest.head?, c.isDigit = false ∧ c ≠ '.') :
    readFraction (fraction ++ rest) = some (ds, rest) := by
  cases h with
  | none =>
    rw [List.nil_append, readFraction]
    rintro cs rfl
    exact (hrest '.' rfl).2 rfl
  | some hds =>
    rw [List.cons_append, readFraction, digits_append hds.2 fun c hc => (hrest c hc).1]
    obtain ⟨d, ds, rfl, -⟩ := hds.exists_cons
    rfl

theorem readExponent_of_writes {exponent : List Char} {e : Option Exponent}
    (h : WritesExponent exponent e) (hrest : EndsBefore rest) :
    readExponent (exponent ++ rest) = some (e, rest) := by
  cases h with
  | none =>
    cases rest with
    | nil => rfl
    | cons c rest =>
      obtain ⟨-, -, he, hE⟩ := hrest c rfl
      rw [List.nil_append, readExponent, if_neg (by simp [he, hE])]
  | some hmark hsign hds =>
    rw [List.cons_append, List.append_assoc, readExponent, if_pos hmark,
      readSign_of_writes hsign hds, digits_append hds.2 fun c hc => (hrest c hc).1]
    obtain ⟨d, ds, rfl, -⟩ := hds.exists_cons
    rfl

theorem WritesExponent.head {exponent : List Char} {e : Option Exponent}
    (h : WritesExponent exponent e) (hrest : EndsBefore rest) :
    ∀ c ∈ (exponent ++ rest).head?, c.isDigit = false ∧ c ≠ '.' := by
  cases h with
  | none => exact fun c hc => ⟨(hrest c hc).1, (hrest c hc).2.1⟩
  | some hmark _ _ =>
    intro c hc
    cases hc
    rcases hmark with rfl | rfl <;> decide

theorem WritesFraction.head {fraction : List Char} (h : WritesFraction fraction ds)
    (hrest : ∀ c ∈ rest.head?, c.isDigit = false) :
    ∀ c ∈ (fraction ++ rest).head?, c.isDigit = false := by
  cases h with
  | none => exact hrest
  | some _ =>
    intro c hc
    cases hc
    decide

/-- A number starts with a minus or a digit, and what ends it does not belong to it. -/
theorem read_of_writes {n : Numeral} (h : Writes cs n) (hrest : EndsBefore rest) :
    read (cs ++ rest) = some (n, rest) := by
  obtain @⟨negative, whole, fraction, exponent, ds, e, hwhole, hzero, hfraction, hexponent⟩ := h
  have hminus : readMinus ((if negative then ['-'] else []) ++
      (whole ++ (fraction ++ (exponent ++ rest)))) =
      (negative, whole ++ (fraction ++ (exponent ++ rest))) := by
    cases negative with
    | true => rfl
    | false =>
      obtain ⟨d, whole, rfl, hd⟩ := hwhole.exists_cons
      exact readMinus_of_digit hd _
  have hhead := hexponent.head hrest
  simp only [read, List.append_assoc, hminus]
  rw [readWhole_append hwhole hzero (hfraction.head fun c hc => (hhead c hc).1)]
  simp only [Option.bind_eq_bind, Option.bind_some]
  rw [readFraction_of_writes hfraction hhead]
  simp only [Option.bind_some]
  rw [readExponent_of_writes hexponent hrest]
  rfl

theorem Writes.exists_cons {n : Numeral} (h : Writes cs n) :
    ∃ c ds, cs = c :: ds ∧ (c = '-' ∨ c.isDigit = true) := by
  obtain @⟨negative, whole, fraction, exponent, ds, e, hwhole, -, -, -⟩ := h
  cases negative with
  | true => exact ⟨'-', _, rfl, .inl rfl⟩
  | false =>
    obtain ⟨d, whole, rfl, hd⟩ := hwhole.exists_cons
    exact ⟨d, _, rfl, .inr hd⟩

end Numeral

namespace Token

variable {c : Char} {cs rest : List Char} {t : Token}

theorem not_isBlank_of_isDigit (h : c = '-' ∨ c.isDigit = true) : isBlank c = false := by
  by_contra hblank
  simp only [isBlank, Bool.not_eq_false, Bool.or_eq_true, beq_iff_eq] at hblank
  rcases h with rfl | h
  · revert hblank
    decide
  · rcases hblank with ((rfl | rfl) | rfl) | rfl <;> cases h

/-- No other token starts as a number does. -/
theorem read_number {n : Numeral} (hc : c = '-' ∨ c.isDigit = true)
    (h : Numeral.read (c :: cs) = some (n, rest)) : read (c :: cs) = some (.number n, rest) := by
  rw [read]
  · rw [h, Option.map_some]
  all_goals
    intro _ heq
    obtain ⟨rfl, -⟩ := List.cons.inj heq
    rcases hc with hc | hc <;> cases hc

theorem read_string {ps : List Quoted.Piece} (h : Quoted.Writes cs ps) (rest : List Char) :
    read ('"' :: (cs ++ '"' :: rest)) = some (.string ps, rest) := by
  rw [read, Quoted.read_of_writes h, Option.map_some]

theorem next?_blank {bs : List Char} (hbs : Form.Blank bs) (cs : List Char) :
    next? (bs ++ cs) = next? cs := by
  rw [next?, next?, List.dropWhile_append_of_pos hbs]

theorem next?_cons (hc : isBlank c = false) (h : read (c :: cs) = some (t, rest)) :
    next? (c :: cs) = some (some (t, rest)) := by
  rw [next?, List.dropWhile_cons_of_neg (by simp [hc])]
  simp only [h, Option.map_some]

theorem readAll_eq (cs : List Char) :
    readAll cs = (next? cs).bind fun first =>
      match first with
      | none => some []
      | some (t, rest) => (readAll rest).map (t :: ·) := by
  conv =>
    lhs
    rw [readAll]
  split
  all_goals
    next heq => simp [heq]

theorem readAll_nil : readAll [] = some [] := by
  rw [readAll_eq]
  rfl

theorem readAll_blank {bs : List Char} (hbs : Form.Blank bs) (cs : List Char) :
    readAll (bs ++ cs) = readAll cs := by
  rw [readAll_eq, next?_blank hbs, ← readAll_eq]

theorem readAll_cons (hc : isBlank c = false) (h : read (c :: cs) = some (t, rest)) :
    readAll (c :: cs) = (readAll rest).map (t :: ·) := by
  rw [readAll_eq, next?_cons hc h, Option.bind_some]

end Token

namespace Form

namespace State

/-- The state of a reader that has gone through a text. -/
def readFrom (s : State) (text : List Char) : Option State := (Token.readAll text).bind s.run

variable {s : State} {stack : List Frame} {cs rest : List Char}

theorem readFrom_blank {bs : List Char} (hbs : Blank bs) (s : State) (cs : List Char) :
    s.readFrom (bs ++ cs) = s.readFrom cs := by
  rw [readFrom, readFrom, Token.readAll_blank hbs]

theorem readFrom_token {s' : State} {c : Char} {t : Token} (hc : Token.isBlank c = false)
    (h : Token.read (c :: cs) = some (t, rest)) (hstep : s.step t = some s') :
    s.readFrom (c :: cs) = s'.readFrom rest := by
  rw [readFrom, readFrom, Token.readAll_cons hc h]
  cases Token.readAll rest with
  | none => rfl
  | some ts => simp [run, hstep]

/-- A value comes next, inside `stack`. -/
def Awaits (s : State) (stack : List Frame) : Prop :=
  ∀ t, t ≠ .closeArray → s.step t = begin stack t

/-- A member comes next, behind others of the object. -/
def AwaitsMember (s : State) (before : List (List Quoted.Piece × Form)) (stack : List Frame) :
    Prop :=
  ∀ key, s.step (.string key) = some ⟨.colon before key, stack⟩

theorem awaits_value (stack : List Frame) : Awaits ⟨.value, stack⟩ stack := fun _ _ => rfl

theorem awaits_element (stack : List Frame) : Awaits ⟨.element, stack⟩ (.array [] :: stack) := by
  intro t ht
  cases t with
  | closeArray => exact absurd rfl ht
  | _ => rfl

theorem awaitsMember_first (stack : List Frame) : AwaitsMember ⟨.member, stack⟩ [] stack :=
  fun _ => rfl

theorem awaitsMember_key (before : List (List Quoted.Piece × Form)) (stack : List Frame) :
    AwaitsMember ⟨.key before, stack⟩ before stack :=
  fun _ => rfl

/-- What reading a part of a text does. Values and members end in front of `rest`. -/
def Takes (cs : List Char) : Phrase → Prop
  | .value v => ∀ {s : State} {stack : List Frame} {rest : List Char}, s.Awaits stack →
      Numeral.EndsBefore rest →
      s.readFrom (cs ++ rest) = State.readFrom ⟨.separator v, stack⟩ rest
  | .elements es => ∀ (v : Form) (before : List Form) (stack : List Frame) (rest : List Char),
      State.readFrom ⟨.separator v, .array before :: stack⟩ (cs ++ rest) =
        State.readFrom ⟨.separator (.array (before.reverse ++ v :: es)), stack⟩ rest
  | .member key v => ∀ {s : State} {before : List (List Quoted.Piece × Form)}
      {stack : List Frame} {rest : List Char}, s.AwaitsMember before stack →
      Numeral.EndsBefore rest →
      s.readFrom (cs ++ rest) = State.readFrom ⟨.separator v, .object before key :: stack⟩ rest
  | .members ms => ∀ (key : List Quoted.Piece) (v : Form)
      (before : List (List Quoted.Piece × Form)) (stack : List Frame) (rest : List Char),
      State.readFrom ⟨.separator v, .object before key :: stack⟩ (cs ++ rest) =
        State.readFrom ⟨.separator (.object (before.reverse ++ (key, v) :: ms)), stack⟩ rest

end State

/-- Blanks end a number. -/
theorem Blank.endsBefore {bs cs : List Char} (hbs : Blank bs) (hcs : Numeral.EndsBefore cs) :
    Numeral.EndsBefore (bs ++ cs) := by
  cases bs with
  | nil => exact hcs
  | cons b bs =>
    intro c hc
    cases hc
    have hblank := hbs b List.mem_cons_self
    simp only [Token.isBlank, Bool.or_eq_true, beq_iff_eq] at hblank
    rcases hblank with ((rfl | rfl) | rfl) | rfl <;> decide

theorem endsBefore_cons {c : Char} (hc : c ∈ [',', ']', '\x7d']) (cs : List Char) :
    Numeral.EndsBefore (c :: cs) := by
  intro d hd
  cases hd
  simp only [List.mem_cons, List.not_mem_nil, or_false] at hc
  rcases hc with rfl | rfl | rfl <;> decide

/-- A comma or an end stands in front of what follows an element. -/
theorem Writes.elements_endsBefore {cs : List Char} {es : List Form} (h : Writes cs (.elements es))
    (rest : List Char) : Numeral.EndsBefore (cs ++ rest) := by
  cases h with
  | lastElement hbs =>
    rw [List.append_assoc]
    exact hbs.endsBefore (endsBefore_cons (by simp) _)
  | element hbs _ _ _ =>
    rw [List.append_assoc]
    exact hbs.endsBefore (endsBefore_cons (by simp) _)

theorem Writes.members_endsBefore {cs : List Char} {ms : List (List Quoted.Piece × Form)}
    (h : Writes cs (.members ms)) (rest : List Char) : Numeral.EndsBefore (cs ++ rest) := by
  cases h with
  | lastMember hbs =>
    rw [List.append_assoc]
    exact hbs.endsBefore (endsBefore_cons (by simp) _)
  | nextMember hbs _ _ _ =>
    rw [List.append_assoc]
    exact hbs.endsBefore (endsBefore_cons (by simp) _)

/-- Every part of a text is read as what it writes. -/
theorem Writes.takes {cs : List Char} {p : Phrase} (h : Writes cs p) : State.Takes cs p := by
  -- A part is read alike inside all frames, so the elements of an array may follow in frames that
  -- hold the ones in front of them.
  induction h with
  | null =>
    intro s stack rest hs _
    exact State.readFrom_token rfl rfl (hs _ nofun)
  | true =>
    intro s stack rest hs _
    exact State.readFrom_token rfl rfl (hs _ nofun)
  | false =>
    intro s stack rest hs _
    exact State.readFrom_token rfl rfl (hs _ nofun)
  | number hn =>
    intro s stack rest hs hrest
    obtain ⟨c, ds, rfl, hc⟩ := hn.exists_cons
    exact State.readFrom_token (Token.not_isBlank_of_isDigit hc)
      (Token.read_number hc (Numeral.read_of_writes hn hrest)) (hs _ nofun)
  | string hps =>
    intro s stack rest hs _
    rw [List.cons_append, List.append_assoc, List.singleton_append]
    exact State.readFrom_token rfl (Token.read_string hps rest) (hs _ nofun)
  | emptyArray hbs =>
    intro s stack rest hs _
    rw [List.cons_append, List.append_assoc, State.readFrom_token rfl rfl (hs .openArray nofun),
      State.readFrom_blank hbs]
    exact State.readFrom_token rfl rfl rfl
  | array hbs _ hds ihe ihes =>
    intro s stack rest hs _
    simp only [List.cons_append, List.append_assoc]
    rw [State.readFrom_token rfl rfl (hs .openArray nofun), State.readFrom_blank hbs,
      ihe (State.awaits_element stack) (hds.elements_endsBefore rest), ihes]
    rfl
  | emptyObject hbs =>
    intro s stack rest hs _
    rw [List.cons_append, List.append_assoc, State.readFrom_token rfl rfl (hs .openObject nofun),
      State.readFrom_blank hbs]
    exact State.readFrom_token rfl rfl rfl
  | object hbs _ hds ihm ihms =>
    intro s stack rest hs _
    simp only [List.cons_append, List.append_assoc]
    rw [State.readFrom_token rfl rfl (hs .openObject nofun), State.readFrom_blank hbs,
      ihm (State.awaitsMember_first stack) (hds.members_endsBefore rest), ihms]
    rfl
  | lastElement hbs =>
    intro v before stack rest
    rw [List.append_assoc, State.readFrom_blank hbs]
    refine State.readFrom_token rfl rfl ?_
    rw [← List.reverse_cons]
    rfl
  | element hbs hbs' _ hds ihe ihes =>
    intro v before stack rest
    simp only [List.cons_append, List.append_assoc]
    rw [State.readFrom_blank hbs, State.readFrom_token rfl rfl rfl, State.readFrom_blank hbs',
      ihe (State.awaits_value _) (hds.elements_endsBefore rest), ihes, List.reverse_cons,
      List.append_assoc, List.singleton_append]
  | member hkey hbs hbs' _ ihv =>
    intro s before stack rest hs hrest
    simp only [List.cons_append, List.append_assoc]
    rw [State.readFrom_token rfl (Token.read_string hkey _) (hs _), State.readFrom_blank hbs,
      State.readFrom_token rfl rfl rfl, State.readFrom_blank hbs',
      ihv (State.awaits_value _) hrest]
  | lastMember hbs =>
    intro key v before stack rest
    rw [List.append_assoc, State.readFrom_blank hbs]
    refine State.readFrom_token rfl rfl ?_
    rw [← List.reverse_cons]
    rfl
  | nextMember hbs hbs' _ hds ihm ihms =>
    intro key v before stack rest
    simp only [List.cons_append, List.append_assoc]
    rw [State.readFrom_blank hbs, State.readFrom_token rfl rfl rfl, State.readFrom_blank hbs',
      ihm (State.awaitsMember_key _ stack) (hds.members_endsBefore rest), ihms, List.reverse_cons,
      List.append_assoc, List.singleton_append]

theorem State.readFrom_nil (s : State) : s.readFrom [] = some s := by
  rw [readFrom, Token.readAll_nil]
  rfl

theorem endsBefore_nil : Numeral.EndsBefore [] := nofun

/-- A text is read as the value that it writes. -/
theorem WritesText.read?_eq {text : List Char} {v : Form} (h : WritesText text v) :
    read? text = some v := by
  obtain @⟨bs, cs, bs', v, hbs, hcs, hbs'⟩ := h
  have hread : State.initial.readFrom (bs ++ (cs ++ bs')) = some ⟨.separator v, []⟩ := by
    have hends : Numeral.EndsBefore (bs' ++ []) := hbs'.endsBefore endsBefore_nil
    calc State.initial.readFrom (bs ++ (cs ++ bs'))
      _ = State.initial.readFrom (cs ++ (bs' ++ [])) := by
        rw [State.readFrom_blank hbs, List.append_nil]
      _ = State.readFrom ⟨.separator v, []⟩ (bs' ++ []) := hcs.takes (State.awaits_value []) hends
      _ = State.readFrom ⟨.separator v, []⟩ [] := State.readFrom_blank hbs' _ _
      _ = some ⟨.separator v, []⟩ := State.readFrom_nil _
  calc read? (bs ++ (cs ++ bs'))
    _ = (State.initial.readFrom (bs ++ (cs ++ bs'))).bind State.result? :=
      (Option.bind_assoc _ _ _).symm
    _ = some v := by rw [hread]; rfl

end Form

end CursorCommand
