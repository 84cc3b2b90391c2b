import CursorCommand.Proofs.Sample.Line
import CursorCommand.Proofs.Sample.Title

/-!
# The lines of a sample

A sample is written in four kinds of lines: those that open a suite or a test, those that close
one, and idle ones. None of them has a line break in it, so the text of a sample splits into them
again, and their number is told from those of the sample.
-/
namespace CursorCommand

namespace Sample

open CodeLine

/-- A call with a function that stays open. -/
def opener (level : Nat) (callee : String) (title : List Char) : CodeLine :=
  CodeLine.indent (2 * level)
    (callee.toList ++ '(' :: '"' :: (title ++ "\", () => \x7b".toList))

def suiteLine (level : Nat) (address : List Nat) : CodeLine :=
  opener level "describe" (suiteTitle address)

def testLine (level : Nat) (address : List Nat) (i : Nat) : CodeLine :=
  opener level (turn callees i) (testTitle address i)

def closer (level : Nat) : CodeLine := CodeLine.indent (2 * level) "\x7d);".toList

/-- The statements of a test. -/
def statements (s : Sample) (level : Nat) : List CodeLine :=
  (List.range s.extraLines).map (fun i => (valueLine level i).toList) ++
    [CodeLine.indent (2 * level) "expect(value).toBeDefined();".toList]

def testCode (s : Sample) (level : Nat) (address : List Nat) (i : Nat) : List CodeLine :=
  testLine level address i :: s.statements (level + 1) ++ [closer level]

def testsCode (s : Sample) (level : Nat) (address : List Nat) : List CodeLine :=
  (List.range s.tests).flatMap (s.testCode level address)

/-- So many suites inside each other. -/
def chainCode (s : Sample) (level : Nat) (address : List Nat) : Nat → List CodeLine
  | 0 => []
  | n + 1 =>
    suiteLine level address ::
      (s.testsCode (level + 1) address ++ chainCode s (level + 1) (address ++ [0]) n) ++
        [closer level]

def importLine : CodeLine := "import \x7b compute \x7d from \"./compute\";".toList

def code (s : Sample) : List CodeLine :=
  [importLine, []] ++
    (List.range s.suites).flatMap fun i => s.chainCode 0 [i] (s.depth - 1 + 1) ++ [[]]

theorem toList_indent (level : Nat) :
    (Sample.indent level).toList = List.replicate (2 * level) ' ' := by
  rw [Sample.indent, String.toList_ofList]

theorem toList_openLine (level : Nat) (callee name : String) :
    (openLine level callee name).toList = opener level callee name.toList := by
  simp [openLine, toList_indent, opener, CodeLine.indent]

theorem toList_closeLine (level : Nat) : (closeLine level).toList = closer level := by
  simp [closeLine, toList_indent, closer, CodeLine.indent]

theorem toList_valueLine (level i : Nat) :
    (valueLine level i).toList =
      CodeLine.indent (2 * level) ("const value_".toList ++ (Nat.toDigits 10 i ++
        (" = compute(".toList ++ (Nat.toDigits 10 i ++ ");".toList)))) := by
  simp [valueLine, toList_indent, CodeLine.indent]

section

variable {path : String} {address : List Nat}

theorem toList_testLine (level i : Nat) (hne : address ≠ [])
    (hpath : path.toList = dotted address) :
    (openLine level (turn callees i)
      ("case " ++ path ++ "." ++ toString i ++ turn decorations i)).toList =
        testLine level address i := by
  rw [toList_openLine, testLine, testTitle_eq, dotted_append_singleton hne, ← hpath]
  simp

theorem map_testLines (s : Sample) (level : Nat) (hne : address ≠ [])
    (hpath : path.toList = dotted address) :
    ((List.range s.tests).flatMap (s.testLines level path)).map String.toList =
      s.testsCode level address := by
  rw [List.map_flatMap, testsCode]
  refine congrArg (List.range s.tests).flatMap (funext fun i => ?_)
  rw [testLines, testCode, List.map_append, List.map_cons, toList_testLine level i hne hpath]
  simp [statements, toList_closeLine, toList_indent, CodeLine.indent]

theorem map_suiteLines (s : Sample) (level nested : Nat) (hne : address ≠ [])
    (hpath : path.toList = dotted address) :
    (s.suiteLines level path nested).map String.toList =
      s.chainCode level address (nested + 1) := by
  have hopen (level : Nat) (path : String) :
      (openLine level "describe" ("suite " ++ path)).toList =
        opener level "describe" ("suite ".toList ++ path.toList) := by
    rw [toList_openLine, String.toList_append]
  induction nested generalizing level path address with
  | zero =>
    simp [suiteLines, chainCode, hopen, map_testLines s (level + 1) hne hpath, toList_closeLine,
      suiteLine, suiteTitle_eq, hpath]
  | succ nested ih =>
    have hinner : (path ++ ".0").toList = dotted (address ++ [0]) := by
      rw [dotted_append_singleton hne, String.toList_append, hpath]
      rfl
    rw [suiteLines, chainCode, List.map_append, List.map_append, List.map_cons, hopen,
      map_testLines s (level + 1) hne hpath, ih (level + 1) (by simp) hinner, hpath]
    simp [suiteLine, suiteTitle_eq, toList_closeLine]

theorem map_lines (s : Sample) : s.lines.map String.toList = s.code := by
  rw [lines, code, List.map_append, List.map_flatMap]
  congr 2
  funext i
  have hpath : (toString i).toList = dotted [i] := by
    rw [dotted_singleton, Nat.toString_eq_repr, Nat.toList_repr]
  rw [List.map_append, map_suiteLines s 0 (s.depth - 1) (List.cons_ne_nil i []) hpath]
  rfl

end

/-! ### What each line is -/

/-- What blocks are called with. -/
def blockCallees : List String := "describe" :: callees

theorem describe_mem : "describe" ∈ blockCallees := List.mem_cons_self

theorem turn_callees_mem (i : Nat) : turn callees i ∈ blockCallees :=
  List.mem_cons_of_mem _ (turn_mem (by decide) i)

section

variable {callee : String} (h : callee ∈ blockCallees)

include h

theorem head?_callee (cs : List Char) : (callee.toList ++ cs).head? ≠ some ' ' := by
  have hall : ∀ k ∈ blockCallees, k.toList ≠ [] ∧ k.toList.head? ≠ some ' ' := by decide
  rw [List.head?_append_of_ne_nil _ (hall callee h).1]
  exact (hall callee h).2

theorem unindented_opener (level : Nat) (title : List Char) :
    (opener level callee title).unindented =
      callee.toList ++ '(' :: '"' :: (title ++ "\", () => \x7b".toList) :=
  unindented_indent _ (head?_callee h _)

theorem indentation_opener (level : Nat) (title : List Char) :
    (opener level callee title).indentation = 2 * level :=
  indentation_indent _ (head?_callee h _)

theorem quoted_opener (level : Nat) {title : List Char} (htitle : '"' ∉ title) :
    (opener level callee title).quoted = title := by
  have hcallee : ∀ k ∈ blockCallees, '"' ∉ k.toList := by decide
  have hfront : ∀ c ∈ List.replicate (2 * level) ' ' ++ (callee.toList ++ ['(']),
      (c != '"') = true := by
    intro c hc
    apply bne_iff_ne.mpr
    rintro rfl
    simp [hcallee callee h] at hc
  have hinside : ∀ c ∈ title, (c != '"') = true := by
    intro c hc
    exact bne_iff_ne.mpr fun heq => htitle (heq ▸ hc)
  have heq : opener level callee title =
      List.replicate (2 * level) ' ' ++ (callee.toList ++ ['(']) ++
        '"' :: (title ++ "\", () => \x7b".toList) := by
    simp [opener, CodeLine.indent]
  rw [quoted, heq, List.dropWhile_append_of_pos hfront, List.dropWhile_cons_of_neg (by decide),
    List.tail_cons, List.takeWhile_append_of_pos hinside]
  simp

theorem newline_not_mem_opener (level : Nat) {title : List Char} (htitle : '\n' ∉ title) :
    '\n' ∉ opener level callee title := by
  have hcallee : ∀ k ∈ blockCallees, '\n' ∉ k.toList := by decide
  simp [opener, CodeLine.indent, hcallee callee h, htitle]

end

theorem opens_opener (level : Nat) (callee : String) (title : List Char) :
    (opener level callee title).Opens := by
  refine ⟨List.replicate (2 * level) ' ' ++
    (callee.toList ++ '(' :: '"' :: (title ++ "\", ".toList)), ?_⟩
  simp [opener, CodeLine.indent]

theorem indentation_closer (level : Nat) : (closer level).indentation = 2 * level :=
  indentation_indent _ (by decide)

theorem closes_closer (level : Nat) : (closer level).Closes :=
  unindented_indent _ (by decide)

theorem not_startsBlock_closer (level : Nat) : ¬ (closer level).StartsBlock :=
  (closes_closer level).not_startsBlock

theorem unindented_suiteLine (level : Nat) (address : List Nat) :
    (suiteLine level address).unindented =
      "describe(\"suite ".toList ++ (dotted address ++ "\", () => \x7b".toList) := by
  rw [suiteLine, unindented_opener describe_mem, suiteTitle_eq]
  simp

theorem unindented_testLine (level : Nat) (address : List Nat) (i : Nat) :
    (testLine level address i).unindented =
      (turn callees i ++ "(\"case ").toList ++ (dotted (address ++ [i]) ++
        ((turn decorations i).toList ++ "\", () => \x7b".toList)) := by
  rw [testLine, unindented_opener (turn_callees_mem i), testTitle_eq]
  simp

theorem startsSuite_suiteLine (level : Nat) (address : List Nat) :
    (suiteLine level address).StartsSuite := by
  rw [StartsSuite, unindented_suiteLine]
  exact List.prefix_append _ _

theorem startsTest_testLine (level : Nat) (address : List Nat) (i : Nat) :
    (testLine level address i).StartsTest := by
  refine ⟨turn callees i, turn_mem (by decide) i, ?_⟩
  rw [unindented_testLine]
  exact List.prefix_append _ _

theorem idle_statements (s : Sample) (level : Nat) : ∀ l ∈ s.statements level, l.Idle := by
  intro l hl
  rcases List.mem_append.mp hl with hl | hl
  · obtain ⟨i, -, rfl⟩ := List.mem_map.mp hl
    rw [toList_valueLine]
    refine idle_indent _ rfl (by decide) ?_
    simp only [List.getLast?_append]
    rfl
  · rw [List.mem_singleton.mp hl]
    exact idle_indent _ rfl (by decide) rfl

theorem idle_blank : CodeLine.Idle [] := by
  constructor <;> decide

theorem idle_head : ∀ l ∈ [importLine, []], l.Idle := by
  have himport : importLine.Idle := by constructor <;> decide
  exact List.forall_mem_cons.mpr ⟨himport, List.forall_mem_singleton.mpr idle_blank⟩

theorem quoted_suiteLine (level : Nat) (address : List Nat) :
    (suiteLine level address).quoted = suiteTitle address :=
  quoted_opener describe_mem level (not_mem_suiteTitle (by decide) (by decide) (by decide) address)

theorem quoted_testLine (level : Nat) (address : List Nat) (i : Nat) :
    (testLine level address i).quoted = testTitle address i :=
  quoted_opener (turn_callees_mem i) level
    (not_mem_testTitle (by decide) (by decide) (by decide) (by decide) address i)

/-- The kinds of lines in a sample. -/
inductive Written : CodeLine → Prop
  | suite (level : Nat) (address : List Nat) : Written (suiteLine level address)
  | test (level : Nat) (address : List Nat) (i : Nat) : Written (testLine level address i)
  | closer (level : Nat) : Written (closer level)
  | idle {l : CodeLine} : l.Idle → '\n' ∉ l → Written l

theorem written_statements (s : Sample) (level : Nat) : ∀ l ∈ s.statements level, Written l := by
  intro l hl
  refine .idle (s.idle_statements level l hl) ?_
  rcases List.mem_append.mp hl with hl | hl
  · obtain ⟨i, -, rfl⟩ := List.mem_map.mp hl
    have hnumber : '\n' ∉ Nat.toDigits 10 i := not_mem_toDigits (by decide)
    simp [toList_valueLine, CodeLine.indent, hnumber]
  · rw [List.mem_singleton.mp hl]
    simp [CodeLine.indent]

theorem written_testsCode (s : Sample) (level : Nat) (address : List Nat) :
    ∀ l ∈ s.testsCode level address, Written l := by
  intro l hl
  obtain ⟨i, -, hl⟩ := List.mem_flatMap.mp hl
  rw [testCode, List.cons_append, List.mem_cons, List.mem_append, List.mem_singleton] at hl
  rcases hl with rfl | hl | rfl
  · exact .test level address i
  · exact s.written_statements (level + 1) l hl
  · exact .closer level

theorem written_chainCode (s : Sample) (level : Nat) (address : List Nat) (n : Nat) :
    ∀ l ∈ s.chainCode level address n, Written l := by
  induction n generalizing level address with
  | zero => exact List.forall_mem_nil _
  | succ n ih =>
    intro l hl
    rw [chainCode, List.cons_append, List.mem_cons, List.mem_append, List.mem_append,
      List.mem_singleton] at hl
    rcases hl with rfl | (hl | hl) | rfl
    · exact .suite level address
    · exact s.written_testsCode (level + 1) address l hl
    · exact ih (level + 1) (address ++ [0]) l hl
    · exact .closer level

theorem written_code (s : Sample) : ∀ l ∈ s.code, Written l := by
  intro l hl
  rw [code, List.mem_append, List.mem_flatMap] at hl
  rcases hl with hl | ⟨i, -, hl⟩
  · have hnewline : ∀ l ∈ [importLine, []], '\n' ∉ l := by decide
    exact .idle (idle_head l hl) (hnewline l hl)
  · rcases List.mem_append.mp hl with hl | hl
    · exact s.written_chainCode 0 [i] _ l hl
    · exact List.mem_singleton.mp hl ▸ .idle idle_blank List.not_mem_nil

theorem Written.newline_not_mem {l : CodeLine} (h : Written l) : '\n' ∉ l := by
  cases h with
  | suite level address =>
    exact newline_not_mem_opener describe_mem level
      (not_mem_suiteTitle (by decide) (by decide) (by decide) address)
  | test level address i =>
    exact newline_not_mem_opener (turn_callees_mem i) level
      (not_mem_testTitle (by decide) (by decide) (by decide) (by decide) address i)
  | closer level => simp [Sample.closer, CodeLine.indent]
  | idle _ hnewline => exact hnewline

/-- Blocks start where functions are left open. -/
theorem Written.opens_iff {l : CodeLine} (h : Written l) : l.Opens ↔ l.StartsBlock := by
  cases h with
  | suite level address =>
    exact iff_of_true (opens_opener _ _ _) (.inl (startsSuite_suiteLine level address))
  | test level address i =>
    exact iff_of_true (opens_opener _ _ _) (.inr (startsTest_testLine level address i))
  | closer level =>
    exact iff_of_false (fun h => h.not_closes (closes_closer level)) (not_startsBlock_closer level)
  | idle hidle _ => exact iff_of_false hidle.not_opens hidle.not_startsBlock

/-! ### The text -/

theorem flatMap_newline (ls : List CodeLine) :
    ls.flatMap (· ++ ['\n']) = ['\n'].intercalate (ls ++ [[]]) := by
  induction ls with
  | nil => rfl
  | cons l ls ih =>
    rw [List.flatMap_cons, ih]
    cases ls <;> simp [List.intercalate_cons_cons]

/-- The text of a sample splits into its lines and the nothing behind the last of them. -/
theorem ofText_text (s : Sample) : ofText s.text = s.code ++ [[]] := by
  have htext : s.text.toList = ['\n'].intercalate (s.code ++ [[]]) := by
    rw [← flatMap_newline, ← map_lines, text, String.toList_join, List.flatMap_map,
      List.flatMap_map]
    simp
  rw [ofText, htext]
  apply List.splitOn_intercalate
  · intro l hl
    rcases List.mem_append.mp hl with hl | hl
    · exact (s.written_code l hl).newline_not_mem
    · exact List.mem_singleton.mp hl ▸ List.not_mem_nil
  · simp

theorem length_testsCode (s : Sample) (level : Nat) (address : List Nat) :
    (s.testsCode level address).length = s.tests * (3 + s.extraLines) := by
  have htest (i : Nat) : (s.testCode level address i).length = 3 + s.extraLines := by
    simp only [testCode, statements, List.length_append, List.length_cons, List.length_nil,
      List.length_map, List.length_range]
    omega
  simp [testsCode, htest]

theorem length_chainCode (s : Sample) (level : Nat) (address : List Nat) (n : Nat) :
    (s.chainCode level address n).length = n * (2 + s.tests * (3 + s.extraLines)) := by
  induction n generalizing level address with
  | zero => rw [chainCode, List.length_nil, Nat.zero_mul]
  | succ n ih =>
    rw [chainCode, List.length_append, List.length_cons, List.length_append, length_testsCode, ih,
      List.length_singleton, Nat.succ_mul]
    omega

theorem length_code (s : Sample) : s.code.length =
    2 + s.suites * (1 + (s.depth - 1 + 1) * (2 + s.tests * (3 + s.extraLines))) := by
  have hsuites : ((List.range s.suites).flatMap fun i =>
      s.chainCode 0 [i] (s.depth - 1 + 1) ++ [[]]).length =
        s.suites * (1 + (s.depth - 1 + 1) * (2 + s.tests * (3 + s.extraLines))) := by
    simp [length_chainCode, Nat.add_comm 1]
  rw [code, List.length_append, hsuites]
  rfl

end Sample

end CursorCommand
