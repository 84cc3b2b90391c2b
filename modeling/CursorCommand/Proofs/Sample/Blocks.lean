import CursorCommand.Proofs.Sample.Code

/-!
# The blocks of a sample

The suites and tests that start in the lines of a sample are named by its addresses, in their
order. So they can be counted: there are as many as announced, unless the depth is zero, for which
every suite at the top level is written all the same.
-/
namespace CursorCommand

namespace Sample

open CodeLine

section

variable {p : CodeLine → Prop} [DecidablePred p]

/-- Lines at which no block starts name nothing. -/
theorem names_eq_nil_of_not_startsBlock (hp : ∀ l, p l → l.StartsBlock) {ls : List CodeLine}
    (h : ∀ l ∈ ls, ¬ l.StartsBlock) : names p ls = [] :=
  names_eq_nil fun l hl hpl => h l hl (hp l hpl)

theorem names_blank (hp : ∀ l, p l → l.StartsBlock) : names p [[]] = [] :=
  names_eq_nil_of_not_startsBlock hp (List.forall_mem_singleton.mpr idle_blank.not_startsBlock)

theorem names_text (hp : ∀ l, p l → l.StartsBlock) (s : Sample) :
    names p (ofText s.text) = names p s.code := by
  rw [ofText_text, names_append, names_blank hp, List.append_nil]

variable (hp : ∀ l, p l → l.StartsBlock) {ofSuite : List Nat → List (List Char)}
  {ofTest : List Nat → Nat → List (List Char)}
  (hsuite : ∀ level a, names p [suiteLine level a] = ofSuite a)
  (htest : ∀ level a i, names p [testLine level a i] = ofTest a i)

include hp htest

theorem names_testsCode (s : Sample) (level : Nat) (address : List Nat) :
    names p (s.testsCode level address) = (List.range s.tests).flatMap (ofTest address) := by
  rw [testsCode, names_flatMap]
  congr 1
  funext i
  have hrest : ∀ l ∈ s.statements (level + 1) ++ [closer level], ¬ l.StartsBlock := by
    intro l hl
    rcases List.mem_append.mp hl with hl | hl
    · exact (s.idle_statements (level + 1) l hl).not_startsBlock
    · exact List.mem_singleton.mp hl ▸ not_startsBlock_closer level
  rw [testCode, List.cons_append, ← List.singleton_append, names_append, htest,
    names_eq_nil_of_not_startsBlock hp hrest, List.append_nil]

include hsuite

theorem names_chainCode (s : Sample) (level : Nat) (address : List Nat) (n : Nat) :
    names p (s.chainCode level address n) =
      (chain address n).flatMap fun a => ofSuite a ++ (List.range s.tests).flatMap (ofTest a) := by
  induction n generalizing level address with
  | zero => rfl
  | succ n ih =>
    have hcloser : names p [closer level] = [] :=
      names_eq_nil_of_not_startsBlock hp fun l hl =>
        List.mem_singleton.mp hl ▸ not_startsBlock_closer level
    rw [chainCode, List.cons_append, ← List.singleton_append, names_append, names_append,
      names_append, hsuite, names_testsCode hp htest, ih, hcloser, List.append_nil, chain,
      List.flatMap_cons, List.append_assoc]

/-- What is named in a sample, suite by suite. -/
theorem names_code (s : Sample) :
    names p s.code =
      s.addresses.flatMap fun a => ofSuite a ++ (List.range s.tests).flatMap (ofTest a) := by
  have hhead : names p [importLine, []] = [] :=
    names_eq_nil_of_not_startsBlock hp fun l hl => (idle_head l hl).not_startsBlock
  have hblank := names_blank hp
  rw [code, names_append, hhead, List.nil_append, names_flatMap, addresses, List.flatMap_assoc]
  congr 1
  funext i
  rw [names_append, names_chainCode hp hsuite htest, hblank, List.append_nil]

end

theorem suiteNames_code (s : Sample) : names StartsSuite s.code = s.suiteTitles := by
  have hsuite (level : Nat) (a : List Nat) :
      names StartsSuite [suiteLine level a] = [suiteTitle a] := by
    rw [names_singleton (startsSuite_suiteLine level a), quoted_suiteLine]
  have htest (level : Nat) (a : List Nat) (i : Nat) : names StartsSuite [testLine level a i] = [] :=
    names_eq_nil fun l hl h =>
      h.not_startsTest (List.mem_singleton.mp hl ▸ startsTest_testLine level a i)
  have htests : (List.range s.tests).flatMap (fun _ => []) = ([] : List (List Char)) :=
    List.flatMap_eq_nil_iff.mpr fun _ _ => rfl
  rw [names_code (fun l => .inl) hsuite htest, htests, suiteTitles, List.map_eq_flatMap]
  simp only [List.append_nil]

theorem testNames_code (s : Sample) : names StartsTest s.code = s.testTitles := by
  have hsuite (level : Nat) (a : List Nat) : names StartsTest [suiteLine level a] = [] :=
    names_eq_nil fun l hl =>
      List.mem_singleton.mp hl ▸ (startsSuite_suiteLine level a).not_startsTest
  have htest (level : Nat) (a : List Nat) (i : Nat) :
      names StartsTest [testLine level a i] = [testTitle a i] := by
    rw [names_singleton (startsTest_testLine level a i), quoted_testLine]
  rw [names_code (fun l => .inr) hsuite htest, testTitles]
  simp [List.map_eq_flatMap]

theorem countP_startsBlock_code (s : Sample) :
    s.code.countP StartsBlock = s.suites * (s.depth - 1 + 1) * (1 + s.tests) := by
  have hsuite (level : Nat) (a : List Nat) :
      names StartsBlock [suiteLine level a] = [suiteTitle a] := by
    rw [names_singleton (.inl (startsSuite_suiteLine level a)), quoted_suiteLine]
  have htest (level : Nat) (a : List Nat) (i : Nat) :
      names StartsBlock [testLine level a i] = [testTitle a i] := by
    rw [names_singleton (.inr (startsTest_testLine level a i)), quoted_testLine]
  rw [← length_names, names_code (fun l => id) hsuite htest]
  simp [length_addresses, Nat.add_comm]

/-- As many blocks are written as announced, except for chains of no suites: one is written for
every suite at the top level all the same. -/
theorem countP_startsBlock_text (s : Sample) :
    (ofText s.text).countP StartsBlock = s.suites * (max 1 s.depth * (1 + s.tests)) ∧
      ((ofText s.text).countP StartsBlock = s.expectedBlocks ↔ 0 < s.depth ∨ s.suites = 0) := by
  have hcount : (ofText s.text).countP StartsBlock =
      s.suites * (max 1 s.depth * (1 + s.tests)) := by
    have hmax : s.depth - 1 + 1 = max 1 s.depth := by omega
    rw [ofText_text, List.countP_append, countP_startsBlock_code, hmax, Nat.mul_assoc]
    simp [idle_blank.not_startsBlock]
  refine ⟨hcount, ?_⟩
  rw [hcount, expectedBlocks]
  rcases Nat.eq_zero_or_pos s.depth with hzero | hpos
  · have hblocks : s.suites * (1 + s.tests) = 0 ↔ s.suites = 0 := by
      rw [Nat.mul_eq_zero]
      omega
    simp only [hzero, Nat.max_zero, Nat.one_mul, Nat.zero_mul, Nat.mul_zero, Nat.lt_irrefl, false_or]
    exact hblocks
  · simp [hpos, Nat.max_eq_right hpos]

/-- A chain of no suites is announced to have no blocks, and a suite with a test is written. -/
theorem countP_startsBlock_depth_zero :
    (ofText (text ⟨1, 0, 1, 0⟩)).countP StartsBlock ≠ expectedBlocks ⟨1, 0, 1, 0⟩ := by
  rw [ofText_text]
  decide +kernel

end Sample

end CursorCommand
