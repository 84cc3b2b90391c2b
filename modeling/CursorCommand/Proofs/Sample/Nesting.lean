import CursorCommand.Proofs.Sample.Blocks
import CursorCommand.Proofs.Sample.Scope

/-!
# How a sample is nested

Read with a stack, the lines of a sample are chains of suites with their tests. All that is known
of its scopes is told from these chains.
-/
namespace CursorCommand

namespace Sample

open CodeLine

/-! ### The scopes of a sample -/

def testScope (level : Nat) (address : List Nat) (i : Nat) : Scope :=
  .mk level (testLine level address i) (closer level) []

def testScopes (s : Sample) (level : Nat) (address : List Nat) : List Scope :=
  (List.range s.tests).flatMap fun i => [testScope level address i]

/-- So many suites inside each other. -/
def chainScopes (s : Sample) (level : Nat) (address : List Nat) : Nat → List Scope
  | 0 => []
  | n + 1 =>
    [.mk level (suiteLine level address) (closer level)
      (s.testScopes (level + 1) address ++ chainScopes s (level + 1) (address ++ [0]) n)]

def scopes (s : Sample) : List Scope :=
  (List.range s.suites).flatMap fun i => s.chainScopes 0 [i] (s.depth - 1 + 1)

theorem reads_testsCode (s : Sample) (level : Nat) (address : List Nat) :
    Scope.Reads level (s.testsCode level address) (s.testScopes level address) :=
  Scope.reads_flatMap fun _ _ =>
    (Scope.reads_idle (s.idle_statements (level + 1))).scope (opens_opener _ _ _)
      (closes_closer level)

theorem reads_chainCode (s : Sample) (level : Nat) (address : List Nat) (n : Nat) :
    Scope.Reads level (s.chainCode level address n) (s.chainScopes level address n) := by
  -- over the suites still to come, which stand one level further in at a longer address
  induction n generalizing level address with
  | zero => exact Scope.reads_nil level
  | succ n ih =>
    exact ((s.reads_testsCode (level + 1) address).append (ih (level + 1) (address ++ [0]))).scope
      (opens_opener _ _ _) (closes_closer level)

/-- The text of a sample is read to its end as the scopes of the sample. -/
theorem ofLines?_text (s : Sample) : Scope.ofLines? (ofText s.text) = some s.scopes := by
  have hblank (height : Nat) : Scope.Reads height [[]] [] :=
    Scope.reads_idle (List.forall_mem_singleton.mpr idle_blank)
  have hhead : Scope.Reads 0 [importLine, []] [] := Scope.reads_idle idle_head
  have hsuites : Scope.Reads 0
      ((List.range s.suites).flatMap fun i => s.chainCode 0 [i] (s.depth - 1 + 1) ++ [[]])
      ((List.range s.suites).flatMap fun i => s.chainScopes 0 [i] (s.depth - 1 + 1) ++ []) :=
    Scope.reads_flatMap fun i _ => (s.reads_chainCode 0 [i] _).append (hblank 0)
  have hall := (hhead.append hsuites).append (hblank 0)
  rw [ofText_text]
  simpa [scopes, code] using hall.ofLines?

/-- What a scope of a sample looks like. -/
structure Regular (s : Sample) (c : Scope) : Prop where
  indentation_eq : c.closer.indentation = c.opener.indentation
  startsBlock : c.opener.StartsBlock
  /-- Nothing opens inside a test. -/
  inner_of_test : c.opener.StartsTest → c.inner = []
  height_of_suite : c.opener.StartsSuite → c.height < s.depth
  /-- So many tests stand directly in every suite. -/
  tests_of_suite : c.opener.StartsSuite → (c.inner.countP fun t => t.opener.StartsTest) = s.tests

theorem regular_testScope (s : Sample) (level : Nat) (address : List Nat) (i : Nat) :
    s.Regular (testScope level address i) := by
  have htest := startsTest_testLine level address i
  exact
    { indentation_eq := (indentation_closer level).trans
        (indentation_opener (turn_callees_mem i) level _).symm
      startsBlock := .inr htest
      inner_of_test := fun _ => rfl
      height_of_suite := fun h => (h.not_startsTest htest).elim
      tests_of_suite := fun h => (h.not_startsTest htest).elim }

theorem startsSuite_of_mem_chainScopes {s : Sample} {level : Nat} {address : List Nat} {n : Nat}
    {b : Scope} (h : b ∈ s.chainScopes level address n) : b.opener.StartsSuite := by
  cases n with
  | zero => cases h
  | succ n =>
    cases List.mem_singleton.mp h
    exact startsSuite_suiteLine level address

theorem countP_chainScopes (s : Sample) (level : Nat) (address : List Nat) (n : Nat) :
    (s.chainScopes level address n).countP (fun t => t.opener.StartsTest) = 0 := by
  rw [List.countP_eq_zero]
  intro b hb ht
  exact (startsSuite_of_mem_chainScopes hb).not_startsTest (of_decide_eq_true ht)

theorem countP_testScopes (s : Sample) (level : Nat) (address : List Nat) :
    (s.testScopes level address).countP (fun t => t.opener.StartsTest) = s.tests := by
  have hall : ∀ t ∈ s.testScopes level address, t.opener.StartsTest := by
    intro t ht
    obtain ⟨i, -, ht⟩ := List.mem_flatMap.mp ht
    rw [List.mem_singleton.mp ht]
    exact startsTest_testLine level address i
  rw [List.countP_eq_length.mpr (by simpa using hall)]
  simp [testScopes]

theorem regular_chainScopes (s : Sample) (level : Nat) (address : List Nat) (n : Nat)
    (h : level + n ≤ s.depth) :
    ∀ b ∈ s.chainScopes level address n, ∀ c, b.Holds c → s.Regular c := by
  induction n generalizing level address with
  | zero => exact fun _ hb => nomatch hb
  | succ n ih =>
    intro b hb c hc
    have hsuite := startsSuite_suiteLine level address
    cases List.mem_singleton.mp hb
    cases hc with
    | self =>
      exact
        { indentation_eq := (indentation_closer level).trans
            (indentation_opener describe_mem level _).symm
          startsBlock := .inl hsuite
          inner_of_test := fun ht => (hsuite.not_startsTest ht).elim
          height_of_suite := fun _ => show level < s.depth by omega
          tests_of_suite := fun _ => by
            rw [Scope.inner, List.countP_append, countP_testScopes, countP_chainScopes,
              Nat.add_zero] }
    | inner hmem hholds =>
      rcases List.mem_append.mp hmem with hmem | hmem
      · obtain ⟨i, -, hmem⟩ := List.mem_flatMap.mp hmem
        cases List.mem_singleton.mp hmem
        rw [hholds.eq_of_inner_eq_nil rfl]
        exact s.regular_testScope (level + 1) address i
      · exact ih (level + 1) (address ++ [0]) (by omega) _ hmem c hholds

/-- The chain goes down one suite at a time. -/
theorem exists_suite_at_height (s : Sample) (level : Nat) (address : List Nat) (n : Nat) :
    ∀ b ∈ s.chainScopes level address n, ∀ k < n,
      ∃ c, b.Holds c ∧ c.opener.StartsSuite ∧ c.height = level + k := by
  induction n generalizing level address with
  | zero => exact fun _ hb => nomatch hb
  | succ n ih =>
    intro b hb k hk
    cases List.mem_singleton.mp hb
    cases k with
    | zero => exact ⟨_, .self _, startsSuite_suiteLine level address, rfl⟩
    | succ k =>
      obtain ⟨n, rfl⟩ : ∃ m, n = m + 1 := ⟨n - 1, by omega⟩
      obtain ⟨c, hc, hsuite, hheight⟩ :=
        ih (level + 1) (address ++ [0]) _ (List.mem_singleton_self _) k (by omega)
      exact ⟨c, .inner (List.mem_append_right _ (List.mem_singleton_self _)) hc, hsuite, by omega⟩

theorem length_scopes (s : Sample) : s.scopes.length = s.suites := by
  simp [scopes, chainScopes]

/-- Blocks start where functions are left open, and nowhere else. -/
theorem opens_iff_startsBlock {s : Sample} {l : CodeLine} (hl : l ∈ ofText s.text) :
    l.Opens ↔ l.StartsBlock := by
  rw [ofText_text] at hl
  rcases List.mem_append.mp hl with hl | hl
  · exact (s.written_code l hl).opens_iff
  · rw [List.mem_singleton.mp hl]
    exact iff_of_false idle_blank.not_opens idle_blank.not_startsBlock

/-- How the lines of a sample are nested, as they are read with a stack. -/
structure Nests (s : Sample) (suites : List Scope) : Prop where
  /-- Every closing line finds an open one, and no line stays open. -/
  ofLines?_eq : Scope.ofLines? (ofText s.text) = some suites
  length_eq : suites.length = s.suites
  /-- Every suite at the top level reaches down to every height of suites. -/
  reaches : ∀ top ∈ suites, top.opener.StartsSuite ∧
    ∀ height < s.depth, ∃ c, top.Holds c ∧ c.opener.StartsSuite ∧ c.height = height
  regular : ∀ top ∈ suites, ∀ c, top.Holds c → s.Regular c
  /-- The scopes account for every line that opens or closes one. -/
  accounts : ∀ l ∈ ofText s.text, l.Opens ∨ l.Closes →
    ∃ top ∈ suites, ∃ c, top.Holds c ∧ (c.opener = l ∨ c.closer = l)
  opens_iff : ∀ l ∈ ofText s.text, l.Opens ↔ l.StartsBlock
  suites_nodup : (names StartsSuite (ofText s.text)).Nodup
  tests_nodup : (names StartsTest (ofText s.text)).Nodup
  pieces : (ofText s.text).length =
    3 + s.suites * (1 + s.depth * (2 + s.tests * (3 + s.extraLines)))

/-- A sample of some depth is nested as its numbers say. -/
theorem text_nests (s : Sample) (h : 1 ≤ s.depth) : ∃ suites, s.Nests suites := by
  have hdepth : s.depth - 1 + 1 = s.depth := Nat.sub_add_cancel h
  have hchain {top : Scope} (htop : top ∈ s.scopes) :
      ∃ i, top ∈ s.chainScopes 0 [i] s.depth := by
    obtain ⟨i, -, hi⟩ := List.mem_flatMap.mp htop
    exact ⟨i, hdepth ▸ hi⟩
  refine ⟨s.scopes, ?_⟩
  exact
    { ofLines?_eq := s.ofLines?_text
      length_eq := s.length_scopes
      reaches := by
        intro top htop
        obtain ⟨i, hi⟩ := hchain htop
        refine ⟨startsSuite_of_mem_chainScopes hi, fun height hheight => ?_⟩
        simpa using s.exists_suite_at_height 0 [i] s.depth top hi height hheight
      regular := by
        intro top htop
        obtain ⟨i, hi⟩ := hchain htop
        exact s.regular_chainScopes 0 [i] s.depth (by omega) top hi
      accounts := fun _ hl hends => Scope.exists_of_ofLines? s.ofLines?_text hl hends
      opens_iff := fun _ hl => opens_iff_startsBlock hl
      suites_nodup := by
        rw [names_text (fun l => .inl), suiteNames_code]
        exact s.nodup_suiteTitles
      tests_nodup := by
        rw [names_text (fun l => .inr), testNames_code]
        exact s.nodup_testTitles
      pieces := by
        rw [ofText_text, List.length_append, length_code, hdepth, List.length_singleton]
        omega }

/-- Tests in more than one turn of their callees and decorations. -/
theorem text_nests_turns :
    1 ≤ (⟨2, 3, 7, 1⟩ : Sample).depth ∧ ∃ suites, Nests ⟨2, 3, 7, 1⟩ suites :=
  ⟨by decide, text_nests ⟨2, 3, 7, 1⟩ (by decide)⟩

end Sample

end CursorCommand
