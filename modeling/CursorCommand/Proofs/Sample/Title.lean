import CursorCommand.Sample
import Mathlib.Data.List.GetD
import Mathlib.Data.List.Nodup

/-!
# The names in a sample

Every suite of a sample has an address, its number at the top level and a zero for every suite
around it, and is named by it; a test is named by the address of its suite and its own number, with
a decoration behind. The numbers can be told from a name, so that no two suites and no two tests
are named alike.
-/
namespace CursorCommand

namespace Sample

/-- Numbers in decimal digits, with dots between them. -/
def dotted (ns : List Nat) : List Char := ['.'].intercalate (ns.map (Nat.toDigits 10))

theorem dotted_singleton (n : Nat) : dotted [n] = Nat.toDigits 10 n :=
  List.intercalate_singleton

theorem dotted_append_singleton {ns : List Nat} (h : ns ≠ []) (n : Nat) :
    dotted (ns ++ [n]) = dotted ns ++ '.' :: Nat.toDigits 10 n := by
  induction ns with
  | nil => exact (h rfl).elim
  | cons k ns ih =>
    cases ns with
    | nil => simp [dotted, List.intercalate_cons_cons]
    | cons l ns =>
      have hrest := ih (List.cons_ne_nil l ns)
      simp only [dotted, List.cons_append, List.map_cons, List.intercalate_cons_cons] at hrest ⊢
      simp only [hrest, List.append_assoc]

theorem not_mem_toDigits {n : Nat} {c : Char} (h : c.isDigit = false) : c ∉ Nat.toDigits 10 n := by
  intro hc
  have hdigit : c.isDigit = true := Nat.isDigit_of_mem_toDigits (by decide) (by decide) hc
  rw [h] at hdigit
  cases hdigit

theorem not_mem_dotted {ns : List Nat} {c : Char} (hdot : c ≠ '.') (hdigit : c.isDigit = false) :
    c ∉ dotted ns := by
  induction ns with
  | nil => exact List.not_mem_nil
  | cons k ns ih =>
    cases ns with
    | nil => exact dotted_singleton k ▸ not_mem_toDigits hdigit
    | cons l ns =>
      rw [dotted, List.map_cons, List.map_cons, List.intercalate_cons_cons, List.append_assoc,
        List.mem_append, List.mem_append, List.mem_singleton]
      rintro (h | h | h)
      · exact not_mem_toDigits hdigit h
      · exact hdot h
      · exact ih h

theorem toDigits_injective : Function.Injective (Nat.toDigits 10) := by
  intro m n h
  have hread := congrArg (fun digits => Nat.ofDigitChars 10 digits 0) h
  simpa [Nat.ofDigitChars_toDigits] using hread

theorem splitOn_dotted {ns : List Nat} (h : ns ≠ []) :
    (dotted ns).splitOn '.' = ns.map (Nat.toDigits 10) := by
  apply List.splitOn_intercalate
  · intro digits hdigits hdot
    obtain ⟨n, -, rfl⟩ := List.mem_map.mp hdigits
    exact not_mem_toDigits (by decide) hdot
  · simpa using h

/-- The dots tell the numbers apart. -/
theorem dotted_inj {ms ns : List Nat} (hm : ms ≠ []) (hn : ns ≠ []) (h : dotted ms = dotted ns) :
    ms = ns := by
  have hsplit := congrArg (List.splitOn '.') h
  rw [splitOn_dotted hm, splitOn_dotted hn] at hsplit
  exact List.map_injective_iff.mpr toDigits_injective hsplit

/-! ### Addresses -/

/-- The addresses of a suite and of those inside each other in it, so many in all. -/
def chain (address : List Nat) : Nat → List (List Nat)
  | 0 => []
  | n + 1 => address :: chain (address ++ [0]) n

/-- The addresses of all suites of a sample, in the order in which they open. -/
def addresses (s : Sample) : List (List Nat) :=
  (List.range s.suites).flatMap fun i => chain [i] (s.depth - 1 + 1)

theorem length_chain (address : List Nat) (n : Nat) : (chain address n).length = n := by
  induction n generalizing address with
  | zero => rfl
  | succ n ih => rw [chain, List.length_cons, ih]

theorem isPrefix_of_mem_chain {address a : List Nat} {n : Nat} (h : a ∈ chain address n) :
    address <+: a := by
  induction n generalizing address with
  | zero => cases h
  | succ n ih =>
    rcases List.mem_cons.mp h with rfl | h
    · exact List.prefix_rfl
    · exact (List.prefix_append address [0]).trans (ih h)

theorem nodup_chain (address : List Nat) (n : Nat) : (chain address n).Nodup := by
  induction n generalizing address with
  | zero => exact List.nodup_nil
  | succ n ih =>
    refine List.nodup_cons.mpr ⟨?_, ih (address ++ [0])⟩
    intro h
    have hlength := (isPrefix_of_mem_chain h).length_le
    rw [List.length_append, List.length_singleton] at hlength
    omega

theorem length_addresses (s : Sample) : s.addresses.length = s.suites * (s.depth - 1 + 1) := by
  simp [addresses, length_chain]

theorem ne_nil_of_mem_addresses {s : Sample} {a : List Nat} (h : a ∈ s.addresses) : a ≠ [] := by
  obtain ⟨i, -, ha⟩ := List.mem_flatMap.mp h
  have hprefix := isPrefix_of_mem_chain ha
  rintro rfl
  simp at hprefix

theorem nodup_addresses (s : Sample) : s.addresses.Nodup := by
  refine List.nodup_flatMap.mpr ⟨fun i _ => nodup_chain [i] _, ?_⟩
  refine List.nodup_range.pairwise_of_forall_ne fun i _ j _ hne a hi hj => hne ?_
  -- both chains keep the number of their top-level suite in front
  have hlength : [i].length ≤ [j].length := Nat.le_refl 1
  have heq := List.prefix_of_prefix_length_le (isPrefix_of_mem_chain hi)
    (isPrefix_of_mem_chain hj) hlength
  simpa using heq

/-! ### Titles -/

/-- The name of the suite at an address. -/
def suiteTitle (address : List Nat) : List Char := "suite ".toList ++ dotted address

/-- The name of a test of the suite at an address. -/
def testTitle (address : List Nat) (i : Nat) : List Char :=
  "case ".toList ++ (dotted (address ++ [i]) ++ (turn decorations i).toList)

theorem suiteTitle_eq (address : List Nat) :
    suiteTitle address = "suite ".toList ++ dotted address := rfl

theorem testTitle_eq (address : List Nat) (i : Nat) :
    testTitle address i =
      "case ".toList ++ (dotted (address ++ [i]) ++ (turn decorations i).toList) := rfl

def suiteTitles (s : Sample) : List (List Char) := s.addresses.map suiteTitle

def testTitles (s : Sample) : List (List Char) :=
  s.addresses.flatMap fun a => (List.range s.tests).map (testTitle a)

theorem turn_mem {texts : List String} (h : texts ≠ []) (i : Nat) : turn texts i ∈ texts := by
  have hlt : i % texts.length < texts.length := Nat.mod_lt i (List.length_pos_iff.mpr h)
  rw [turn, List.getD_eq_getElem _ _ hlt]
  exact List.getElem_mem hlt

section

variable {c : Char} (hdot : c ≠ '.') (hdigit : c.isDigit = false)

include hdot hdigit

theorem not_mem_suiteTitle (hword : c ∉ "suite ".toList) (address : List Nat) :
    c ∉ suiteTitle address := by
  intro h
  rcases List.mem_append.mp h with h | h
  · exact hword h
  · exact not_mem_dotted hdot hdigit h

theorem not_mem_testTitle (hword : c ∉ "case ".toList)
    (hdecorations : ∀ d ∈ decorations, c ∉ d.toList) (address : List Nat) (i : Nat) :
    c ∉ testTitle address i := by
  intro h
  rcases List.mem_append.mp h with h | h
  · exact hword h
  · rcases List.mem_append.mp h with h | h
    · exact not_mem_dotted hdot hdigit h
    · exact hdecorations _ (turn_mem (by decide) i) h

end

theorem suiteTitle_inj {a b : List Nat} (ha : a ≠ []) (hb : b ≠ [])
    (h : suiteTitle a = suiteTitle b) : a = b :=
  dotted_inj ha hb (List.append_cancel_left h)

/-- Decorations begin with a blank, so that the numbers end in front of them. -/
theorem takeWhile_dotted_decoration (ns : List Nat) (i : Nat) :
    (dotted ns ++ (turn decorations i).toList).takeWhile (· != ' ') = dotted ns := by
  have hdecoration : ∀ d ∈ decorations, d.toList.takeWhile (· != ' ') = [] := by decide
  have hdotted : ∀ c ∈ dotted ns, (c != ' ') = true := by
    intro c hc
    have hblank : ' ' ∉ dotted ns := not_mem_dotted (by decide) (by decide)
    exact bne_iff_ne.mpr fun heq => hblank (heq ▸ hc)
  rw [List.takeWhile_append_of_pos hdotted, hdecoration _ (turn_mem (by decide) i),
    List.append_nil]

theorem testTitle_inj {a b : List Nat} {i j : Nat} (h : testTitle a i = testTitle b j) :
    a = b ∧ i = j := by
  have hnumbers := congrArg (List.takeWhile (· != ' ')) (List.append_cancel_left h)
  rw [takeWhile_dotted_decoration, takeWhile_dotted_decoration] at hnumbers
  have heq := dotted_inj (by simp) (by simp) hnumbers
  simpa using List.append_inj' heq rfl

theorem nodup_suiteTitles (s : Sample) : s.suiteTitles.Nodup :=
  s.nodup_addresses.map_on fun _ ha _ hb =>
    suiteTitle_inj (ne_nil_of_mem_addresses ha) (ne_nil_of_mem_addresses hb)

theorem nodup_testTitles (s : Sample) : s.testTitles.Nodup := by
  refine List.nodup_flatMap.mpr ⟨?_, ?_⟩
  · intro a _
    exact List.nodup_range.map_on fun i _ j _ h => (testTitle_inj h).2
  · refine s.nodup_addresses.pairwise_of_forall_ne fun a _ b _ hne title ha hb => hne ?_
    obtain ⟨i, -, rfl⟩ := List.mem_map.mp ha
    obtain ⟨j, -, heq⟩ := List.mem_map.mp hb
    exact (testTitle_inj heq).1.symm

end Sample

end CursorCommand
