import CursorCommand.Proofs.Text.Measure
import CursorCommand.Text.Line

/-!
# Lines of a text

What breaking a text into lines gives: bodies without line breaks, an ending behind each but the
last, and no carriage return that ends a line while a line feed follows.
-/
namespace CursorCommand

theorem Ending.length_pos {e : Ending} (h : e ≠ .none) : 0 < Measure.utf8.length e.chars := by
  cases e with
  | none => exact (h rfl).elim
  | _ => decide

theorem Ending.length_le (e : Ending) :
    Measure.utf8.length e.chars ≤ if e = .crlf then 2 else 1 := by
  cases e <;> decide

namespace Line

/-- A text in one line. -/
def Unbroken (body : List Char) : Prop := '\n' ∉ body ∧ '\r' ∉ body

/-- Lines that a text can be broken into. -/
inductive Broken : List Line → Prop
  | last {body : List Char} : Unbroken body → Broken [⟨body, .none⟩]
  | more {l : Line} {ls : List Line} : Unbroken l.body → l.ending ≠ .none →
      (l.ending = .cr → (join ls).head? ≠ some '\n') → Broken ls → Broken (l :: ls)

theorem Broken.ne_nil {ls : List Line} (h : Broken ls) : ls ≠ [] := by
  cases h <;> exact List.cons_ne_nil _ _

theorem Unbroken.cons {c : Char} {body : List Char} (hlf : c ≠ '\n') (hcr : c ≠ '\r')
    (h : Unbroken body) : Unbroken (c :: body) := by
  constructor
  · exact List.not_mem_cons_of_ne_of_not_mem hlf.symm h.1
  · exact List.not_mem_cons_of_ne_of_not_mem hcr.symm h.2

theorem unbroken_nil : Unbroken [] := ⟨List.not_mem_nil, List.not_mem_nil⟩

theorem Broken.consHead {c : Char} {ls : List Line} (hlf : c ≠ '\n') (hcr : c ≠ '\r')
    (h : Broken ls) : Broken (Line.consHead c ls) := by
  cases h with
  | last hbody => exact .last (hbody.cons hlf hcr)
  | more hbody hending hnext hrest => exact .more (hbody.cons hlf hcr) hending hnext hrest

theorem broken_split (cs : List Char) : Broken (split cs) := by
  fun_induction split cs with
  | case1 => exact .last unbroken_nil
  | case2 cs ih => exact .more unbroken_nil (by decide) (absurd · (by decide)) ih
  | case3 cs ih => exact .more unbroken_nil (by decide) (absurd · (by decide)) ih
  | case4 cs hnext ih =>
    refine .more unbroken_nil (by decide) ?_ ih
    intro _ hhead
    rw [join_split] at hhead
    cases cs with
    | nil => cases hhead
    | cons c cs =>
      obtain rfl := Option.some.inj hhead
      exact hnext cs rfl
  | case5 c cs hlf hcrlf hcr ih => exact ih.consHead hlf hcr

theorem split_lf (cs : List Char) : split ('\n' :: cs) = ⟨[], .lf⟩ :: split cs := by
  rw [split]

theorem split_crlf (cs : List Char) : split ('\r' :: '\n' :: cs) = ⟨[], .crlf⟩ :: split cs := by
  rw [split]

theorem split_cr {cs : List Char} (h : ∀ ds, cs ≠ '\n' :: ds) :
    split ('\r' :: cs) = ⟨[], .cr⟩ :: split cs := by
  rw [split]
  exact h

theorem split_plain {c : Char} (hlf : c ≠ '\n') (hcr : c ≠ '\r') (cs : List Char) :
    split (c :: cs) = consHead c (split cs) := by
  rw [split]
  · exact hlf
  · intro ds hc
    exact (hcr hc).elim
  · exact hcr

theorem split_ending {e : Ending} {cs : List Char} (hne : e ≠ .none)
    (hnext : e = .cr → cs.head? ≠ some '\n') : split (e.chars ++ cs) = ⟨[], e⟩ :: split cs := by
  cases e with
  | lf => exact split_lf cs
  | crlf => exact split_crlf cs
  | cr =>
    apply split_cr
    rintro ds rfl
    exact hnext rfl rfl
  | none => exact (hne rfl).elim

theorem split_unbroken_append {body cs : List Char} {e : Ending} {ls : List Line}
    (hbody : Unbroken body) (h : split cs = ⟨[], e⟩ :: ls) :
    split (body ++ cs) = ⟨body, e⟩ :: ls := by
  induction body with
  | nil => exact h
  | cons c body ih =>
    obtain ⟨hlf, hlfBody⟩ := List.ne_and_not_mem_of_not_mem_cons hbody.1
    obtain ⟨hcr, hcrBody⟩ := List.ne_and_not_mem_of_not_mem_cons hbody.2
    rw [List.cons_append, split_plain hlf.symm hcr.symm, ih ⟨hlfBody, hcrBody⟩]
    rfl

/-- A text breaks into the lines that it is put together from: there is only one way. -/
theorem Broken.split_join {ls : List Line} (h : Broken ls) : split (join ls) = ls := by
  induction h with
  | @last body hbody =>
    have hjoin : join [⟨body, .none⟩] = body ++ [] := by simp [chars, Ending.chars]
    rw [hjoin]
    exact split_unbroken_append hbody rfl
  | @more l ls hbody hending hnext _ ih =>
    rw [join_cons, chars, List.append_assoc]
    apply split_unbroken_append hbody
    rw [split_ending hending hnext, ih]

/-- An offset between a carriage return and the line feed that ends the same line. -/
def InsideEnding (cs : List Char) (n : Nat) : Prop :=
  ∃ before after, cs = before ++ '\r' :: '\n' :: after ∧ n = Measure.utf8.length before + 1

theorem not_insideEnding {body rest : List Char} {n : Nat} (h : Unbroken body)
    (hn : n ≤ Measure.utf8.length body) : ¬ InsideEnding (body ++ rest) n := by
  intro hinside
  rcases hinside with ⟨before, after, heq, rfl⟩
  rcases List.append_eq_append_iff.mp heq with ⟨more, rfl, -⟩ | ⟨more, rfl, hmore⟩
  · rw [Measure.length_append] at hn
    omega
  · cases more with
    | nil =>
      rw [List.append_nil] at hn
      omega
    | cons c more =>
      obtain ⟨rfl, -⟩ := List.cons.inj hmore
      exact h.2 (by simp)

/-- Only a lone carriage return leaves one at the end of a line. -/
theorem ending_eq_cr {l : Line} {before : List Char} (hbody : Unbroken l.body)
    (h : l.chars = before ++ ['\r']) : l.ending = .cr := by
  rcases l with ⟨body, ending⟩
  have hlast := congrArg List.getLast? h
  rw [List.getLast?_concat] at hlast
  cases ending with
  | cr => rfl
  | none =>
    have hmem : '\r' ∈ body := List.mem_of_getLast? (by simpa [chars, Ending.chars] using hlast)
    exact (hbody.2 hmem).elim
  | lf => simp [chars, Ending.chars] at hlast
  | crlf => simp [chars, Ending.chars] at hlast

/-- Behind a whole line, nothing of it is left. -/
theorem insideEnding_behind {l : Line} {ls : List Line} {k : Nat} (hbody : Unbroken l.body)
    (hnext : l.ending = .cr → (join ls).head? ≠ some '\n') :
    InsideEnding (join (l :: ls)) (l.byteLength + k) ↔ InsideEnding (join ls) k := by
  rw [join_cons]
  constructor
  · intro h
    rcases h with ⟨before, after, heq, hn⟩
    rcases List.append_eq_append_iff.mp heq with ⟨more, rfl, hmore⟩ | ⟨more, hchars, hmore⟩
    · rw [Measure.length_append] at hn
      exact ⟨more, after, hmore, by unfold byteLength at hn; omega⟩
    · have hlen := congrArg Measure.utf8.length hchars
      rw [Measure.length_append] at hlen
      rcases more with _ | ⟨c, _ | ⟨d, more⟩⟩
      · exact ⟨[], after, hmore.symm, by simp [byteLength] at *; omega⟩
      · obtain ⟨rfl, hrest⟩ := List.cons.inj hmore
        have hhead : join ls = '\n' :: after := hrest.symm
        exact (hnext (ending_eq_cr hbody hchars) (by rw [hhead]; rfl)).elim
      · have hc := Measure.utf8.width_pos c
        have hd := Measure.utf8.width_pos d
        simp only [byteLength, Measure.length_cons] at *
        omega
  · intro h
    rcases h with ⟨before, after, heq, rfl⟩
    refine ⟨l.chars ++ before, after, by rw [heq, List.append_assoc], ?_⟩
    rw [Measure.length_append, byteLength]
    omega

end Line

end CursorCommand
