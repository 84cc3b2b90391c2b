import CursorCommand.Proofs.Sample.Line

/-!
# Lines read with a stack

A line that leaves a function open is put on a stack, and a line that closes one takes the last
line off again; the two, with all that was closed between them, make a scope. Lines that are read
to the end in this way have every opening and every closing line as one end of some scope.
-/
namespace CursorCommand

/-- An opening line and the line that closes it, with the number of lines that were open around them
and the scopes between them in their order. -/
inductive Scope where
  | mk (height : Nat) (opener closer : CodeLine) (inner : List Scope)

namespace Scope

def height : Scope → Nat
  | .mk height _ _ _ => height

def opener : Scope → CodeLine
  | .mk _ opener _ _ => opener

def closer : Scope → CodeLine
  | .mk _ _ closer _ => closer

def inner : Scope → List Scope
  | .mk _ _ _ inner => inner

/-- A scope holds itself and all that the scopes directly inside it hold. -/
inductive Holds : Scope → Scope → Prop
  | self (b : Scope) : Holds b b
  | inner {b c d : Scope} : c ∈ b.inner → Holds c d → Holds b d

theorem Holds.eq_of_inner_eq_nil {b c : Scope} (h : b.Holds c) (hnil : b.inner = []) : c = b := by
  cases h with
  | self => rfl
  | inner hmem _ =>
    rw [hnil] at hmem
    cases hmem

/-- What has been read of some lines. -/
structure Reader where
  /-- The open lines, the last one first, each with the scopes closed before it around the same
  place. -/
  pending : List (CodeLine × List Scope)
  /-- The scopes closed since the last open line. -/
  closed : List Scope

def Reader.step? (r : Reader) (l : CodeLine) : Option Reader :=
  if l.Opens then some ⟨(l, r.closed) :: r.pending, []⟩
  else if l.Closes then
    match r.pending with
    | [] => none
    | (opener, before) :: rest => some ⟨rest, before ++ [.mk rest.length opener l r.closed]⟩
  else some r

/-- The scopes of some lines, if every closing line finds an open one and none stays open. -/
def ofLines? (ls : List CodeLine) : Option (List Scope) :=
  match ls.foldlM Reader.step? ⟨[], []⟩ with
  | some ⟨[], closed⟩ => some closed
  | _ => none

example : (ofLines? ["\x7d);".toList]).isNone ∧ (ofLines? ["it(() => \x7b".toList]).isNone := by
  decide

/-- All scopes that have been closed, as far as none is inside another. -/
def Reader.scopes (r : Reader) : List Scope := r.closed ++ r.pending.flatMap (·.2)

/-- A line still waits to be closed, or is one end of a scope. -/
def Reader.Accounts (r : Reader) (l : CodeLine) : Prop :=
  (∃ p ∈ r.pending, p.1 = l) ∨
    ∃ b ∈ r.scopes, ∃ c, b.Holds c ∧ (c.opener = l ∨ c.closer = l)

theorem Reader.step?_opens (r : Reader) {l : CodeLine} (h : l.Opens) :
    r.step? l = some ⟨(l, r.closed) :: r.pending, []⟩ := by
  rw [step?, if_pos h]

theorem Reader.step?_closes {opener l : CodeLine} {before closed : List Scope}
    {rest : List (CodeLine × List Scope)} (h : l.Closes) :
    step? ⟨(opener, before) :: rest, closed⟩ l =
      some ⟨rest, before ++ [.mk rest.length opener l closed]⟩ := by
  rw [step?, if_neg fun ho => ho.not_closes h, if_pos h]

theorem Reader.step?_other (r : Reader) {l : CodeLine} (hopens : ¬ l.Opens)
    (hcloses : ¬ l.Closes) : r.step? l = some r := by
  rw [step?, if_neg hopens, if_neg hcloses]

/-- All that a line can do. -/
theorem Reader.step?_cases {r r' : Reader} {l : CodeLine} (h : r.step? l = some r') :
    (l.Opens ∧ r' = ⟨(l, r.closed) :: r.pending, []⟩) ∨
      (∃ opener before rest, l.Closes ∧ r.pending = (opener, before) :: rest ∧
        r' = ⟨rest, before ++ [.mk rest.length opener l r.closed]⟩) ∨
      (¬ l.Opens ∧ ¬ l.Closes ∧ r' = r) := by
  rcases r with ⟨pending, closed⟩
  by_cases hopens : l.Opens
  · rw [step?_opens _ hopens] at h
    exact .inl ⟨hopens, (Option.some.inj h).symm⟩
  by_cases hcloses : l.Closes
  · cases pending with
    | nil =>
      rw [step?, if_neg hopens, if_pos hcloses] at h
      cases h
    | cons top rest =>
      rw [step?_closes hcloses] at h
      exact .inr (.inl ⟨_, _, rest, hcloses, rfl, (Option.some.inj h).symm⟩)
  · rw [step?_other _ hopens hcloses] at h
    exact .inr (.inr ⟨hopens, hcloses, (Option.some.inj h).symm⟩)

/-- A line that opens or closes is accounted for as soon as it is read, and stays so. -/
theorem Reader.step?_accounts {r r' : Reader} {l x : CodeLine} (h : r.step? l = some r')
    (hx : r.Accounts x ∨ x = l ∧ (l.Opens ∨ l.Closes)) : r'.Accounts x := by
  rcases r with ⟨pending, closed⟩
  rcases step?_cases h with ⟨-, rfl⟩ | ⟨opener, before, rest, -, rfl, rfl⟩ | ⟨hopens, hcloses, rfl⟩
  · rcases hx with (⟨p, hp, hl⟩ | hx) | ⟨rfl, -⟩
    · exact .inl ⟨p, List.mem_cons_of_mem _ hp, hl⟩
    · exact .inr hx
    · exact .inl ⟨_, List.mem_cons_self, rfl⟩
  · have hnew : Scope.mk rest.length opener l closed ∈ Reader.scopes
        ⟨rest, before ++ [.mk rest.length opener l closed]⟩ := by simp [scopes]
    rcases hx with (⟨p, hp, hl⟩ | ⟨b, hb, c, hc, hl⟩) | ⟨rfl, -⟩
    · rcases List.mem_cons.mp hp with rfl | hp
      · exact .inr ⟨_, hnew, _, .self _, .inl hl⟩
      · exact .inl ⟨p, hp, hl⟩
    · rcases List.mem_append.mp hb with hb | hb
      -- what was closed since the opening line is now inside the scope
      · exact .inr ⟨_, hnew, c, .inner hb hc, hl⟩
      · rw [List.flatMap_cons] at hb
        exact .inr ⟨b, by simp only [scopes]; grind, c, hc, hl⟩
    · exact .inr ⟨_, hnew, _, .self _, .inr rfl⟩
  · rcases hx with hx | ⟨-, hl⟩
    · exact hx
    · exact (hl.elim hopens hcloses).elim

theorem Reader.foldlM_accounts {r r' : Reader} {ls : List CodeLine} {x : CodeLine}
    (h : ls.foldlM step? r = some r') (hx : r.Accounts x ∨ x ∈ ls ∧ (x.Opens ∨ x.Closes)) :
    r'.Accounts x := by
  induction ls generalizing r with
  | nil =>
    cases h
    rcases hx with hx | ⟨hx, -⟩
    · exact hx
    · cases hx
  | cons l ls ih =>
    rw [List.foldlM_cons] at h
    obtain ⟨next, hstep, hrest⟩ := Option.bind_eq_some_iff.mp h
    apply ih hrest
    rcases hx with hx | ⟨hx, hends⟩
    · exact .inl (step?_accounts hstep (.inl hx))
    · rcases List.mem_cons.mp hx with rfl | hx
      · exact .inl (step?_accounts hstep (.inr ⟨rfl, hends⟩))
      · exact .inr ⟨hx, hends⟩

/-- Every line that opens or closes is one end of a scope. -/
theorem exists_of_ofLines? {ls : List CodeLine} {scopes : List Scope}
    (h : ofLines? ls = some scopes) {l : CodeLine} (hl : l ∈ ls) (hends : l.Opens ∨ l.Closes) :
    ∃ b ∈ scopes, ∃ c, b.Holds c ∧ (c.opener = l ∨ c.closer = l) := by
  rw [ofLines?] at h
  split at h
  · next closed hread =>
    cases h
    rcases Reader.foldlM_accounts hread (.inr ⟨hl, hends⟩) with ⟨p, hp, -⟩ | hscope
    · cases hp
    · simpa [Reader.scopes] using hscope
  · cases h

/-- Below a number of open lines, some lines add scopes and leave what is open as it is. -/
def Reads (height : Nat) (ls : List CodeLine) (scopes : List Scope) : Prop :=
  ∀ pending closed, pending.length = height →
    ls.foldlM Reader.step? ⟨pending, closed⟩ = some ⟨pending, closed ++ scopes⟩

variable {height : Nat} {ls ls' : List CodeLine} {scopes scopes' : List Scope} {l : CodeLine}

theorem Reads.ofLines? (h : Reads 0 ls scopes) : ofLines? ls = some scopes := by
  rw [Scope.ofLines?, h [] [] rfl]
  rfl

theorem reads_nil (height : Nat) : Reads height [] [] := by
  intro pending closed _
  rw [List.append_nil]
  rfl

theorem Reads.append (h : Reads height ls scopes) (h' : Reads height ls' scopes') :
    Reads height (ls ++ ls') (scopes ++ scopes') := by
  intro pending closed hlength
  rw [List.foldlM_append, h pending closed hlength, Option.bind_eq_bind, Option.bind_some,
    h' pending _ hlength, List.append_assoc]

theorem reads_flatMap {α : Type} {xs : List α} {f : α → List CodeLine} {g : α → List Scope}
    (h : ∀ x ∈ xs, Reads height (f x) (g x)) : Reads height (xs.flatMap f) (xs.flatMap g) := by
  induction xs with
  | nil => exact reads_nil height
  | cons x xs ih =>
    rw [List.forall_mem_cons] at h
    exact h.1.append (ih h.2)

theorem reads_idle (h : ∀ l ∈ ls, l.Idle) : Reads height ls [] := by
  intro pending closed _
  rw [List.append_nil]
  induction ls with
  | nil => rfl
  | cons l ls ih =>
    rw [List.forall_mem_cons] at h
    rw [List.foldlM_cons, Reader.step?_other _ h.1.not_opens h.1.not_closes,
      Option.bind_eq_bind, Option.bind_some, ih h.2]

/-- Lines around others make one scope of what is between them. -/
theorem Reads.scope {opener closer : CodeLine} (hopens : opener.Opens) (hcloses : closer.Closes)
    (h : Reads (height + 1) ls scopes) :
    Reads height (opener :: ls ++ [closer]) [.mk height opener closer scopes] := by
  intro pending closed hlength
  have hinner := h ((opener, closed) :: pending) [] (by rw [List.length_cons, hlength])
  rw [List.cons_append, List.foldlM_cons, Reader.step?_opens _ hopens, Option.bind_eq_bind,
    Option.bind_some, List.foldlM_append, hinner, Option.bind_eq_bind, Option.bind_some,
    List.nil_append, List.foldlM_cons, Reader.step?_closes hcloses, hlength]
  rfl

end Scope

end CursorCommand
