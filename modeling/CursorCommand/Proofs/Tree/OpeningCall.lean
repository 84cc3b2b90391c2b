import CursorCommand.Proofs.Tree.Address
import CursorCommand.Tree.Call

/-!
# Calls that open a block, described

Which calls open a block and what they name it, as relations on the tree that do not say how the
answer is found. `opensBlock_iff` and `Opens.named` tie them to what is computed.
-/
namespace CursorCommand

namespace Node

variable {source : List Char} {identifiers : List String}

/-- Taking the object of a member, any number of times, leads from a node to an identifier. -/
inductive LeadsTo : Node → Node → Prop
  | identifier {b : Node} : b.kind = .identifier → LeadsTo b b
  | member {n o b : Node} : n.kind = .memberExpression → n.child? .object = some o →
      LeadsTo o b → LeadsTo n b

/-- A call with an argument list whose callee leads to one of the identifiers. -/
structure Opens (source : List Char) (identifiers : List String) (n : Node) : Prop where
  kind : n.kind = .callExpression
  arguments : ∃ a, n.child? .arguments = some a ∧ a.kind = .arguments
  callee : ∃ f b, n.child? .function = some f ∧ f.LeadsTo b ∧
    String.ofList (b.text source) ∈ identifiers

def Fixed (n : Node) : Prop :=
  n.kind = .string ∨
    n.kind = .templateString ∧
      ∀ c ∈ n.children, c.head.named = true → c.kind ≠ .templateSubstitution

/-- An argument whose value can name a block. -/
def Naming (a : Node) : Prop := a.head.named = true ∧ a.head.extra = false ∧ a.Fixed

/-- The first argument that can name a call's block does, and without one the name is unknown. -/
inductive Named (source : List Char) (n : Node) : Option String → Prop
  | literal {args arg : Node} {before after : List Node} :
      n.child? .arguments = some args → args.children = before ++ arg :: after →
      (∀ b ∈ before, ¬ b.Naming) → arg.Naming →
      Named source n (some (String.ofList (Literal.value (arg.text source))))
  | unknown {args : Node} :
      n.child? .arguments = some args → (∀ a ∈ args.children, ¬ a.Naming) → Named source n none

theorem mem_children_of_child? {f : NodeField} {n c : Node} (h : n.child? f = some c) :
    c ∈ n.children := List.mem_of_find?_eq_some h

theorem LeadsTo.base? {n b : Node} (h : n.LeadsTo b) : n.base? = some b := by
  induction h with
  | identifier hb => simp [base?_eq, hb]
  | member hn ho _ ih =>
    rw [base?_eq]
    simp only [hn, ho, Option.bind_some]
    exact ih

theorem LeadsTo.of_base? {n b : Node} (h : n.base? = some b) : n.LeadsTo b := by
  induction n with
  | mk head children ih =>
    rw [base?_eq] at h
    split at h
    · rename_i hk
      obtain rfl := Option.some.inj h
      exact .identifier hk
    · rename_i hk
      obtain ⟨o, ho, hb⟩ := Option.bind_eq_some_iff.mp h
      exact .member hk ho (ih o (mem_children_of_child? ho) hb)
    · cases h

theorem base?_eq_some_iff {n b : Node} : n.base? = some b ↔ n.LeadsTo b :=
  ⟨LeadsTo.of_base?, LeadsTo.base?⟩

theorem LeadsTo.exists_address {n b : Node} (h : n.LeadsTo b) : ∃ a, n.at? a = some b := by
  induction h with
  | identifier _ => exact ⟨[], rfl⟩
  | member _ ho _ ih =>
    obtain ⟨a, ha⟩ := ih
    obtain ⟨i, hi⟩ := List.getElem?_of_mem (mem_children_of_child? ho)
    exact ⟨i :: a, by rw [at?_cons, hi]; exact ha⟩

theorem calleeBase?_eq_some_iff {n b : Node} :
    n.calleeBase? = some b ↔ ∃ f, n.child? .function = some f ∧ f.LeadsTo b := by
  rw [calleeBase?, Option.bind_eq_some_iff]
  exact exists_congr fun f => and_congr_right fun _ => base?_eq_some_iff

theorem argumentList?_eq_some_iff {n a : Node} :
    n.argumentList? = some a ↔ n.child? .arguments = some a ∧ a.kind = .arguments := by
  simp [argumentList?, Option.filter_eq_some_iff]

theorem opensBlock_iff {n : Node} :
    n.opensBlock source identifiers = true ↔ n.Opens source identifiers := by
  rw [opensBlock, Bool.and_eq_true, Bool.and_eq_true, beq_iff_eq, Option.isSome_iff_exists,
    Option.any_eq_true]
  constructor
  · rintro ⟨⟨hk, a, ha⟩, b, hb, hid⟩
    obtain ⟨f, hf, hl⟩ := calleeBase?_eq_some_iff.mp hb
    exact ⟨hk, ⟨a, argumentList?_eq_some_iff.mp ha⟩, ⟨f, b, hf, hl, by simpa using hid⟩⟩
  · rintro ⟨hk, ⟨a, ha⟩, f, b, hf, hl, hid⟩
    exact ⟨⟨hk, a, argumentList?_eq_some_iff.mpr ha⟩, b,
      calleeBase?_eq_some_iff.mpr ⟨f, hf, hl⟩, by simpa using hid⟩

instance (n : Node) : Decidable (n.Opens source identifiers) :=
  decidable_of_iff _ opensBlock_iff

theorem isLiteral_iff {n : Node} : n.isLiteral = true ↔ n.Fixed := by
  unfold isLiteral Fixed hasSubstitution
  cases n.kind <;> simp

theorem naming_iff {a : Node} :
    (a.head.named && !a.head.extra && a.isLiteral) = true ↔ a.Naming := by
  simp only [Bool.and_eq_true, Bool.not_eq_true', isLiteral_iff, Naming, and_assoc]

/-- Every call that opens a block gives it the name it should. -/
theorem Opens.named {n : Node} (h : n.Opens source identifiers) :
    n.Named source (n.blockName? source) := by
  obtain ⟨args, hargs, hk⟩ := h.arguments
  have hlist := argumentList?_eq_some_iff.mpr ⟨hargs, hk⟩
  rw [blockName?, literalArgument?, hlist, Option.bind_some]
  cases hfound : args.children.find? fun c => c.head.named && !c.head.extra && c.isLiteral with
  | none =>
    apply Named.unknown hargs
    intro a ha hname
    exact List.find?_eq_none.mp hfound a ha (naming_iff.mpr hname)
  | some arg =>
    obtain ⟨harg, before, after, hsplit, hbefore⟩ := List.find?_eq_some_iff_append.mp hfound
    apply Named.literal hargs hsplit _ (naming_iff.mp harg)
    intro b hb hname
    have hnot := hbefore b hb
    rw [naming_iff.mpr hname] at hnot
    cases hnot

end Node

end CursorCommand
