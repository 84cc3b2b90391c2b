/-!
# Test blocks

A block is a test or a suite of tests in a source text: its name, the names of the blocks around it,
and its span of bytes. A span contains the offset behind its last byte, so a cursor at the end of a
block is still in it.
-/
namespace CursorCommand

/-- A test or a suite. A name is unknown where it is not written as a literal. -/
structure Block where
  name : Option String
  /-- Names of the enclosing blocks, outermost first. -/
  parents : List (Option String)
  start : Nat
  stop : Nat
  deriving DecidableEq, Repr

namespace Block

/-- The span of a block contains an offset, both ends included. -/
def Contains (b : Block) (offset : Nat) : Prop := b.start ≤ offset ∧ offset ≤ b.stop

instance (b : Block) (offset : Nat) : Decidable (b.Contains offset) := by
  unfold Contains
  infer_instance

/-- The span of `a` lies inside the span of `b` or equals it. -/
def Within (a b : Block) : Prop := b.start ≤ a.start ∧ a.stop ≤ b.stop

instance (a b : Block) : Decidable (a.Within b) := by
  unfold Within
  infer_instance

def depth (b : Block) : Nat := b.parents.length

theorem Within.refl (a : Block) : a.Within a := ⟨Nat.le_refl _, Nat.le_refl _⟩

theorem Within.trans {a b c : Block} (hab : a.Within b) (hbc : b.Within c) : a.Within c :=
  ⟨Nat.le_trans hbc.1 hab.1, Nat.le_trans hab.2 hbc.2⟩

end Block

end CursorCommand
