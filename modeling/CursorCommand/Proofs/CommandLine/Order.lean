import CursorCommand.CommandLine.Run
import CursorCommand.Proofs.CommandLine.Arguments
import Mathlib.Data.List.Perm.Basic

/-!
# The order of the command line

Options may stand anywhere between the positional arguments. What a run does depends on the order
of the positional arguments, on the order in which one option is given several values, and on
nothing else of the order.
-/
namespace CursorCommand

namespace ArgumentUnit

/-- The same units in another order, which keeps that of the positional arguments and that of the
values of every option. -/
structure Reordered (us vs : List ArgumentUnit) : Prop where
  perm : us.Perm vs
  positionals : us.filterMap positional? = vs.filterMap positional?
  values : ∀ option, us.filterMap (value? option) = vs.filterMap (value? option)

variable {us vs : List ArgumentUnit}

/-- Of several values the last counts, so their order among themselves decides. -/
theorem Reordered.findSome?_value? (h : Reordered us vs) (option : ValueOption) :
    us.reverse.findSome? (value? option) = vs.reverse.findSome? (value? option) := by
  have hlast (units : List ArgumentUnit) : units.reverse.findSome? (value? option) =
      (units.filterMap (value? option)).getLast? := by
    rw [← List.head?_filterMap, List.filterMap_reverse, List.head?_reverse]
  rw [hlast us, hlast vs, h.values option]

theorem Reordered.ofUnits_eq (h : Reordered us vs) : Options.ofUnits us = Options.ofUnits vs := by
  rw [Options.ofUnits, Options.ofUnits, h.findSome?_value? .workspace, h.findSome?_value? .config,
    h.findSome?_value? .command, h.perm.any_eq, h.perm.any_eq, h.positionals]

end ArgumentUnit

namespace CommandLine

open ArgumentUnit

/-- Units alone are read to their end. -/
theorem scan_texts (units : List ArgumentUnit) :
    Options.initial.scan (units.flatMap texts) = .ok (.resolve (Options.ofUnits units)) := by
  rw [← List.append_nil (units.flatMap texts), Options.scan_units, Options.scan]

/-- The order of the options does not matter. -/
theorem run_reordered (m : Machine) {us vs : List ArgumentUnit} (h : Reordered us vs) :
    Outcome.ofResult (run m (us.flatMap texts)) = Outcome.ofResult (run m (vs.flatMap texts)) := by
  rw [run, run, scan_texts us, scan_texts vs, h.ofUnits_eq]

/-- A value that looks like a flag stays a value wherever it stands, and of two commands the later
one is resolved, for the kind that a flag behind both selects. -/
theorem run_reordered_commands :
    let m : Machine :=
      ⟨"/w", fun path => if path = "/w/a.ts" then some "it()" else none, fun _ => Node.empty⟩
    let us : List ArgumentUnit :=
      [.positional "a.ts" (by decide), .value .command "--blocks", .positional "0" (by decide),
        .value .command "jest ${testName}", .positional "3" (by decide), .updateSnapshots]
    let vs : List ArgumentUnit :=
      [.updateSnapshots, .value .command "--blocks", .value .command "jest ${testName}",
        .positional "a.ts" (by decide), .positional "0" (by decide), .positional "3" (by decide)]
    Reordered us vs ∧
      Outcome.ofResult (run m (us.flatMap texts)) = Outcome.ofResult (run m (vs.flatMap texts)) ∧
      Outcome.ofResult (run m (vs.flatMap texts)) = ⟨0, "jest .*\n", none⟩ := by
  intro m us vs
  have h : Reordered us vs := by
    refine ⟨by decide, rfl, ?_⟩
    intro option
    cases option <;> rfl
  exact ⟨h, run_reordered m h, by decide +kernel⟩

end CommandLine

end CursorCommand
