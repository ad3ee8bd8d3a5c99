import PointerChannels.Inclusion
import PointerChannels.Unification

/-!
# Solvers

The two ways to solve constraints behind one name.
-/

namespace PointerChannels

/-- A way to solve constraints. -/
inductive Solver where
  /-- Merge what is assigned. -/
  | unification
  /-- Include what is assigned. -/
  | inclusion (settings : Inclusion.Settings)
deriving DecidableEq, Repr

namespace Solver

/-- The counters of a run. -/
inductive Stats where
  /-- Those of the fast solver. -/
  | unification (stats : Unification.Stats)
  /-- Those of the precise solver. -/
  | inclusion (stats : Inclusion.Stats)
deriving DecidableEq, Repr

/-- The name of a solver. -/
def name : Solver → String
  | unification => "steensgaard"
  | inclusion _ => "andersen"

/-- Solve constraints over a pool, taking the members of sets in the given order. -/
def solve (solver : Solver) (pool : Pool) (constraints : List Constraint)
    (order : Inclusion.SetOrder := .ascending) : Except Fault (Pool × Stats) :=
  match solver with
  | .unification => (Unification.solve pool constraints).map fun (pool, stats) =>
      (pool, .unification stats)
  | .inclusion settings =>
    (Inclusion.solve settings order pool constraints).map fun (pool, stats) =>
      (pool, .inclusion stats)

end Solver
end PointerChannels
