import PointerChannels.Config.Basic
import PointerChannels.Generation
import PointerChannels.Graph.OfPool
import PointerChannels.Graph.Text
import PointerChannels.Solver

/-!
# The points-to analysis of a program

Check the settings, generate constraints within the entity budget, solve them with the solver
that the settings choose for that many entities, and build the graph.  Nothing is solved when
the settings are wrong or the budget is too small.

The order in which the precise solver takes the members of sets is a parameter of an analysis.
-/

namespace PointerChannels.Analysis

/-- Why an analysis did not take place. -/
inductive Error where
  /-- It needed more entities than allowed. -/
  | exhausted (limit : Nat)
  /-- Its settings are wrong. -/
  | invalidConfig (cause : Config.Error)
deriving DecidableEq, Repr

/-- The wording of an error. -/
def Error.message : Error → String
  | exhausted limit => s!"Resource exhausted: entity limit of {limit} reached"
  | invalidConfig cause => "Invalid analysis configuration: " ++ cause.message

/-- What an analysis tells about itself. -/
structure Stats where
  /-- The solver used; never the automatic mode. -/
  mode : Config.Mode
  /-- How many entities there were. -/
  entities : Nat
  /-- How many values have a register. -/
  registers : Nat
  /-- The constraints solved. -/
  constraints : List Constraint
  /-- The solver's counters. -/
  solver : Solver.Stats
  /-- The graph's counts. -/
  graph : Graph.Stats
deriving DecidableEq, Repr

/-- The outcome of an analysis. -/
structure Result where
  /-- The points-to graph. -/
  graph : Graph
  /-- What the analysis tells about itself. -/
  stats : Stats
  /-- The dump written to the log, if the settings ask for one. -/
  dump : Option String
deriving DecidableEq, Repr

/-- The solver of a mode. -/
def solverFor (config : Config.Analysis) : Config.Mode → Solver
  | .fast => .unification
  | _ => .inclusion config.inclusion

/-- The settings, if they are in range. -/
def checked (config : Config.Analysis) : Except (Failure Error) Unit :=
  match config.validate with
  | .ok () => .ok ()
  | .error e => .error (.error (.invalidConfig e))

/-- The constraints of a program, within the budget of the settings. -/
def generated (config : Config.Analysis) (program : Program) :
    Except (Failure Error) Generation.Draft :=
  match Generation.generate program config.maxEntities with
  | .ok draft => .ok draft
  | .error e => .error (e.mapError fun e => .exhausted e.limit)

/-- Analyze a program. -/
def analyze (config : Config.Analysis) (program : Program)
    (order : Inclusion.SetOrder := .ascending) : Except (Failure Error) Result := do
  checked config
  let draft ← generated config program
  let entities := draft.pool.size
  let mode := config.resolveMode entities
  let (pool, solver) ← (solverFor config mode).solve draft.pool draft.constraints order
  let graph ← Graph.ofPool 0 pool program
  let counts ← graph.counted
  return {
    graph
    dump := if config.dumpDot then some graph.dot else none
    stats := {
      mode, entities, solver
      registers := draft.pool.registers.length
      constraints := draft.constraints
      graph := counts } }

end PointerChannels.Analysis
