import PointerChannels.Analysis
import PointerChannels.Encoding

/-!
# The whole pass

Analyze a program and encode its memory states under one configuration.  The program
is the state that the pass runs in: what the pass tells, or why it failed, comes with
the program as it is then.
-/

namespace PointerChannels

/-- An error of any part of the library. -/
inductive Error where
  /-- The analysis did not take place. -/
  | analysis (cause : Analysis.Error)
  /-- An edge was refused. -/
  | graph (cause : Graph.Refusal)
  /-- The configuration is wrong. -/
  | config (cause : Config.Error)
deriving DecidableEq, Repr

/-- The wording of an error. -/
def Error.message : Error → String
  | analysis cause => "Analysis error: " ++ cause.message
  | graph cause => "Graph error: " ++ cause.message
  | config cause => "Configuration error: " ++ cause.message

namespace Pass

/-- What the pass tells. -/
structure Report where
  /-- The points-to graph. -/
  graph : Graph
  /-- What the analysis tells about itself. -/
  analysis : Analysis.Stats
  /-- What the encoding tells about itself. -/
  encoding : Encoding.Stats
deriving DecidableEq, Repr

/-- The outcome of the pass: what it tells, and the program with its memory states encoded. -/
structure Output extends Report where
  /-- The program. -/
  program : Program
deriving DecidableEq, Repr

/-- The configuration, if it is in range. -/
def checked (config : Config) : Except (Failure Error) Unit :=
  match config.validate with
  | .ok () => .ok ()
  | .error e => .error (.error (.config e))

/-- The analysis of a program under a configuration. -/
def analyzed (order : Inclusion.SetOrder) (config : Config) (program : Program) :
    Except (Failure Error) Analysis.Result :=
  match Analysis.analyze config.analysisConfig program order with
  | .ok result => .ok result
  | .error e => .error (e.mapError .analysis)

/-- Analyze the program at hand and encode its memory states in place. -/
def perform (order : Inclusion.SetOrder) (config : Config) :
    EStateM (Failure Error) Program Report := do
  checked config
  let encoder := config.encoderConfig
  let result ← analyzed order config (← get)
  let policy ← Channel.Policy.create encoder.policy result.graph encoder.maxChannels
  let (encoding, encoded) ← Encoding.encode policy result.graph (← get)
  set encoded
  return { graph := result.graph, analysis := result.stats, encoding }

/-- Analyze a program and encode its memory states. -/
def run (config : Config) (program : Program) (order : Inclusion.SetOrder := .ascending) :
    Except (Failure Error) Output := do
  let (report, program) ← Failure.settled (perform order config program)
  return { report with program }

end Pass
end PointerChannels
