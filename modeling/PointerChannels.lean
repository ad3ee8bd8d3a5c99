import PointerChannels.Config.Document
import PointerChannels.Cycle
import PointerChannels.Pass
import PointerChannels.Program.Command
import PointerChannels.Program.Tree
import PointerChannels.Proofs.Analysis.Analyze
import PointerChannels.Proofs.Analysis.Budget
import PointerChannels.Proofs.Analysis.Escape
import PointerChannels.Proofs.Analysis.Targets
import PointerChannels.Proofs.Analysis.Total
import PointerChannels.Proofs.Config.Document
import PointerChannels.Proofs.Config.Override
import PointerChannels.Proofs.Cycle.Probe
import PointerChannels.Proofs.Cycle.Walk
import PointerChannels.Proofs.Encoding.Callback
import PointerChannels.Proofs.Encoding.Cover
import PointerChannels.Proofs.Encoding.Gather
import PointerChannels.Proofs.Encoding.Image
import PointerChannels.Proofs.Encoding.Live
import PointerChannels.Proofs.Encoding.Order
import PointerChannels.Proofs.Encoding.Range
import PointerChannels.Proofs.Encoding.Reach
import PointerChannels.Proofs.Encoding.Summary
import PointerChannels.Proofs.Encoding.View
import PointerChannels.Proofs.Encoding.Written
import PointerChannels.Proofs.Fold
import PointerChannels.Proofs.Generation.Draft
import PointerChannels.Proofs.Generation.Registers
import PointerChannels.Proofs.Generation.Total
import PointerChannels.Proofs.Generation.Walk
import PointerChannels.Proofs.Generation.Whole
import PointerChannels.Proofs.Graph.Dot
import PointerChannels.Proofs.Graph.History
import PointerChannels.Proofs.Graph.OfPool
import PointerChannels.Proofs.Graph.Portrait
import PointerChannels.Proofs.Graph.SameView
import PointerChannels.Proofs.Graph.Total
import PointerChannels.Proofs.Idempotence
import PointerChannels.Proofs.Inclusion.Bookkeeping
import PointerChannels.Proofs.Inclusion.Differences
import PointerChannels.Proofs.Inclusion.Edge
import PointerChannels.Proofs.Inclusion.Frame
import PointerChannels.Proofs.Inclusion.Invariant
import PointerChannels.Proofs.Inclusion.Least
import PointerChannels.Proofs.Inclusion.Observed
import PointerChannels.Proofs.Inclusion.Pops
import PointerChannels.Proofs.Inclusion.Restrict
import PointerChannels.Proofs.Inclusion.Tally
import PointerChannels.Proofs.Pass
import PointerChannels.Proofs.Pass.Forget
import PointerChannels.Proofs.Pool.Balance
import PointerChannels.Proofs.Pool.Classes
import PointerChannels.Proofs.Pool.History
import PointerChannels.Proofs.Program.Bare
import PointerChannels.Proofs.Program.Coherent
import PointerChannels.Proofs.Program.Facts
import PointerChannels.Proofs.Program.Numbering
import PointerChannels.Proofs.Program.Shape
import PointerChannels.Proofs.Program.State
import PointerChannels.Proofs.Solution
import PointerChannels.Proofs.Unification.Congruence
import PointerChannels.Proofs.Unification.Soundness
import PointerChannels.Proofs.Visit
import PointerChannels.Proofs.Yaml.Line
import PointerChannels.Proofs.Yaml.Outline
