import PointerChannels.Graph.Basic

/-!
# Channel policies

A channel orders memory operations: operations that share a channel keep their order, others
need not.  A policy numbers the memory nodes of one graph in dump order and says which channel
each belongs to: all the same, each its own, or each its own modulo a bound.
-/

namespace PointerChannels

/-- The number of a channel. -/
abbrev Channel := Nat

namespace Channel

/-- How memory nodes share channels. -/
inductive PolicyKind where
  /-- All share one channel. -/
  | single
  /-- Each has its own. -/
  | perObject
  /-- Each has its own, folded below a bound. -/
  | bounded
deriving DecidableEq, Repr

/-- The memory nodes of a graph, numbered. -/
structure Numbering where
  /-- The memory nodes; a node's number is its place. -/
  nodes : List Nat
deriving DecidableEq, Repr

/-- The numbering of a graph's memory nodes. -/
def Numbering.of (g : Graph) : Numbering := ⟨g.memoryNodes⟩

/-- The number of a node. -/
def Numbering.ordinal (n : Numbering) (node : Nat) : Except Fault Nat :=
  match n.nodes.idxOf? node with
  | some ordinal => .ok ordinal
  | none => .error (.notNumbered node)

/-- A policy for the nodes of one graph. -/
inductive Policy where
  /-- One channel for all of memory. -/
  | single
  /-- A channel per memory node. -/
  | perObject (numbering : Numbering)
  /-- A channel per memory node, folded modulo `limit`. -/
  | bounded (numbering : Numbering) (limit : Nat)
deriving DecidableEq, Repr

/-- The largest number a channel can have. -/
def maxNumber : Nat := 4294967295

namespace Policy

/-- The policy of a kind for a graph.  A bounded one needs between one channel and as
many as can be numbered. -/
def create (kind : PolicyKind) (g : Graph) (limit : Nat) : Except Fault Policy :=
  match kind with
  | .single => .ok .single
  | .perObject => .ok (.perObject (.of g))
  | .bounded =>
    if limit = 0 then .error .noChannels
    else if maxNumber < limit then .error (.tooManyChannels limit)
    else .ok (.bounded (.of g) limit)

/-- The name of the policy. -/
def name : Policy → String
  | single => "single"
  | perObject _ => "per_object"
  | bounded .. => "bounded"

/-- How many channels there are. -/
def channelCount : Policy → Nat
  | single => 1
  | perObject numbering => numbering.nodes.length
  | bounded numbering limit => min numbering.nodes.length limit

/-- The channel of a memory node. -/
def channelOf (policy : Policy) (node : Nat) : Except Fault Channel :=
  match policy with
  | single => .ok 0
  | perObject numbering => numbering.ordinal node
  | bounded numbering limit => (numbering.ordinal node).map (· % limit)

end Policy
end Channel
end PointerChannels
