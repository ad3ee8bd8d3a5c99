import PointerChannels.Entity
import PointerChannels.Visit

/-!
# Points-to graphs

The result of an analysis: a node per register and per memory object, and an edge from each
node to every memory node it may point to.  Each edge is kept at both of its ends.  Nodes `0`
and `1` are unknown and external memory.

An edge is made between two node references; a reference carries the identity of its
graph.  An edge that joins two graphs, or that points to a register, is refused.  A
request for an edge works on the graph in place: what it tells, or why it failed, comes
with the graph as it is then.

Numbers of nodes stand for 32-bit numbers and are unbounded here, so whatever is said of a
graph is meant for one of fewer than `2 ^ 32` nodes.
-/

namespace PointerChannels

namespace Graph

/-- A node of the graph. -/
structure Node where
  /-- What it stands for. -/
  kind : Kind
  /-- Its name. -/
  label : String
  /-- The part of the program it was made for. -/
  origin : Origin
  /-- The nodes it may point to. -/
  targets : IndexSet
  /-- The nodes that may point to it. -/
  sources : IndexSet
deriving DecidableEq, Repr

/-- A node by its graph's identity and its number there. -/
structure Ref where
  /-- The identity of the graph. -/
  graph : Nat
  /-- The node's number. -/
  index : Nat
deriving DecidableEq, Repr

/-- Why an edge was refused. -/
inductive Refusal where
  /-- A node belongs to another graph. -/
  | crossGraph (graph source target : Nat)
  /-- The target is a register. -/
  | registerTarget (node : Nat)
deriving DecidableEq, Repr

/-- The text of a graph's identity. -/
def idText (graph : Nat) : String := s!"graph#{graph}"

/-- The wording of a refusal. -/
def Refusal.message : Refusal → String
  | crossGraph graph source target =>
    "Edge between different points-to graphs: " ++ idText source ++ " -> " ++ idText target ++
      " (inserting into " ++ idText graph ++ ")"
  | registerTarget node => "Register node " ++ nodeText node ++ " cannot be a points-to target"

end Graph

/-- A points-to graph. -/
structure Graph where
  /-- The identity that references to its nodes carry. -/
  id : Nat
  /-- The nodes, by number. -/
  nodes : Array Graph.Node
  /-- The register node of each value that has one, in the order they were made. -/
  registers : List (ValueId × Nat)
  /-- The memory nodes by origin, latest first. -/
  memory : List (Origin × Nat)
deriving DecidableEq, Repr

namespace Graph

/-- The node of unknown memory. -/
def unknown : Nat := 0

/-- The node of external memory. -/
def external : Nat := 1

/-! ## Making nodes -/

/-- The number of nodes. -/
def size (g : Graph) : Nat := g.nodes.size

/-- Add a node without edges. -/
def push (g : Graph) (kind : Kind) (label : String) (origin : Origin) : Graph :=
  { g with nodes := g.nodes.push ⟨kind, label, origin, .empty, .empty⟩ }

/-- The graph of the two sentinels. -/
def new (id : Nat) : Graph :=
  let bare : Graph := ⟨id, #[], [], []⟩
  (bare.push .unknownMemory "unknown" .synthetic).push .externalMemory "external" .synthetic

/-- The register node of a value. -/
def register? (g : Graph) (value : ValueId) : Option Nat := g.registers.lookup value

/-- The latest memory node of an origin. -/
def memoryNode? (g : Graph) (origin : Origin) : Option Nat := g.memory.lookup origin

/-- Add the register node of a value that has none. -/
def addRegister (g : Graph) (value : ValueId) (label : String) : Except Fault (Nat × Graph) :=
  if (g.register? value).isSome then .error (.registerNodeTaken value)
  else
    let index := g.size
    let g := g.push .register label (.value value)
    .ok (index, { g with registers := g.registers ++ [(value, index)] })

/-- Add a memory node; it is found by its origin from now on. -/
def addMemory (g : Graph) (kind : Kind) (label : String) (origin : Origin) :
    Except Fault (Nat × Graph) :=
  if kind.isMemoryObject && !kind.isSentinel then
    let index := g.size
    let g := g.push kind label origin
    .ok (index, if origin = .synthetic then g
      else { g with memory := (origin, index) :: g.memory })
  else
    .error (.notAllocatable kind)

/-! ## Edges -/

/-- A node by number. -/
def node (g : Graph) (index : Nat) : Except Fault Node := entryAt g.nodes index

/-- The reference of a node of the graph. -/
def ref (g : Graph) (index : Nat) : Except Fault Ref :=
  if index < g.size then .ok ⟨g.id, index⟩ else .error (.nodeOutOfRange index)

/-- What a node may point to; an index without a node points to nothing. -/
def targetsOf (g : Graph) (index : Nat) : IndexSet :=
  (g.nodes[index]?.map (·.targets)).getD .empty

/-- What may point to a node. -/
def sourcesOf (g : Graph) (index : Nat) : IndexSet :=
  (g.nodes[index]?.map (·.sources)).getD .empty

/-- What a node stands for, if it exists. -/
def kindOf? (g : Graph) (index : Nat) : Option Kind := g.nodes[index]?.map (·.kind)

/-- Make an edge, at both ends; tells whether it is new. -/
def insertEdge (g : Graph) (source target : Nat) : Bool × Graph :=
  if target ∈ g.targetsOf source then (false, g)
  else
    let nodes := g.nodes.modify source fun n => { n with targets := n.targets.insert target }
    let nodes := nodes.modify target fun n => { n with sources := n.sources.insert source }
    (true, { g with nodes })

/-- Remove an edge, at both ends; tells whether it was there. -/
def deleteEdge (g : Graph) (source target : Nat) : Bool × Graph :=
  if target ∈ g.targetsOf source then
    let nodes := g.nodes.modify source fun n => { n with targets := n.targets.erase target }
    let nodes := nodes.modify target fun n => { n with sources := n.sources.erase source }
    (true, { g with nodes })
  else
    (false, g)

/-- Make an edge between two nodes of the graph, the second of which is memory. -/
def joinNodes (g : Graph) (source target : Nat) : Except Fault Graph := do
  let node ← g.node target
  if !node.kind.isMemoryObject then
    throw (.notMemory target)
  let _ ← g.node source
  return (g.insertEdge source target).2

/-- Whether the graph admits an edge: both ends are its own and the target is memory. -/
def checkEdge (g : Graph) (source target : Ref) : Except (Failure Refusal) Unit := do
  if source.graph ≠ g.id ∨ target.graph ≠ g.id then
    throw (.error (.crossGraph g.id source.graph target.graph))
  let node ← g.node target.index
  if !node.kind.isMemoryObject then
    throw (.error (.registerTarget target.index))
  let _ ← g.node source.index

/-- Change an edge of the graph at hand, in place, if the graph admits it. -/
def request (change : Graph → Nat → Nat → Bool × Graph) (source target : Ref) :
    EStateM (Failure Refusal) Graph Bool := do
  (← get).checkEdge source target
  let (told, g) := change (← get) source.index target.index
  set g
  return told

/-- Make an edge; tells whether it is new. -/
def addEdge (g : Graph) (source target : Ref) : Except (Failure Refusal) (Bool × Graph) :=
  Failure.settled (request insertEdge source target g)

/-- Remove an edge; tells whether it was there. -/
def removeEdge (g : Graph) (source target : Ref) : Except (Failure Refusal) (Bool × Graph) :=
  Failure.settled (request deleteEdge source target g)

/-! ## Questions -/

/-- Every node. -/
def indices (g : Graph) : List Nat := List.range g.size

/-- The values that have a register node and the nodes, by value. -/
def registerTable (g : Graph) : List (ValueId × Nat) := byValue g.registers

/-- The number of nodes of a kind. -/
def countKind (g : Graph) (kind : Kind) : Nat := g.nodes.toList.countP (·.kind = kind)

/-- The number of edges. -/
def numEdges (g : Graph) : Nat :=
  g.nodes.toList.foldl (fun edges node => edges + node.targets.size) 0

/-- The nodes of a kind, in order. -/
def nodesOfKind (g : Graph) (kind : Kind) : List Nat :=
  g.indices.filter (g.kindOf? · = some kind)

/-- The nodes, kind by kind in dump order. -/
def dumpOrder (g : Graph) : List Nat := Kind.all.flatMap g.nodesOfKind

/-- The memory nodes, kind by kind in dump order. -/
def memoryNodes (g : Graph) : List Nat :=
  g.dumpOrder.filter fun i => (g.kindOf? i).any (·.isMemoryObject)

/-- The nodes that a list of nodes leads to by zero or more edges, in breadth-first order. -/
def reachableFrom (g : Graph) (start : List Nat) : List Nat :=
  visit (fun i => (g.targetsOf i).toList) g.size start

/-- The nodes that a list of nodes leads to, each of which is looked up. -/
def walkFrom (g : Graph) (start : List Nat) : Except Fault (List Nat) := do
  let met := g.reachableFrom start
  met.forM (checkIndex g.nodes)
  return met

/-- The memory, sentinels apart, that code outside the unit can get at. -/
def escaped (g : Graph) : IndexSet :=
  .ofList ((g.reachableFrom (g.targetsOf external).toList).filter fun i =>
    (g.kindOf? i).any (!·.isSentinel))

/-- Whether two values may refer to the same memory; values without a register node do not. -/
def mayAlias (g : Graph) (a b : ValueId) : Bool :=
  match g.register? a, g.register? b with
  | some a, some b => !(g.targetsOf a).disjoint (g.targetsOf b)
  | _, _ => false

/-- Counts of a graph. -/
structure Stats where
  /-- Register nodes. -/
  registers : Nat
  /-- Stack allocations. -/
  allocas : Nat
  /-- Heap allocations. -/
  mallocs : Nat
  /-- Functions. -/
  allocators : Nat
  /-- Imported symbols. -/
  imports : Nat
  /-- Edges. -/
  edges : Nat
  /-- Escaped memory nodes. -/
  escaped : Nat
deriving DecidableEq, Repr

/-- The counts of a graph. -/
def stats (g : Graph) : Stats where
  registers := g.registers.length
  allocas := g.countKind .alloca
  mallocs := g.countKind .malloc
  allocators := g.countKind .allocator
  imports := g.countKind .importSymbol
  edges := g.numEdges
  escaped := g.escaped.size

/-- The counts of a graph, whose edges from external memory are followed for it. -/
def counted (g : Graph) : Except Fault Stats := do
  let _ ← g.walkFrom [external]
  return g.stats

end Graph
end PointerChannels
