import PointerChannels.Graph.Basic
import PointerChannels.Pool

/-!
# The graph of a solved pool

Every memory object gets a memory node, in order of entities, and every value with a register a
register node, in order of values.  The sentinels of the pool are the sentinels of the graph.
A node then points to the nodes of all that its entity's class points to, so values that share
an entity, and entities that share a class, have nodes with equal targets.
-/

namespace PointerChannels.Graph

/-- The kind of an entity's memory node; registers and sentinels get none here. -/
def Kind.ofEntity? : Entity.Kind → Option Kind
  | .allocaObject => some .alloca
  | .heapObject => some .malloc
  | .functionObject => some .allocator
  | .importObject => some .importSymbol
  | .register | .unknownMemory | .externalMemory => none

/-- Add the memory node of an entity to the graph, and to the table of
memory nodes by entity. -/
def addObject (state : Graph × List (Nat × Nat)) (entry : Pool.Cell × Nat) :
    Except Fault (Graph × List (Nat × Nat)) :=
  match Kind.ofEntity? entry.1.kind with
  | none => .ok state
  | some kind => do
    let (node, g) ← state.1.addMemory kind entry.1.label entry.1.origin
    return (g, state.2 ++ [(entry.2, node)])

/-- Add the register nodes of values, each named as the program names the value; the table
gives the entity behind each node. -/
def addRegisters (program : Program) (g : Graph) (registers : List (ValueId × Nat)) :
    Except Fault (Graph × List (Nat × Nat)) :=
  registers.foldlM (fun (g, table) (value, entity) => do
    let named ← program.value value
    let (node, g) ← g.addRegister value named.name
    return (g, table ++ [(node, entity)])) (g, [])

/-- The nodes of a set of entities, ascending. -/
def targetNodes (memory : List (Nat × Nat)) (objects : IndexSet) : Except Fault IndexSet := do
  let nodes ← objects.toList.mapM fun object =>
    match memory.lookup object with
    | some node => Except.ok node
    | none => Except.error (.noMemoryNode object)
  return .ofList nodes

/-- Let a node point to the nodes of all that its entity points to. -/
def connect (pool : Pool) (memory : List (Nat × Nat)) (g : Graph) (source : Nat × Nat) :
    Except Fault Graph := do
  let objects ← pool.pointsToOf (pool.handle source.2)
  let targets ← targetNodes memory objects
  targets.toList.foldlM (fun g target => g.joinNodes source.1 target) g

/-- The graph of a solved pool. -/
def ofPool (id : Nat) (pool : Pool) (program : Program) : Except Fault Graph := do
  let sentinels := [(Pool.unknown, unknown), (Pool.external, external)]
  let (g, memory) ← pool.cells.toList.zipIdx.foldlM addObject (new id, sentinels)
  let (g, registers) ← addRegisters program g pool.registerTable
  let sources := pool.indices.filterMap fun entity => (memory.lookup entity).map (·, entity)
  (sources ++ registers).foldlM (connect pool memory) g

end PointerChannels.Graph
