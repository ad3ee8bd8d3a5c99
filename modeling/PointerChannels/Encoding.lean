import PointerChannels.Channel
import PointerChannels.Program.Basic

/-!
# Encoding memory states

Every memory operation is given the channels it uses and the channels it defines.

* A load uses the channels of what its address may refer to; a store or a release uses
  and defines them; a copy uses those of both addresses and defines those of the target;
  an allocation defines the channel of its object.  An address that refers to nothing
  stands for unknown memory.
* A call uses and defines its live set: the channels of all memory that its arguments and
  results lead to, of all that its callees touch, and, unless its callees are fully known,
  of unknown memory, of external memory and of all escaped memory.  An empty live set
  stands for unknown memory.

What a callee touches is the summary of its function: the channels of its own operations,
closed over the functions it calls.
-/

namespace PointerChannels.Encoding

/-- What an encoding tells about itself. -/
structure Stats where
  /-- The policy's name. -/
  policy : String
  /-- How many channels the policy has. -/
  channelCount : Nat
  /-- Memory operations written. -/
  operations : Nat
  /-- Loads. -/
  loads : Nat
  /-- Stores. -/
  stores : Nat
  /-- Stack and heap allocations. -/
  allocations : Nat
  /-- Releases. -/
  frees : Nat
  /-- Copies. -/
  memcpys : Nat
  /-- Calls. -/
  calls : Nat
  /-- Calls whose callees were not fully known. -/
  callsWidened : Nat
  /-- Addresses without targets, and calls with an empty live set. -/
  unknownFallbacks : Nat
  /-- Distinct channels in the states of the program. -/
  channelsUsed : Nat
  /-- The most channels of one operation. -/
  maxWidth : Nat
  /-- Rounds until the summaries were closed. -/
  summaryRounds : Nat
deriving DecidableEq, Repr

/-- The channels of a memory operation other than a call. -/
structure Access where
  /-- The operation. -/
  operation : OperationId
  /-- The channels it uses. -/
  uses : IndexSet
  /-- The channels it defines. -/
  defs : IndexSet
  /-- How many of its addresses had no target. -/
  fallbacks : Nat
deriving DecidableEq, Repr

/-- A call before its callees are known to the end. -/
structure Call where
  /-- The operation. -/
  operation : OperationId
  /-- The function it stands in. -/
  caller : FunctionId
  /-- The functions it may reach, one per target. -/
  callees : List FunctionId
  /-- Whether it may reach anything else. -/
  widened : Bool
  /-- The channels it has apart from its callees. -/
  locals : IndexSet
deriving DecidableEq, Repr

/-! ## Channels of addresses -/

/-- What an encoding looks things up in. -/
structure View where
  /-- The points-to graph. -/
  graph : Graph
  /-- The channel of each memory node. -/
  policy : Channel.Policy

namespace View

/-- The register node of an operand. -/
def register (v : View) (value : ValueId) : Except Fault Nat :=
  match v.graph.register? value with
  | some node => .ok node
  | none => .error (.noRegisterNode value)

/-- The channels of nodes. -/
def channels (v : View) (nodes : List Nat) : Except Fault IndexSet := do
  let channels ← nodes.mapM v.policy.channelOf
  return .ofList channels

/-- What an address may refer to. -/
def targets (v : View) (value : ValueId) : Except Fault IndexSet := do
  let register ← v.register value
  checkIndex v.graph.nodes register
  return v.graph.targetsOf register

/-- The channels of what an address may refer to, and whether unknown
memory had to stand in. -/
def address (v : View) (value : ValueId) : Except Fault (IndexSet × Nat) := do
  let targets ← v.targets value
  if targets.isEmpty then
    return (← v.channels [Graph.unknown], 1)
  else
    return (← v.channels targets.toList, 0)

/-- The channels of all memory that an address leads to. -/
def reachable (v : View) (value : ValueId) : Except Fault IndexSet := do
  let targets ← v.targets value
  let met ← v.graph.walkFrom targets.toList
  v.channels met

/-- The channels that code outside the unit may touch. -/
def outside (v : View) : Except Fault IndexSet := do
  let _ ← v.graph.walkFrom [Graph.external]
  v.channels (Graph.unknown :: Graph.external :: v.graph.escaped.toList)

/-! ## Operations -/

/-- The channel of an allocation: that of its own node. -/
def allocation (v : View) (op : Operation) : Except Fault Access :=
  match v.graph.memoryNode? (.operation op.id) with
  | some node => do
    let defs ← v.channels [node]
    return ⟨op.id, .empty, defs, 0⟩
  | none => .error (.noAllocationNode op.id)

/-- The channels of a memory operation other than a call. -/
def access (v : View) (op : Operation) : Except Fault Access :=
  match op.kind with
  | .load => do
    let (uses, fallbacks) ← v.address (← operandAt op.inputs 0)
    return ⟨op.id, uses, .empty, fallbacks⟩
  | .store | .free => do
    let (both, fallbacks) ← v.address (← operandAt op.inputs 0)
    return ⟨op.id, both, both, fallbacks⟩
  | .memcpy => do
    let (target, first) ← v.address (← operandAt op.inputs 0)
    let (source, second) ← v.address (← operandAt op.inputs 1)
    return ⟨op.id, source.union target, target, first + second⟩
  | .alloca | .malloc => v.allocation op
  | kind => .error (.notAccess kind.name)

/-- The function that a callee's target is, if it is one. -/
def function? (v : View) (target : Nat) : Option FunctionId :=
  match v.graph.nodes[target]? with
  | some { kind := .allocator, origin := .function f, .. } => some f
  | _ => none

/-- The channels of all memory that those of several values that hold addresses lead to. -/
def reachableAll (v : View) (program : Program) (values : List ValueId) :
    Except Fault IndexSet :=
  values.foldlM (fun channels value => do
    let found ← program.value value
    if found.isPointer then
      return channels.union (← v.reachable value)
    else
      return channels) .empty

/-- What is known of a call before its callees are known to the end. -/
def call (v : View) (program : Program) (caller : FunctionId) (op : Operation) :
    Except Fault Call :=
  match op.callee? with
  | none => .error (.noCallee op.id)
  | some callee => do
    let targets := (← v.targets callee).toList
    targets.forM (checkIndex v.graph.nodes)
    let callees := targets.filterMap v.function?
    let widened := targets.isEmpty || callees.length < targets.length
    let passed ← v.reachableAll program (op.arguments ++ op.outputs)
    let locals ← if widened then passed.union <$> v.outside else pure passed
    return ⟨op.id, caller, callees, widened, locals⟩

end View

/-! ## Summaries -/

/-- Let a caller's summary include a callee's; tells whether anything is new. -/
def absorb (caller : FunctionId) (summaries : Array IndexSet) (callee : FunctionId) :
    Except Fault (Bool × Array IndexSet) :=
  if callee = caller then .ok (false, summaries)
  else do
    let theirs ← entryAt summaries callee
    let ours ← entryAt summaries caller
    if theirs.subset ours then return (false, summaries)
    else return (true, summaries.modify caller (·.union theirs))

/-- Let each caller's summary include those of its callees, once; tells
whether anything is new. -/
def round (calls : List (FunctionId × List FunctionId)) (summaries : Array IndexSet) :
    Except Fault (Bool × Array IndexSet) :=
  (calls.flatMap fun (caller, callees) => callees.map (caller, ·)).foldlM
    (fun (changed, summaries) (caller, callee) => do
      let (new, summaries) ← absorb caller summaries callee
      return (changed || new, summaries)) (false, summaries)

/-- Rounds until one changes nothing, at most `bound`; tells how many there were. -/
def closeFor (calls : List (FunctionId × List FunctionId)) :
    Nat → Array IndexSet → Except Fault (Nat × Array IndexSet)
  | 0, summaries => .ok (0, summaries)
  | bound + 1, summaries => do
    match ← round calls summaries with
    | (false, summaries) => return (1, summaries)
    | (true, summaries) =>
      let (rounds, summaries) ← closeFor calls bound summaries
      return (rounds + 1, summaries)

/-- Close summaries over calls, each given by its caller and its callees; tells how many rounds
it took.  A round carries every summary one call further, and no function is more calls away
than there are functions. -/
def closeSummaries (calls : List (FunctionId × List FunctionId)) (summaries : Array IndexSet) :
    Except Fault (Nat × Array IndexSet) :=
  closeFor calls (summaries.size + 1) summaries

/-! ## The encoding -/

/-- What has been gathered of a program. -/
structure Draft where
  /-- The operations other than calls, in order. -/
  accesses : List Access
  /-- The calls, in order. -/
  calls : List Call
  /-- The summary of each function. -/
  summaries : Array IndexSet
deriving DecidableEq, Repr

/-- Add channels to the summary of a function. -/
def Draft.summarize (d : Draft) (f : FunctionId) (channels : IndexSet) :
    Except Fault Draft := do
  let _ ← entryAt d.summaries f
  return { d with summaries := d.summaries.modify f (·.union channels) }

/-- Gather one operation of a function. -/
def gather (v : View) (program : Program) (f : FunctionId) (d : Draft) (op : Operation) :
    Except Fault Draft :=
  if !op.kind.touchesMemory then .ok d
  else if op.kind = .call then do
    let call ← v.call program f op
    let d ← d.summarize f call.locals
    return { d with calls := d.calls ++ [call] }
  else do
    let access ← v.access op
    let d ← d.summarize f (access.uses.union access.defs)
    return { d with accesses := d.accesses ++ [access] }

/-- Gather all operations of a program. -/
def gatherAll (v : View) (program : Program) : Except Fault Draft :=
  program.functions.toList.foldlM (fun d f => f.body.toList.foldlM (gather v program f.id) d)
    ⟨[], [], Array.replicate program.functions.size .empty⟩

/-- The live set of a call, given the closed summaries, and whether unknown memory had to stand
in. -/
def liveSet (v : View) (summaries : Array IndexSet) (call : Call) :
    Except Fault (IndexSet × Nat) := do
  let live ← call.callees.foldlM (fun live callee => do
    return live.union (← entryAt summaries callee)) call.locals
  if live.isEmpty then
    return (← v.channels [Graph.unknown], 1)
  else
    return (live, 0)

/-- Write the states of operations other than calls. -/
def writeAccesses (program : Program) (accesses : List Access) : Except Fault Program :=
  accesses.foldlM (fun p a => p.setState a.operation (.encoded a.uses a.defs)) program

/-- Write the states of calls; the written accesses come with the program. -/
def writeCalls (v : View) (summaries : Array IndexSet) (program : Program)
    (calls : List Call) : Except Fault (List Access × Program) :=
  calls.foldlM (fun (written, p) call => do
    let (live, fallbacks) ← liveSet v summaries call
    let p ← p.setState call.operation (.encoded live live)
    return (written ++ [⟨call.operation, live, live, fallbacks⟩], p)) ([], program)

/-- How many operations of a program have a kind. -/
def countKind (program : Program) (kind : Operation.Kind) : Nat :=
  program.operations.countP (·.kind = kind)

/-- The channels in the states of a program. -/
def channelsIn (program : Program) : IndexSet :=
  program.operations.foldl (fun channels op => channels.union op.state.channels) .empty

/-- Encode the memory operations of a program. -/
def encode (policy : Channel.Policy) (graph : Graph) (program : Program) :
    Except Fault (Stats × Program) := do
  let v : View := ⟨graph, policy⟩
  let d ← gatherAll v program
  let (rounds, summaries) ←
      closeSummaries (d.calls.map fun c => (c.caller, c.callees)) d.summaries
  let encoded ← writeAccesses program d.accesses
  let (live, encoded) ← writeCalls v summaries encoded d.calls
  let written := d.accesses ++ live
  let stats := {
    policy := policy.name
    channelCount := policy.channelCount
    operations := written.length
    loads := countKind program .load
    stores := countKind program .store
    allocations := countKind program .alloca + countKind program .malloc
    frees := countKind program .free
    memcpys := countKind program .memcpy
    calls := countKind program .call
    callsWidened := d.calls.countP (·.widened)
    unknownFallbacks := written.foldl (fun total a => total + a.fallbacks) 0
    channelsUsed := (channelsIn encoded).size
    maxWidth := (written.map fun a => (a.uses.union a.defs).size).foldl Nat.max 0
    summaryRounds := rounds }
  return (stats, encoded)

end PointerChannels.Encoding
