import PointerChannels.Graph.Kind

/-!
# Faults

A fault is a misuse of the library: an index past the end, a handle of another pool, a register
where memory is needed.  A well-formed input never causes one; a malformed one stops the run at
its first fault.  Faults are causes, and `Fault.message` is the one place that words them.

A recoverable error is not a fault.  A run that can end either way has a `Failure`.
-/

namespace PointerChannels

/-- The text of a value's number. -/
def valueText (value : Nat) : String := s!"v{value}"

/-- The text of an operation's number. -/
def operationText (operation : Nat) : String := s!"op{operation}"

/-- The text of a function's number. -/
def functionText (function : Nat) : String := s!"fn{function}"

/-- The text of a channel's number. -/
def channelText (channel : Nat) : String := s!"ch{channel}"

/-- The text of an entity's number. -/
def entityText (entity : Nat) : String := s!"#{entity}"

/-- The text of a graph node's number. -/
def nodeText (node : Nat) : String := s!"NodeIndex({node})"

/-- A misuse of the library. -/
inductive Fault where
  /-- A list of `length` elements was asked for one that it does not have. -/
  | outOfBounds (length index : Nat)
  /-- An entity handle was given to a pool that did not issue it. -/
  | foreignEntity (entity issuer pool : Nat)
  /-- An entity handle lies past the entities of its pool. -/
  | entityOutOfRange (entity size : Nat)
  /-- A class representative was needed. -/
  | notRoot (entity : Nat)
  /-- A class was to be merged with itself. -/
  | selfUnion (entity : Nat)
  /-- A register was to become a pointee. -/
  | registerPointee (entity : Nat)
  /-- A signature was given to an entity that is no function. -/
  | signatureOfNonFunction (entity : Nat)
  /-- A value was to get a second register entity. -/
  | registerTaken (value : Nat)
  /-- A value was to get a second register node. -/
  | registerNodeTaken (value : Nat)
  /-- A node of this kind is not made on request. -/
  | notAllocatable (kind : Graph.Kind)
  /-- A node index lies past the nodes of its graph. -/
  | nodeOutOfRange (node : Nat)
  /-- A node that is no memory was to be pointed to. -/
  | notMemory (node : Nat)
  /-- A points-to set holds an entity without a memory node. -/
  | noMemoryNode (entity : Nat)
  /-- An input was to be added to a value that no phi defines. -/
  | notPhi (value : Nat)
  /-- An operand has no register node. -/
  | noRegisterNode (value : Nat)
  /-- An allocation has no memory node. -/
  | noAllocationNode (operation : Nat)
  /-- A call has no callee operand. -/
  | noCallee (operation : Nat)
  /-- An operation of this kind was to be encoded as a memory operation other than a call. -/
  | notAccess (kind : String)
  /-- A policy was asked for the channel of a node that it does not number. -/
  | notNumbered (node : Nat)
  /-- A bounded policy was to have no channel. -/
  | noChannels
  /-- A bounded policy was to have more channels than can be numbered. -/
  | tooManyChannels (limit : Nat)
deriving DecidableEq, Repr

/-- The wording of a fault. -/
def Fault.message : Fault → String
  | outOfBounds length index =>
    s!"index out of bounds: the len is {length} but the index is {index}"
  | foreignEntity entity issuer pool =>
    "entity " ++ entityText entity ++
      s!" belongs to a different node set (set{issuer} vs set{pool})"
  | entityOutOfRange entity size =>
    "entity index " ++ entityText entity ++ s!" out of range (node set holds {size})"
  | notRoot entity => "entity " ++ entityText entity ++ " is not a unification root"
  | selfUnion entity => "cannot unify root " ++ entityText entity ++ " with itself"
  | registerPointee entity =>
    "register " ++ entityText entity ++ " cannot be a points-to target"
  | signatureOfNonFunction entity =>
    "signature attached to non-function entity " ++ entityText entity
  | registerTaken value => "value " ++ valueText value ++ " already has a register"
  | registerNodeTaken value => "value " ++ valueText value ++ " already has a register node"
  | notAllocatable kind => kind.title ++ " is not an allocatable memory node kind"
  | nodeOutOfRange node => "node " ++ nodeText node ++ " out of range"
  | notMemory node => "node " ++ nodeText node ++ " is not a memory object"
  | noMemoryNode entity => "points-to target " ++ entityText entity ++ " has no memory node"
  | notPhi value => valueText value ++ " is not defined by a phi"
  | noRegisterNode value =>
    "pointer operand " ++ valueText value ++ " has no register node in the points-to graph"
  | noAllocationNode operation =>
    "allocation " ++ operationText operation ++ " has no memory node in the points-to graph"
  | noCallee operation => "call " ++ operationText operation ++ " has no callee operand"
  | notAccess kind =>
    s!"internal error: entered unreachable code: {kind} is not a non-call memory operation"
  | notNumbered node => s!"node {node} is not a memory node of this policy's graph"
  | noChannels => "bounded policy needs at least one channel"
  | tooManyChannels limit => s!"max_channels {limit} too large"

/-- The entry that an index found in a list of `length` entries, or the
fault of its absence. -/
def bounded {α : Type} (length index : Nat) : Option α → Except Fault α
  | some entry => .ok entry
  | none => .error (.outOfBounds length index)

/-- The entry of an array at an index. -/
def entryAt {α : Type} (xs : Array α) (index : Nat) : Except Fault α :=
  bounded xs.size index xs[index]?

/-- That an array has an entry at an index. -/
def checkIndex {α : Type} (xs : Array α) (index : Nat) : Except Fault Unit := do
  let _ ← entryAt xs index

/-- The entry of a list at an index. -/
def operandAt {α : Type} (xs : List α) (index : Nat) : Except Fault α :=
  bounded xs.length index xs[index]?

@[simp] theorem bounded_eq_ok {α : Type} {length index : Nat} {found : Option α} {a : α} :
    bounded length index found = .ok a ↔ found = some a := by
  cases found <;> simp [bounded]

@[simp] theorem entryAt_eq_ok {α : Type} {xs : Array α} {index : Nat} {a : α} :
    entryAt xs index = .ok a ↔ xs[index]? = some a := by
  simp [entryAt]

@[simp] theorem checkIndex_eq_ok {α : Type} {xs : Array α} {index : Nat} {u : Unit} :
    checkIndex xs index = .ok u ↔ index < xs.size := by
  by_cases h : index < xs.size
  · simp [checkIndex, entryAt, bounded, h, bind, Except.bind, pure, Except.pure]
  · simp [checkIndex, entryAt, bounded, h, bind, Except.bind]

theorem checkIndex_of_lt {α : Type} {xs : Array α} {index : Nat} (h : index < xs.size) :
    checkIndex xs index = .ok () := checkIndex_eq_ok.2 h

theorem checkIndex_map {α β : Type} {xs : Array α} {f : α → β} (index : Nat) :
    checkIndex (xs.map f) index = checkIndex xs index := by
  simp only [checkIndex, entryAt, Array.size_map, Array.getElem?_map]
  cases xs[index]? <;> rfl

@[simp] theorem operandAt_eq_ok {α : Type} {xs : List α} {index : Nat} {a : α} :
    operandAt xs index = .ok a ↔ xs[index]? = some a := by
  simp [operandAt]

/-- Why a run ended without a result: a misuse, or an error that its caller can act on. -/
inductive Failure (ε : Type) where
  /-- The run was misused. -/
  | fault (cause : Fault)
  /-- The run met a condition it reports. -/
  | error (cause : ε)
deriving DecidableEq, Repr

namespace Failure

/-- Restate the reported condition. -/
def mapError {ε δ : Type} (f : ε → δ) : Failure ε → Failure δ
  | fault cause => .fault cause
  | error cause => .error (f cause)

/-- A computation that can only be misused, among those that can also report. -/
def lift {ε α : Type} : Except Fault α → Except (Failure ε) α
  | .ok a => .ok a
  | .error cause => .error (.fault cause)

instance {ε : Type} : MonadLift (Except Fault) (Except (Failure ε)) := ⟨lift⟩

/-- A computation that leaves the state alone, among those that run in place. -/
def inPlace {ε σ α : Type} (x : Except ε α) : EStateM ε σ α := fun state =>
  match x with
  | .ok a => .ok a state
  | .error cause => .error cause state

instance {ε σ : Type} : MonadLift (Except ε) (EStateM ε σ) := ⟨inPlace⟩

/-- The outcome of a run in place: what it tells and the state it ends in, or why it failed. -/
def settled {ε σ α : Type} : EStateM.Result ε σ α → Except ε (α × σ)
  | .ok a state => .ok (a, state)
  | .error cause _ => .error cause

@[simp] theorem lift_eq_ok {ε α : Type} {x : Except Fault α} {a : α} :
    (lift x : Except (Failure ε) α) = .ok a ↔ x = .ok a := by
  cases x <;> simp [lift]

@[simp] theorem settled_eq_ok {ε σ α : Type} {x : EStateM.Result ε σ α} {outcome : α × σ} :
    settled x = .ok outcome ↔ x = .ok outcome.1 outcome.2 := by
  cases x <;> simp [settled, Prod.ext_iff]

@[simp] theorem settled_eq_error {ε σ α : Type} {x : EStateM.Result ε σ α} {cause : ε} :
    settled x = .error cause ↔ ∃ state, x = .error cause state := by
  cases x <;> simp [settled]

end Failure
end PointerChannels
