import PointerChannels.Entity

/-!
# Pools of entities

A pool holds the entities of one analysis, a partition of them into classes, and a points-to
set per class.  The partition is a forest: every entity has a parent, a root is its own parent,
and two entities are in one class when they climb to the same root.  Merging two classes hangs
the root of lower rank below the other; on equal ranks the second goes below the first, whose
rank then rises.  Which root survives shows in every answer that names one.

The points-to set of a class is stored at its root.  Unknown and external memory are the
entities `0` and `1` of every pool.

Operations that take handles check them: the pool must have issued them, they must be in range,
and where a root is asked for they must be roots.  The checks come in this order, and the first
that fails is the fault.  The operations below the checks work on bare numbers and are total.
Climbing past the last entity is a fault too, told by where the climb ended.
-/

namespace PointerChannels

/-- An analysis stopped because it needed more entities than it was allowed. -/
structure Exhausted where
  /-- The number of entities it was allowed. -/
  limit : Nat
deriving DecidableEq, Repr

namespace Pool

/-- One entity and its place in the forest. -/
structure Cell where
  /-- What the entity stands for. -/
  kind : Entity.Kind
  /-- Its name, for labels. -/
  label : String
  /-- The part of the program it was made for. -/
  origin : Origin
  /-- The next entity on the way to its root; a root has itself. -/
  parent : Nat
  /-- A bound on the height of the tree below it. -/
  rank : Nat
  /-- What the class points to, if the entity is a root. -/
  pointsTo : IndexSet
  /-- The registers of a function's operands. -/
  signature : Option Signature
deriving DecidableEq, Repr

/-- A new entity, alone in its class, pointing to nothing. -/
def Cell.fresh (kind : Entity.Kind) (label : String) (origin : Origin) (index : Nat) : Cell :=
  ⟨kind, label, origin, index, 0, .empty, none⟩

end Pool

/-- The entities of an analysis, their classes and what the classes point to. -/
structure Pool where
  /-- The identity that the pool's handles carry. -/
  id : Nat
  /-- The entities, by number. -/
  cells : Array Pool.Cell
  /-- The register entity of each value that has one, in the order they were made. -/
  registers : List (ValueId × Nat)
  /-- How many entities there may be. -/
  capacity : Option Nat
  /-- How many classes there are. -/
  rootCount : Nat
deriving DecidableEq, Repr

namespace Pool

/-- The number of unknown memory. -/
def unknown : Nat := 0

/-- The number of external memory. -/
def external : Nat := 1

/-! ## Making entities -/

/-- The number of entities. -/
def size (p : Pool) : Nat := p.cells.size

/-- The handle of an entity. -/
def handle (p : Pool) (index : Nat) : Handle := ⟨p.id, index⟩

/-- Add an entity in a class of its own, whatever the capacity. -/
def push (p : Pool) (kind : Entity.Kind) (label : String) (origin : Origin) : Pool :=
  { p with
    cells := p.cells.push (.fresh kind label origin p.cells.size)
    rootCount := p.rootCount + 1 }

/-- A pool that holds the two sentinels. -/
def new (id : Nat) (capacity : Option Nat) : Pool :=
  let bare : Pool := ⟨id, #[], [], capacity, 0⟩
  (bare.push .unknownMemory "unknown" .synthetic).push .externalMemory "external" .synthetic

/-- Add an entity; refuse when the pool is full. -/
def create (p : Pool) (kind : Entity.Kind) (label : String) (origin : Origin) :
    Except Exhausted (Nat × Pool) :=
  match p.capacity with
  | some limit =>
    if limit ≤ p.size then .error ⟨limit⟩ else .ok (p.size, p.push kind label origin)
  | none => .ok (p.size, p.push kind label origin)

/-- The register entity of a value. -/
def register? (p : Pool) (value : ValueId) : Option Nat := p.registers.lookup value

/-- Let a value have an entity as its register. -/
def bindRegister (p : Pool) (value : ValueId) (index : Nat) : Pool :=
  { p with registers := p.registers ++ [(value, index)] }

/-- Add the register entity of a value that has none. -/
def createRegister (p : Pool) (value : ValueId) (label : String) :
    Except (Failure Exhausted) (Nat × Pool) :=
  if (p.register? value).isSome then
    .error (.fault (.registerTaken value))
  else
    match p.create .register label (.value value) with
    | .error e => .error (.error e)
    | .ok (index, p) => .ok (index, p.bindRegister value index)

/-- Add a register that belongs to no value. -/
def createDummy (p : Pool) : Except Exhausted (Nat × Pool) :=
  p.create .register "dummy" .synthetic

/-- The values that have a register and their entities, by value. -/
def registerTable (p : Pool) : List (ValueId × Nat) := byValue p.registers

/-! ## The forest -/

/-- Climb towards the root of an entity, at most `steps` times. -/
def climb (cells : Array Cell) : Nat → Nat → Nat
  | 0, index => index
  | steps + 1, index =>
    match cells[index]? with
    | none => index
    | some cell => if cell.parent = index then index else climb cells steps cell.parent

/-- The root of an entity's class. -/
def rootOf (p : Pool) (index : Nat) : Nat := climb p.cells p.cells.size index

/-- Whether an entity is the root of its class. -/
def isRoot (p : Pool) (index : Nat) : Bool :=
  match p.cells[index]? with
  | none => false
  | some cell => cell.parent == index

/-- What an entity stands for. -/
def kindOf (p : Pool) (index : Nat) : Entity.Kind :=
  (p.cells[index]?.map (·.kind)).getD .unknownMemory

/-- The set stored at an entity. -/
def stored (p : Pool) (index : Nat) : IndexSet :=
  (p.cells[index]?.map (·.pointsTo)).getD .empty

/-- What the class of an entity points to. -/
def pointsTo (p : Pool) (index : Nat) : IndexSet := p.stored (p.rootOf index)

/-- The registers of a function's operands, if the entity is one and has them. -/
def signature? (p : Pool) (index : Nat) : Option Signature :=
  p.cells[index]?.bind (·.signature)

/-- The registers bound by calling an entity: those of its signature if it is a function. -/
def calleeSignature? (p : Pool) (index : Nat) : Option Signature :=
  if p.kindOf index = .functionObject then p.signature? index else none

/-- Every entity. -/
def indices (p : Pool) : List Nat := List.range p.size

/-- The members of the class with the given root. -/
def members (p : Pool) (root : Nat) : List Nat := p.indices.filter (p.rootOf · == root)

/-- The classes, each with its root and its members, by root. -/
def classes (p : Pool) : List (Nat × List Nat) :=
  (p.indices.filter p.isRoot).map fun root => (root, p.members root)

/-- Hang every entity on the way from `index` directly below `root`. -/
def compress (root : Nat) : Nat → Nat → Array Cell → Array Cell
  | 0, _, cells => cells
  | steps + 1, index, cells =>
    match cells[index]? with
    | none => cells
    | some cell =>
      if index = root then cells
      else compress root steps cell.parent (cells.modify index ({ · with parent := root }))

/-- The root of an entity's class, with the way to it shortened for later. -/
def find (p : Pool) (index : Nat) : Nat × Pool :=
  let root := p.rootOf index
  (root, { p with cells := compress root p.cells.size index p.cells })

/-- Replace the set stored at an entity. -/
def store (p : Pool) (index : Nat) (set : IndexSet) : Pool :=
  { p with cells := p.cells.modify index ({ · with pointsTo := set }) }

/-- Add to the set stored at an entity. -/
def grow (p : Pool) (index : Nat) (objects : List Nat) : Pool :=
  p.store index ((p.stored index).insertAll objects)

/-- The rank of an entity. -/
def rankOf (p : Pool) (index : Nat) : Nat := (p.cells[index]?.map (·.rank)).getD 0

/-- Hang one root below another and move its points-to set there. -/
def hang (p : Pool) (loser survivor : Nat) : Pool :=
  let moved := p.stored loser
  let cells := p.cells.modify loser ({ · with parent := survivor, pointsTo := .empty })
  let cells := cells.modify survivor fun c => { c with pointsTo := c.pointsTo.union moved }
  { p with cells, rootCount := p.rootCount - 1 }

/-- Merge the classes of two different roots; the survivor comes first. -/
def merge (p : Pool) (a b : Nat) : Nat × Pool :=
  if p.rankOf a < p.rankOf b then (b, p.hang a b)
  else if p.rankOf b < p.rankOf a then (a, p.hang b a)
  else
    let raised := { p with cells := p.cells.modify a fun c => { c with rank := c.rank + 1 } }
    (a, raised.hang b a)

/-! ## Checked operations on handles -/

/-- The number behind a handle that the pool issued. -/
def resolve (p : Pool) (h : Handle) : Except Fault Nat :=
  if h.pool ≠ p.id then .error (.foreignEntity h.index h.pool p.id)
  else if p.size ≤ h.index then .error (.entityOutOfRange h.index p.size)
  else .ok h.index

/-- The number behind a handle of a root. -/
def resolveRoot (p : Pool) (h : Handle) : Except Fault Nat := do
  let index ← p.resolve h
  if p.isRoot index then return index else throw (.notRoot index)

/-- That a number is that of an entity. -/
def check (p : Pool) (index : Nat) : Except Fault Unit := do
  let _ ← p.resolve (p.handle index)

/-- That a number is that of a root. -/
def checkRoot (p : Pool) (index : Nat) : Except Fault Unit := do
  let _ ← p.resolveRoot (p.handle index)

/-- The root of the class of a handle's entity. -/
def root (p : Pool) (h : Handle) : Except Fault Nat := do
  let index ← p.resolve h
  checkIndex p.cells (p.rootOf index)
  return p.rootOf index

/-- That every entity has a root. -/
def checkClasses (p : Pool) : Except Fault Unit :=
  p.indices.forM fun index => do
    let _ ← p.root (p.handle index)

/-- The entity behind a handle. -/
def entity (p : Pool) (h : Handle) : Except Fault Cell := do
  let index ← p.resolve h
  bounded p.size index p.cells[index]?

/-- Let a value share an existing entity as its register. -/
def shareRegister (p : Pool) (value : ValueId) (h : Handle) : Except Fault Pool := do
  let index ← p.resolve h
  if (p.register? value).isSome then throw (.registerTaken value)
  return p.bindRegister value index

/-- Give a function entity the registers of its operands. -/
def setSignature (p : Pool) (h : Handle) (signature : Signature) : Except Fault Pool := do
  let index ← p.resolve h
  if p.kindOf index ≠ .functionObject then throw (.signatureOfNonFunction index)
  return { p with cells := p.cells.modify index ({ · with signature := some signature }) }

/-- The registers of a function's operands; a handle that is not the pool's has none. -/
def signatureOf? (p : Pool) (h : Handle) : Option Signature :=
  if h.pool = p.id then p.signature? h.index else none

/-- The root of a handle's entity, with the way to it shortened for later. -/
def findRoot (p : Pool) (h : Handle) : Except Fault (Nat × Pool) := do
  let index ← p.resolve h
  checkIndex p.cells (p.rootOf index)
  return p.find index

/-- Merge the classes of two different roots; the survivor comes first. -/
def unify (p : Pool) (a b : Handle) : Except Fault (Nat × Pool) := do
  let a ← p.resolveRoot a
  let b ← p.resolveRoot b
  if a = b then throw (.selfUnion a)
  return p.merge a b

/-- What the class of a root points to. -/
def pointsToOfRoot (p : Pool) (root : Handle) : Except Fault IndexSet := do
  let root ← p.resolveRoot root
  return p.stored root

/-- What the class of an entity points to. -/
def pointsToOf (p : Pool) (h : Handle) : Except Fault IndexSet := do
  let root ← p.root h
  return p.stored root

/-- The memory object behind a handle. -/
def resolveObject (p : Pool) (h : Handle) : Except Fault Nat := do
  let index ← p.resolve h
  if (p.kindOf index).isMemoryObject then return index else throw (.registerPointee index)

/-- Let the class of a root point to a memory object; tells whether it is new. -/
def addPointee (p : Pool) (root object : Handle) : Except Fault (Bool × Pool) := do
  let root ← p.resolveRoot root
  let object ← p.resolveObject object
  if object ∈ p.stored root then return (false, p) else return (true, p.grow root [object])

/-- Let the class of one root point to all that the class of another points to; tells whether
anything is new. -/
def addSuperset (p : Pool) (superset subset : Handle) : Except Fault (Bool × Pool) := do
  let superset ← p.resolveRoot superset
  let subset ← p.resolveRoot subset
  if (p.stored subset).subset (p.stored superset) then return (false, p)
  else return (true, p.grow superset (p.stored subset).toList)

end Pool
end PointerChannels
