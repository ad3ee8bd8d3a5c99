import PointerChannels.Program.Basic

/-!
# Entities

An entity is what the analysis talks about: a register, which holds addresses, or a memory
object, which addresses refer to.  Entities are numbered within the pool that issued them; a
handle carries the pool's identity with the number, so that a handle of another pool is refused
and never taken for an unrelated entity.
-/

namespace PointerChannels

namespace Entity

/-- What an entity stands for. -/
inductive Kind where
  /-- A pointer-typed value. -/
  | register
  /-- A stack allocation site. -/
  | allocaObject
  /-- A heap allocation site. -/
  | heapObject
  /-- A function defined in the unit. -/
  | functionObject
  /-- An imported symbol. -/
  | importObject
  /-- Memory outside precise tracking. -/
  | unknownMemory
  /-- Memory owned by code outside the unit. -/
  | externalMemory
deriving DecidableEq, Repr

namespace Kind

/-- Everything except a register can be pointed to. -/
def isMemoryObject : Kind → Bool
  | register => false
  | _ => true

/-- The two kinds that every pool starts with. -/
def isSentinel : Kind → Bool
  | unknownMemory | externalMemory => true
  | _ => false

/-- The full name of the kind. -/
def title : Kind → String
  | register => "Register"
  | allocaObject => "AllocaObject"
  | heapObject => "HeapObject"
  | functionObject => "FunctionObject"
  | importObject => "ImportObject"
  | unknownMemory => "UnknownMemory"
  | externalMemory => "ExternalMemory"

/-- All kinds. -/
def all : List Kind :=
  [register, allocaObject, heapObject, functionObject, importObject, unknownMemory,
    externalMemory]

end Kind
end Entity

/-- The part of a program that an entity or a graph node was made for. -/
inductive Origin where
  /-- A value's register. -/
  | value (id : ValueId)
  /-- An allocation. -/
  | operation (id : OperationId)
  /-- A function. -/
  | function (id : FunctionId)
  /-- An imported symbol, by its address value. -/
  | importAddress (id : ValueId)
  /-- No part of the program. -/
  | synthetic
deriving DecidableEq, Repr

/-- The entries of a table of values in the order of values. -/
def byValue (entries : List (ValueId × Nat)) : List (ValueId × Nat) :=
  (IndexSet.ofList (entries.map (·.1))).toList.filterMap fun value =>
    (entries.lookup value).map (value, ·)

/-- An entity of a pool, by the pool's identity and the entity's number in it.  The
number stands for a 32-bit one: whatever is said of a pool is meant for one of fewer
than `2 ^ 32` entities. -/
structure Handle where
  /-- The identity of the pool that issued the handle. -/
  pool : Nat
  /-- The entity's number. -/
  index : Nat
deriving DecidableEq, Repr

/-- The registers that a function's parameters and results live in; positions that hold no
address have none. -/
structure Signature where
  /-- The registers of the parameters. -/
  params : List (Option Handle)
  /-- The registers of the results. -/
  results : List (Option Handle)
deriving DecidableEq, Repr

end PointerChannels
