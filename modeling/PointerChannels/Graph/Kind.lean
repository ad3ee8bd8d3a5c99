/-!
# Kinds of points-to graph nodes

A node of the points-to graph stands for a register or for a memory object.  Two memory objects
are sentinels: memory nobody models, and memory owned by code outside the unit.
-/

namespace PointerChannels.Graph

/-- What a node of the points-to graph stands for. -/
inductive Kind where
  /-- A pointer-typed value. -/
  | register
  /-- A stack allocation site. -/
  | alloca
  /-- A heap allocation site. -/
  | malloc
  /-- A function defined in the unit. -/
  | allocator
  /-- An imported symbol. -/
  | importSymbol
  /-- Memory outside precise tracking. -/
  | unknownMemory
  /-- Memory owned by code outside the unit. -/
  | externalMemory
deriving DecidableEq, Repr

namespace Kind

/-- Everything except a register can be pointed to. -/
def isMemoryObject : Kind → Bool
  | register => false
  | _ => true

/-- The two kinds that exist once in every graph. -/
def isSentinel : Kind → Bool
  | unknownMemory | externalMemory => true
  | _ => false

/-- The place of the kind's nodes in a dump: registers first, external memory last. -/
def dumpGroup : Kind → Nat
  | register => 0
  | alloca => 1
  | malloc => 2
  | allocator => 3
  | importSymbol => 4
  | unknownMemory => 5
  | externalMemory => 6

/-- The short name of the kind. -/
def name : Kind → String
  | register => "register"
  | alloca => "alloca"
  | malloc => "malloc"
  | allocator => "allocator"
  | importSymbol => "import"
  | unknownMemory => "unknown"
  | externalMemory => "external"

/-- The full name of the kind, as faults spell it. -/
def title : Kind → String
  | register => "Register"
  | alloca => "Alloca"
  | malloc => "Malloc"
  | allocator => "Allocator"
  | importSymbol => "Import"
  | unknownMemory => "UnknownMemory"
  | externalMemory => "ExternalMemory"

/-- All kinds, in dump order. -/
def all : List Kind :=
  [register, alloca, malloc, allocator, importSymbol, unknownMemory, externalMemory]

end Kind
end PointerChannels.Graph
