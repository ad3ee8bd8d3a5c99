import PointerChannels.Fault
import PointerChannels.IndexSet

/-!
# Programs

A program is a list of functions whose bodies are lists of operations over numbered values.
Values, functions and operations carry their own numbers; a table says at which position of
which body the operation of a number stands.

Nothing here promises that the numbers fit together: a program read from outside may refer to
values, functions and places that do not exist.  Every look-up says what it does then.

Numbers of values, operations and functions stand for 32-bit numbers and are unbounded here, so
whatever is said of a program is meant for one with fewer than `2 ^ 32` of each.
-/

namespace PointerChannels

/-- The number of a value, in place of a 32-bit one: no program has `2 ^ 32` values. -/
abbrev ValueId := Nat

/-- The number of an operation, in place of a 32-bit one. -/
abbrev OperationId := Nat

/-- The number of a function, in place of a 32-bit one. -/
abbrev FunctionId := Nat

/-! ## Values -/

/-- What a value holds. -/
inductive ValueType where
  /-- An address. -/
  | pointer
  /-- Anything else. -/
  | scalar
deriving DecidableEq, Repr

/-- Whether values of the type are addresses. -/
def ValueType.isPointer : ValueType → Bool
  | pointer => true
  | scalar => false

/-- Where a value comes from. -/
inductive Definition where
  /-- The parameter of a function at a position. -/
  | parameter (function : FunctionId) (index : Nat)
  /-- The address of a function. -/
  | functionAddress (function : FunctionId)
  /-- The address of the import at a position. -/
  | importAddress (index : Nat)
  /-- The output of an operation at a position. -/
  | output (operation : OperationId) (index : Nat)
deriving DecidableEq, Repr

/-- A value of the program. -/
structure Value where
  /-- Its number. -/
  id : ValueId
  /-- Its name, for labels. -/
  name : String
  /-- What it holds. -/
  type : ValueType
  /-- Where it comes from. -/
  definition : Definition
deriving DecidableEq, Repr

/-- Whether the value is an address. -/
def Value.isPointer (v : Value) : Bool := v.type.isPointer

/-! ## Operations -/

/-- The order a memory operation keeps with others. -/
inductive MemoryState where
  /-- The operation does not touch memory. -/
  | none
  /-- Ordered against every other memory operation. -/
  | coarse
  /-- Ordered only through the channels it reads and the channels it writes. -/
  | encoded (uses defs : IndexSet)
deriving DecidableEq, Repr

/-- All channels of a state. -/
def MemoryState.channels : MemoryState → IndexSet
  | encoded uses defs => uses.union defs
  | _ => .empty

namespace Operation

/-- What an operation does. -/
inductive Kind where
  /-- Reserve stack memory. -/
  | alloca
  /-- Reserve heap memory. -/
  | malloc
  /-- Release heap memory. -/
  | free
  /-- Read through an address. -/
  | load
  /-- Write through an address. -/
  | store
  /-- Copy what one address refers to to another. -/
  | memcpy
  /-- Call a function through its address. -/
  | call
  /-- Move an address within its object. -/
  | elementPointer
  /-- Reinterpret a value. -/
  | bitcast
  /-- Make an address from an integer. -/
  | intToPointer
  /-- The null address. -/
  | nullPointer
  /-- A value of no particular content. -/
  | undef
  /-- The value of whichever input control came with. -/
  | phi
  /-- An operation of which only the operands are known. -/
  | blackBox
deriving DecidableEq, Repr

/-- Whether operations of the kind read, write or order memory. -/
def Kind.touchesMemory : Kind → Bool
  | alloca | malloc | free | load | store | memcpy | call => true
  | _ => false

/-- The mnemonic of the kind. -/
def Kind.name : Kind → String
  | alloca => "alloca"
  | malloc => "malloc"
  | free => "free"
  | load => "load"
  | store => "store"
  | memcpy => "memcpy"
  | call => "call"
  | elementPointer => "gep"
  | bitcast => "bitcast"
  | intToPointer => "inttoptr"
  | nullPointer => "null"
  | undef => "undef"
  | phi => "phi"
  | blackBox => "opaque"

end Operation

/-- An operation of a function's body. -/
structure Operation where
  /-- Its number. -/
  id : OperationId
  /-- What it does. -/
  kind : Operation.Kind
  /-- The values it reads. -/
  inputs : List ValueId
  /-- The values it defines. -/
  outputs : List ValueId
  /-- How it is ordered against other memory operations. -/
  state : MemoryState
deriving DecidableEq, Repr

namespace Operation

/-- A new operation: coarsely ordered if it touches memory at all. -/
def fresh (id : OperationId) (kind : Kind) (inputs outputs : List ValueId) : Operation :=
  ⟨id, kind, inputs, outputs, if kind.touchesMemory then .coarse else .none⟩

/-- The address a load, store or release goes through. -/
def address? (op : Operation) : Option ValueId :=
  match op.kind with
  | .load | .store | .free => op.inputs.head?
  | _ => none

/-- The address a call goes to. -/
def callee? (op : Operation) : Option ValueId :=
  match op.kind with
  | .call => op.inputs.head?
  | _ => none

/-- The values a call passes. -/
def arguments (op : Operation) : List ValueId :=
  match op.kind with
  | .call => op.inputs.tail
  | _ => []

end Operation

/-! ## Programs -/

/-- A function of the unit. -/
structure FunctionDef where
  /-- Its number. -/
  id : FunctionId
  /-- Its name. -/
  name : String
  /-- The value that is its address. -/
  address : ValueId
  /-- The values that are its parameters. -/
  params : List ValueId
  /-- The values it returns. -/
  results : List ValueId
  /-- Its operations. -/
  body : Array Operation
deriving DecidableEq, Repr

/-- A symbol defined outside the unit. -/
structure ImportDef where
  /-- Its name. -/
  name : String
  /-- The value that is its address. -/
  value : ValueId
deriving DecidableEq, Repr

/-- A unit of code. -/
structure Program where
  /-- The values, by number. -/
  values : Array Value
  /-- The functions, by number. -/
  functions : Array FunctionDef
  /-- The symbols defined outside. -/
  imports : Array ImportDef
  /-- The values visible outside, in the order they were exported. -/
  exports : List ValueId
  /-- Where the operation of each number stands: its function and its place in the body. -/
  locations : Array (FunctionId × Nat)
deriving DecidableEq, Repr

namespace Program

/-- The program without values and functions. -/
def empty : Program := ⟨#[], #[], #[], [], #[]⟩

instance : Inhabited Program := ⟨empty⟩

/-- The value of a number. -/
def value (p : Program) (v : ValueId) : Except Fault Value := entryAt p.values v

/-- The function of a number. -/
def function (p : Program) (f : FunctionId) : Except Fault FunctionDef := entryAt p.functions f

/-- The first function of a name. -/
def functionNamed? (p : Program) (name : String) : Option FunctionDef :=
  p.functions.find? (·.name == name)

/-- Whether a value is visible outside. -/
def isExported (p : Program) (v : ValueId) : Bool := p.exports.contains v

/-- The operations, function by function and in body order. -/
def operations (p : Program) : List Operation :=
  p.functions.toList.flatMap (·.body.toList)

/-- The number of operations that have a place. -/
def numOperations (p : Program) : Nat := p.locations.size

/-- The number of operations that touch memory. -/
def numMemoryOperations (p : Program) : Nat := p.operations.countP (·.kind.touchesMemory)

/-- The function that the operation of a number stands in. -/
def functionOf? (p : Program) (op : OperationId) : Option FunctionId :=
  p.locations[op]?.map (·.1)

/-- The operation of a number, if it has a place and the place is filled.  A place in a
function that does not exist is a fault. -/
def operation? (p : Program) (op : OperationId) : Except Fault (Option Operation) :=
  match p.locations[op]? with
  | none => .ok none
  | some (f, position) => do
    let function ← p.function f
    return function.body[position]?

/-- The operation that defines a value, if the value exists and one does. -/
def definingOperation? (p : Program) (v : ValueId) : Option OperationId :=
  match p.values[v]?.map Value.definition with
  | some (.output op _) => some op
  | _ => none

/-- Change the operation at a place, if the place is filled. -/
def modifyAt (p : Program) (f : FunctionId) (position : Nat) (change : Operation → Operation) :
    Program :=
  { p with functions := p.functions.modify f fun function =>
      { function with body := function.body.modify position change } }

/-- Write the memory state of the operation of a number.  An operation without a place is left
alone; a place in a function that does not exist is a fault. -/
def setState (p : Program) (op : OperationId) (state : MemoryState) : Except Fault Program :=
  match p.locations[op]? with
  | none => .ok p
  | some (f, position) => do
    let _ ← p.function f
    return p.modifyAt f position ({ · with state })

end Program
end PointerChannels
