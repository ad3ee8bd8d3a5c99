import PointerChannels.Program.Basic

/-!
# Building programs

A program is built by commands.  Numbers are handed out densely in order of creation: values
over the whole program, functions over the whole program, operations over the whole program.  A
command stores the value numbers it is given without looking at them; only `bitcast`, which
copies the type of its input, and `addPhiInput`, which needs a phi, look anything up.

`Program.apply` runs one command and `Program.build?` a list of them.
-/

namespace PointerChannels

/-- One step in building a program. -/
inductive Command where
  /-- Declare a symbol defined outside. -/
  | declareImport (name : String)
  /-- Declare a function with parameters of the given types. -/
  | declareFunction (name : String) (params : List ValueType)
  /-- Ask for the address of a function. -/
  | addressOf (function : FunctionId)
  /-- Ask for a parameter of a function. -/
  | parameter (function : FunctionId) (index : Nat)
  /-- Say what a function returns. -/
  | setResults (function : FunctionId) (results : List ValueId)
  /-- Make a value visible outside. -/
  | exportValue (value : ValueId)
  /-- Make a function visible outside. -/
  | exportFunction (function : FunctionId)
  /-- Reserve stack memory. -/
  | alloca (function : FunctionId) (name : String)
  /-- Reserve heap memory. -/
  | malloc (function : FunctionId) (name : String)
  /-- Release heap memory. -/
  | free (function : FunctionId) (address : ValueId)
  /-- Read a value of the given type. -/
  | load (function : FunctionId) (address : ValueId) (type : ValueType)
  /-- Write a value. -/
  | store (function : FunctionId) (address value : ValueId)
  /-- Copy memory. -/
  | memcpy (function : FunctionId) (target source : ValueId)
  /-- Call through an address. -/
  | call (function : FunctionId) (callee : ValueId) (arguments : List ValueId)
      (results : List ValueType)
  /-- Move an address within its object. -/
  | elementPointer (function : FunctionId) (base : ValueId)
  /-- Reinterpret a value. -/
  | bitcast (function : FunctionId) (value : ValueId)
  /-- Make an address from an integer. -/
  | intToPointer (function : FunctionId) (integer : ValueId)
  /-- Make the null address. -/
  | nullPointer (function : FunctionId)
  /-- Make a value of no particular content. -/
  | undef (function : FunctionId) (type : ValueType)
  /-- Join values. -/
  | phi (function : FunctionId) (inputs : List ValueId) (type : ValueType)
  /-- Add an input to a phi. -/
  | addPhiInput (phi input : ValueId)
  /-- Add an operation of which only the operands are known. -/
  | blackBox (function : FunctionId) (inputs : List ValueId) (outputs : List ValueType)
deriving DecidableEq, Repr

/-- What a command answers. -/
inductive Outcome where
  /-- The number of a value. -/
  | value (id : ValueId)
  /-- The number of a function. -/
  | function (id : FunctionId)
  /-- The number of an operation. -/
  | operation (id : OperationId)
  /-- The number of an operation and of each of its outputs. -/
  | results (id : OperationId) (outputs : List ValueId)
  /-- Nothing to tell. -/
  | done
deriving DecidableEq, Repr

namespace Program

/-- Add a value; without a name of its own it is named by its number. -/
def addValue (p : Program) (name : Option String) (type : ValueType)
    (definition : Definition) : ValueId × Program :=
  let id := p.values.size
  (id, { p with values := p.values.push ⟨id, name.getD (valueText id), type, definition⟩ })

/-- Add values one after the other; each definition is told its position. -/
def addValues (p : Program) (define : Nat → Definition) :
    Nat → List (Option String × ValueType) → List ValueId × Program
  | _, [] => ([], p)
  | index, (name, type) :: rest =>
    let (id, p) := p.addValue name type (define index)
    let (ids, p) := p.addValues define (index + 1) rest
    (id :: ids, p)

/-- Add a symbol defined outside, with its address value. -/
def addImport (p : Program) (name : String) : ValueId × Program :=
  let (value, p) := p.addValue (some name) .pointer (.importAddress p.imports.size)
  (value, { p with imports := p.imports.push ⟨name, value⟩ })

/-- The names and types of a function's parameters. -/
def parameterNames (name : String) (params : List ValueType) :
    List (Option String × ValueType) :=
  params.zipIdx.map fun (type, index) => (some s!"{name}.arg{index}", type)

/-- Add a function, with its address value and then its parameters. -/
def addFunction (p : Program) (name : String) (params : List ValueType) :
    FunctionId × Program :=
  let id := p.functions.size
  let (address, p) := p.addValue (some name) .pointer (.functionAddress id)
  let (params, p) := p.addValues (.parameter id) 0 (parameterNames name params)
  (id, { p with functions := p.functions.push ⟨id, name, address, params, [], #[]⟩ })

/-- Make a value visible outside, once. -/
def addExport (p : Program) (v : ValueId) : Program :=
  if p.isExported v then p else { p with exports := p.exports ++ [v] }

/-- Add an operation at the end of a function's body, with its output values. -/
def addOperation (p : Program) (f : FunctionId) (kind : Operation.Kind) (inputs : List ValueId)
    (outputs : List (Option String × ValueType)) :
    Except Fault ((OperationId × List ValueId) × Program) := do
  let id := p.locations.size
  let (outputs, p) := p.addValues (.output id) 0 outputs
  let function ← p.function f
  let op := Operation.fresh id kind inputs outputs
  return ((id, outputs),
    { p with
      locations := p.locations.push (f, function.body.size)
      functions := p.functions.modify f fun function =>
        { function with body := function.body.push op } })

/-- Add an operation with one output. -/
def addSingle (p : Program) (f : FunctionId) (kind : Operation.Kind) (inputs : List ValueId)
    (name : Option String) (type : ValueType) : Except Fault (Outcome × Program) := do
  let ((_, outputs), p) ← p.addOperation f kind inputs [(name, type)]
  return (.value (outputs.headD 0), p)

/-- Add an operation without outputs. -/
def addEffect (p : Program) (f : FunctionId) (kind : Operation.Kind) (inputs : List ValueId) :
    Except Fault (Outcome × Program) := do
  let ((id, _), p) ← p.addOperation f kind inputs []
  return (.operation id, p)

/-- Add an operation with unnamed outputs of the given types. -/
def addMany (p : Program) (f : FunctionId) (kind : Operation.Kind) (inputs : List ValueId)
    (types : List ValueType) : Except Fault (Outcome × Program) := do
  let ((id, outputs), p) ← p.addOperation f kind inputs (types.map (none, ·))
  return (.results id outputs, p)

/-- Add an input to the phi that defines a value. -/
def addPhiInput (p : Program) (phi input : ValueId) : Except Fault Program :=
  match p.definingOperation? phi with
  | none => .error (.notPhi phi)
  | some op => do
    match p.locations[op]?, ← p.operation? op with
    | some (f, position), some found =>
      if found.kind = .phi then
        return p.modifyAt f position fun o => { o with inputs := o.inputs ++ [input] }
      else
        throw (.notPhi phi)
    | _, _ => throw (.notPhi phi)

/-- Run one command. -/
def apply (p : Program) : Command → Except Fault (Outcome × Program)
  | .declareImport name =>
    let (value, p) := p.addImport name
    .ok (.value value, p)
  | .declareFunction name params =>
    let (function, p) := p.addFunction name params
    .ok (.function function, p)
  | .addressOf f => do
    let function ← p.function f
    return (.value function.address, p)
  | .parameter f index => do
    let function ← p.function f
    let value ← operandAt function.params index
    return (.value value, p)
  | .setResults f results => do
    let _ ← p.function f
    return (.done, { p with functions := p.functions.modify f ({ · with results }) })
  | .exportValue value => .ok (.done, p.addExport value)
  | .exportFunction f => do
    let function ← p.function f
    return (.done, p.addExport function.address)
  | .alloca f name => p.addSingle f .alloca [] (some name) .pointer
  | .malloc f name => p.addSingle f .malloc [] (some name) .pointer
  | .free f address => p.addEffect f .free [address]
  | .load f address type => p.addSingle f .load [address] none type
  | .store f address value => p.addEffect f .store [address, value]
  | .memcpy f target source => p.addEffect f .memcpy [target, source]
  | .call f callee arguments results => p.addMany f .call (callee :: arguments) results
  | .elementPointer f base => p.addSingle f .elementPointer [base] none .pointer
  | .bitcast f value => do
    let input ← p.value value
    p.addSingle f .bitcast [value] none input.type
  | .intToPointer f integer => p.addSingle f .intToPointer [integer] none .pointer
  | .nullPointer f => p.addSingle f .nullPointer [] none .pointer
  | .undef f type => p.addSingle f .undef [] none type
  | .phi f inputs type => p.addSingle f .phi inputs none type
  | .addPhiInput phi input => do
    let p ← p.addPhiInput phi input
    return (.done, p)
  | .blackBox f inputs outputs => p.addMany f .blackBox inputs outputs

/-- Run commands in order, stopping at the first fault. -/
def run (p : Program) (commands : List Command) : Except Fault Program :=
  commands.foldlM (fun p command => (p.apply command).map (·.2)) p

/-- The program that a list of commands builds from nothing. -/
def build? (commands : List Command) : Except Fault Program := empty.run commands

end Program
end PointerChannels
