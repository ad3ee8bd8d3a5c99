import PointerChannels.Constraint
import PointerChannels.Pool

/-!
# Generating constraints

One walk over a program makes the entities and the constraints that the solvers work on.
Imports come first, then functions with their parameters, then the operations of all bodies,
then the results of functions, then exports.

* An import is an object of its own; its address points to it and escapes.
* A function is an object; its address points to it, and its signature is recorded.
* An allocation is an object; its output points to it.
* Loads and stores of addresses, calls and copies give the constraint of that name; a copy
  loads into a register of its own and stores from there.
* A moved or reinterpreted address shares the register of its input, unless it already has its
  own, which then includes it.
* An address made from an integer is external.
* A phi includes its inputs.
* What goes into an operation that is not modelled escapes; what comes out
  is external and unknown.

Every address operand gets a register even if no constraint needs it.
-/

namespace PointerChannels.Generation

/-- What has been made so far. -/
structure Draft where
  /-- The entities. -/
  pool : Pool
  /-- The constraints, in order. -/
  constraints : List Constraint
deriving DecidableEq, Repr

/-- A step of generation: it can be stopped by the budget, or by a program that does not fit
together. -/
abbrev Step (α : Type) := Except (Failure Exhausted) α

/-- A step that only the budget can stop. -/
def budgeted {α : Type} : Except Exhausted α → Step α
  | .ok a => .ok a
  | .error e => .error (.error e)

/-- Whether a value holds an address. -/
def isPointer (program : Program) (value : ValueId) : Except Fault Bool := do
  let v ← program.value value
  return v.isPointer

namespace Draft

/-- Add a constraint. -/
def add (d : Draft) (c : Constraint) : Draft := { d with constraints := d.constraints ++ [c] }

/-- Add constraints. -/
def addAll (d : Draft) (cs : List Constraint) : Draft :=
  { d with constraints := d.constraints ++ cs }

/-- Make an entity. -/
def entity (d : Draft) (kind : Entity.Kind) (label : String) (origin : Origin) :
    Step (Handle × Draft) := do
  let (index, pool) ← budgeted (d.pool.create kind label origin)
  return (pool.handle index, { d with pool })

/-- The register of a value, made on first use. -/
def register (program : Program) (d : Draft) (value : ValueId) : Step (Handle × Draft) :=
  match d.pool.register? value with
  | some index => .ok (d.pool.handle index, d)
  | none => do
    let v ← program.value value
    let (index, pool) ← d.pool.createRegister value v.name
    return (pool.handle index, { d with pool })

/-- The registers of those values that hold addresses. -/
def pointerRegisters (program : Program) (d : Draft) :
    List ValueId → Step (List (Option Handle) × Draft)
  | [] => .ok ([], d)
  | value :: rest => do
    if ← isPointer program value then
      let (register, d) ← d.register program value
      let (registers, d) ← d.pointerRegisters program rest
      return (some register :: registers, d)
    else
      let (registers, d) ← d.pointerRegisters program rest
      return (none :: registers, d)

/-- An allocation: an object that the output points to. -/
def allocation (program : Program) (d : Draft) (op : Operation) (kind : Entity.Kind)
    (word : String) : Step Draft := do
  let output ← operandAt op.outputs 0
  let v ← program.value output
  let (object, d) ← d.entity kind (word ++ ":" ++ v.name) (.operation op.id)
  let (register, d) ← d.register program output
  return d.add (.pointsTo register object)

/-- An address computed from an input: it shares the input's register, or includes it. -/
def derived (program : Program) (d : Draft) (op : Operation) : Step Draft := do
  let input ← operandAt op.inputs 0
  let output ← operandAt op.outputs 0
  if !(← isPointer program output) then
    return d
  if !(← isPointer program input) then
    let (register, d) ← d.register program output
    return d.add (.external register)
  let (base, d) ← d.register program input
  match d.pool.register? output with
  | some existing => return d.add (.superset (d.pool.handle existing) base)
  | none =>
    let pool ← d.pool.shareRegister output base
    return { d with pool }

/-- Let a phi's register include those of its inputs, itself apart. -/
def phiInputs (program : Program) (register : Handle) (d : Draft) :
    List ValueId → Step Draft
  | [] => .ok d
  | input :: rest => do
    if ← isPointer program input then
      let (included, d) ← d.register program input
      let d := if included = register then d else d.add (.superset register included)
      d.phiInputs program register rest
    else
      d.phiInputs program register rest

/-- Add constraints about the registers of those values that hold addresses. -/
def eachPointer (program : Program) (constrain : Handle → List Constraint) (d : Draft) :
    List ValueId → Step Draft
  | [] => .ok d
  | value :: rest => do
    if ← isPointer program value then
      let (register, d) ← d.register program value
      (d.addAll (constrain register)).eachPointer program constrain rest
    else
      d.eachPointer program constrain rest

/-- Take in one operation. -/
def operation (program : Program) (d : Draft) (op : Operation) : Step Draft :=
  match op.kind with
  | .alloca => d.allocation program op .allocaObject "alloca"
  | .malloc => d.allocation program op .heapObject "malloc"
  | .free => do
    let (_, d) ← d.register program (← operandAt op.inputs 0)
    return d
  | .load => do
    let (address, d) ← d.register program (← operandAt op.inputs 0)
    let value ← operandAt op.outputs 0
    if ← isPointer program value then
      let (value, d) ← d.register program value
      return d.add (.load value address)
    else
      return d
  | .store => do
    let (address, d) ← d.register program (← operandAt op.inputs 0)
    let value ← operandAt op.inputs 1
    if ← isPointer program value then
      let (value, d) ← d.register program value
      return d.add (.store address value)
    else
      return d
  | .memcpy => do
    let (target, d) ← d.register program (← operandAt op.inputs 0)
    let (source, d) ← d.register program (← operandAt op.inputs 1)
    let (index, pool) ← budgeted d.pool.createDummy
    let copied := pool.handle index
    return { d with pool }.addAll [.load copied source, .store target copied]
  | .call => do
    let (callee, d) ← d.register program (← operandAt op.inputs 0)
    let (arguments, d) ← d.pointerRegisters program op.arguments
    let (results, d) ← d.pointerRegisters program op.outputs
    return d.add (.call callee ⟨arguments, results⟩)
  | .elementPointer | .bitcast => d.derived program op
  | .intToPointer => do
    let (register, d) ← d.register program (← operandAt op.outputs 0)
    return d.add (.external register)
  | .nullPointer | .undef => do
    let output ← operandAt op.outputs 0
    d.eachPointer program (fun _ => []) [output]
  | .phi => do
    let output ← operandAt op.outputs 0
    if ← isPointer program output then
      let (register, d) ← d.register program output
      d.phiInputs program register op.inputs
    else
      return d
  | .blackBox => do
    let d ← d.eachPointer program (fun r => [.escapes r]) op.inputs
    d.eachPointer program (fun r => [.external r, .unknown r]) op.outputs

/-- Take in an import. -/
def importSymbol (program : Program) (d : Draft) (symbol : ImportDef) : Step Draft := do
  let (object, d) ← d.entity .importObject
      ("import:" ++ symbol.name) (.importAddress symbol.value)
  let (register, d) ← d.register program symbol.value
  return d.addAll [.pointsTo register object, .escapes register]

/-- Take in the head of a function; its object and the registers of its parameters are needed
again once its body has been seen. -/
def functionHead (program : Program) (d : Draft) (f : FunctionDef) :
    Step ((Handle × List (Option Handle)) × Draft) := do
  let (object, d) ← d.entity .functionObject ("function:" ++ f.name) (.function f.id)
  let (address, d) ← d.register program f.address
  let (params, d) ← (d.add (.pointsTo address object)).pointerRegisters program f.params
  return ((object, params), d)

/-- Take in the heads of functions. -/
def functionHeads (program : Program) (d : Draft) :
    List FunctionDef → Step (List (Handle × List (Option Handle)) × Draft)
  | [] => .ok ([], d)
  | f :: rest => do
    let (head, d) ← d.functionHead program f
    let (heads, d) ← d.functionHeads program rest
    return (head :: heads, d)

/-- Record the signature of a function. -/
def signature (program : Program) (d : Draft)
    (entry : FunctionDef × Handle × List (Option Handle)) : Step Draft := do
  let (f, object, params) := entry
  let (results, d) ← d.pointerRegisters program f.results
  let pool ← d.pool.setSignature object ⟨params, results⟩
  return { d with pool }

end Draft

/-- Generate the entities and constraints of a program, with at most `limit` entities. -/
def generate (program : Program) (limit : Option Nat) : Step Draft := do
  let functions := program.functions.toList
  let d : Draft := ⟨Pool.new 0 limit, []⟩
  let d ← program.imports.toList.foldlM (Draft.importSymbol program) d
  let (heads, d) ← d.functionHeads program functions
  let d ← program.operations.foldlM (Draft.operation program) d
  let d ← (functions.zip heads).foldlM (Draft.signature program) d
  d.eachPointer program (fun r => [.escapes r]) program.exports

end PointerChannels.Generation
