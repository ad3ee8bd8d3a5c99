import PointerChannels.Program.Basic
import PointerChannels.Tree

/-!
# Programs as structured data

`Program.toTree` hands a program over and `Program.ofTree?` takes one.  Taking a program checks
its shape only: every field has to be there and to be of its kind, and numbers have to fit.
Whether the numbers belong to anything is left to those who follow them.
-/

namespace PointerChannels

/-! ## Values -/

/-- The name of a type. -/
def ValueType.title : ValueType → String
  | pointer => "pointer"
  | scalar => "scalar"

/-- The tree of a definition. -/
def Definition.toTree : Definition → Tree
  | parameter f i =>
    .variant "Parameter" (.record [("function", .number f), ("index", .number i)])
  | functionAddress f => .variant "FunctionAddress" (.number f)
  | importAddress i => .variant "Import" (.number i)
  | output o i =>
    .variant "Operation" (.record [("operation", .number o), ("index", .number i)])

/-- The definition of a tree. -/
def Definition.ofTree? (t : Tree) : Option Definition := do
  match ← t.variant? with
  | ("Parameter", c) =>
    match ← c.fields? ["function", "index"] with
    | [f, i] => return parameter (← f.id?) (← i.index?)
    | _ => none
  | ("FunctionAddress", c) => return functionAddress (← c.id?)
  | ("Import", c) => return importAddress (← c.index?)
  | ("Operation", c) =>
    match ← c.fields? ["operation", "index"] with
    | [o, i] => return output (← o.id?) (← i.index?)
    | _ => none
  | _ => none

/-- The tree of a value. -/
def Value.toTree (v : Value) : Tree :=
  .record [("id", .number v.id), ("name", .text v.name), ("ty", .text v.type.title),
    ("definition", v.definition.toTree)]

/-- The value of a tree. -/
def Value.ofTree? (t : Tree) : Option Value := do
  match ← t.fields? ["id", "name", "ty", "definition"] with
  | [id, name, type, definition] =>
    return {
      id := ← id.id?
      name := ← name.text?
      type := ← type.named? ValueType.title [.pointer, .scalar]
      definition := ← Definition.ofTree? definition }
  | _ => none

/-! ## Operations -/

/-- The full name of a kind of operations. -/
def Operation.Kind.title : Operation.Kind → String
  | alloca => "Alloca"
  | malloc => "Malloc"
  | free => "Free"
  | load => "Load"
  | store => "Store"
  | memcpy => "Memcpy"
  | call => "Call"
  | elementPointer => "GetElementPtr"
  | bitcast => "Bitcast"
  | intToPointer => "IntToPtr"
  | nullPointer => "NullPointer"
  | undef => "Undef"
  | phi => "Phi"
  | blackBox => "Opaque"

/-- All kinds of operations. -/
def Operation.Kind.all : List Operation.Kind :=
  [alloca, malloc, free, load, store, memcpy, call, elementPointer, bitcast, intToPointer,
    nullPointer, undef, phi, blackBox]

/-- The tree of a memory state. -/
def MemoryState.toTree : MemoryState → Tree
  | none => .text "None"
  | coarse => .text "Coarse"
  | encoded uses defs =>
    .variant "Encoded"
      (.record [("uses", .numbers uses.toList), ("defs", .numbers defs.toList)])

/-- The memory state of a tree. -/
def MemoryState.ofTree? (t : Tree) : Option MemoryState := do
  match ← t.variant? with
  | ("None", .null) => return none
  | ("Coarse", .null) => return coarse
  | ("Encoded", c) =>
    match ← c.fields? ["uses", "defs"] with
    | [uses, defs] =>
      return encoded (.ofList (← uses.list? Tree.id?)) (.ofList (← defs.list? Tree.id?))
    | _ => Option.none
  | _ => Option.none

/-- The tree of an operation. -/
def Operation.toTree (op : Operation) : Tree :=
  .record [("id", .number op.id), ("kind", .text op.kind.title),
    ("inputs", .numbers op.inputs), ("outputs", .numbers op.outputs),
    ("state", op.state.toTree)]

/-- The operation of a tree. -/
def Operation.ofTree? (t : Tree) : Option Operation := do
  match ← t.fields? ["id", "kind", "inputs", "outputs", "state"] with
  | [id, kind, inputs, outputs, state] =>
    return {
      id := ← id.id?
      kind := ← kind.named? Kind.title Kind.all
      inputs := ← inputs.list? Tree.id?
      outputs := ← outputs.list? Tree.id?
      state := ← MemoryState.ofTree? state }
  | _ => none

/-! ## Programs -/

/-- The tree of a function. -/
def FunctionDef.toTree (f : FunctionDef) : Tree :=
  .record [("id", .number f.id), ("name", .text f.name), ("address", .number f.address),
    ("params", .numbers f.params), ("results", .numbers f.results),
    ("body", .list (f.body.toList.map Operation.toTree))]

/-- The function of a tree. -/
def FunctionDef.ofTree? (t : Tree) : Option FunctionDef := do
  match ← t.fields? ["id", "name", "address", "params", "results", "body"] with
  | [id, name, address, params, results, body] =>
    return {
      id := ← id.id?
      name := ← name.text?
      address := ← address.id?
      params := ← params.list? Tree.id?
      results := ← results.list? Tree.id?
      body := (← body.list? Operation.ofTree?).toArray }
  | _ => none

/-- The tree of an import. -/
def ImportDef.toTree (i : ImportDef) : Tree :=
  .record [("name", .text i.name), ("value", .number i.value)]

/-- The import of a tree. -/
def ImportDef.ofTree? (t : Tree) : Option ImportDef := do
  match ← t.fields? ["name", "value"] with
  | [name, value] => return ⟨← name.text?, ← value.id?⟩
  | _ => none

namespace Program

/-- The place of an operation that a tree gives: a function and a position. -/
def location? : Tree → Option (FunctionId × Nat)
  | .list [f, position] => do return (← f.id?, ← position.index?)
  | _ => none

/-- The tree of a program. -/
def toTree (p : Program) : Tree :=
  .record [("values", .list (p.values.toList.map Value.toTree)),
    ("functions", .list (p.functions.toList.map FunctionDef.toTree)),
    ("imports", .list (p.imports.toList.map ImportDef.toTree)),
    ("exports", .numbers p.exports),
    ("op_locations",
      .list (p.locations.toList.map fun (f, position) => .numbers [f, position]))]

/-- The program of a tree. -/
def ofTree? (t : Tree) : Option Program := do
  match ← t.fields? ["values", "functions", "imports", "exports", "op_locations"] with
  | [values, functions, imports, exports, locations] =>
    return {
      values := (← values.list? Value.ofTree?).toArray
      functions := (← functions.list? FunctionDef.ofTree?).toArray
      imports := (← imports.list? ImportDef.ofTree?).toArray
      exports := ← exports.list? Tree.id?
      locations := (← locations.list? location?).toArray }
  | _ => none

end Program
end PointerChannels
