import PointerChannels.Entity

/-!
# What a program says about addresses

Each part of a program says something about what its values and its memory may point to: an
allocation makes its output point to its object, a load lets what its address refers to flow
into its output, and so on.  `Program.Says` is the list of these rules.  It names values of the
program and objects by the part of the program they were made for; entities, constraints and
solvers play no part in it.
-/

namespace PointerChannels

/-- A statement of a program about what points where. -/
inductive Fact where
  /-- The value points to the object made for a part of the program. -/
  | object (value : ValueId) (kind : Entity.Kind) (origin : Origin)
  /-- What one value points to, another points to. -/
  | flow (source target : ValueId)
  /-- The value is read through the address. -/
  | load (value address : ValueId)
  /-- The value is written through the address. -/
  | store (address value : ValueId)
  /-- What one address refers to is copied to another. -/
  | copy (target source : ValueId)
  /-- The callee is called. -/
  | call (callee : ValueId) (arguments results : List ValueId)
  /-- The value may hold any external address. -/
  | external (value : ValueId)
  /-- The value may hold any unknown address. -/
  | unknown (value : ValueId)
  /-- What the value holds becomes known outside. -/
  | escapes (value : ValueId)

theorem Program.exists_value {p : Program} {v : ValueId} (h : v < p.values.size) :
    ∃ found, p.value v = .ok found :=
  ⟨p.values[v], entryAt_eq_ok.2 (Array.getElem?_eq_getElem h)⟩

/-- The value exists and holds an address. -/
def Program.IsPointer (p : Program) (v : ValueId) : Prop :=
  p.values[v]?.map Value.isPointer = some true

/-- The value exists and holds no address. -/
def Program.IsScalar (p : Program) (v : ValueId) : Prop :=
  p.values[v]?.map Value.isPointer = some false

theorem Program.IsPointer.not_isScalar {p : Program} {v : ValueId} (h : p.IsPointer v) :
    ¬ p.IsScalar v := by
  intro h'
  exact absurd (h.symm.trans h') (by simp)

theorem Program.IsPointer.lt_size {p : Program} {v : ValueId} (h : p.IsPointer v) :
    v < p.values.size := by
  obtain ⟨x, hx, -⟩ := Option.map_eq_some_iff.1 h
  exact (Array.getElem?_eq_some_iff.1 hx).1

/-- What an operation says. -/
def Operation.Says (program : Program) (op : Operation) (fact : Fact) : Prop :=
  match op.kind with
  | .alloca => ∃ output, op.outputs[0]? = some output ∧
      fact = .object output .allocaObject (.operation op.id)
  | .malloc => ∃ output, op.outputs[0]? = some output ∧
      fact = .object output .heapObject (.operation op.id)
  | .load => ∃ address value, op.inputs[0]? = some address ∧ op.outputs[0]? = some value ∧
      program.IsPointer value ∧ fact = .load value address
  | .store => ∃ address value, op.inputs[0]? = some address ∧ op.inputs[1]? = some value ∧
      program.IsPointer value ∧ fact = .store address value
  | .memcpy => ∃ target source, op.inputs[0]? = some target ∧ op.inputs[1]? = some source ∧
      fact = .copy target source
  | .call => ∃ callee, op.inputs[0]? = some callee ∧
      fact = .call callee op.arguments op.outputs
  | .elementPointer | .bitcast => ∃ input output, op.inputs[0]? = some input ∧
      op.outputs[0]? = some output ∧ program.IsPointer output ∧
      (program.IsPointer input ∧ fact = .flow input output ∨
        program.IsScalar input ∧ fact = .external output)
  | .intToPointer => ∃ output, op.outputs[0]? = some output ∧ fact = .external output
  | .phi => ∃ output, op.outputs[0]? = some output ∧ program.IsPointer output ∧
      ∃ input ∈ op.inputs, program.IsPointer input ∧ fact = .flow input output
  | .blackBox =>
      (∃ input ∈ op.inputs, program.IsPointer input ∧ fact = .escapes input) ∨
      ∃ output ∈ op.outputs, program.IsPointer output ∧
        (fact = .external output ∨ fact = .unknown output)
  | .free | .nullPointer | .undef => False

/-- What a program says. -/
inductive Program.Says (program : Program) : Fact → Prop
  /-- An import's address points to the import. -/
  | importObject {symbol : ImportDef} : symbol ∈ program.imports.toList →
      Says program (.object symbol.value .importObject (.importAddress symbol.value))
  /-- What an import's address points to is known outside. -/
  | importEscapes {symbol : ImportDef} : symbol ∈ program.imports.toList →
      Says program (.escapes symbol.value)
  /-- A function's address points to the function. -/
  | functionObject {f : FunctionDef} : f ∈ program.functions.toList →
      Says program (.object f.address .functionObject (.function f.id))
  /-- Operations say what they do. -/
  | operation {op : Operation} {fact : Fact} : op ∈ program.operations →
      op.Says program fact → Says program fact
  /-- What an exported address points to is known outside. -/
  | exported {v : ValueId} : v ∈ program.exports → program.IsPointer v →
      Says program (.escapes v)

/-- An address computed from another one within the same object. -/
def Program.Derives (program : Program) (input output : ValueId) : Prop :=
  ∃ op ∈ program.operations, (op.kind = .elementPointer ∨ op.kind = .bitcast) ∧
    op.inputs[0]? = some input ∧ op.outputs[0]? = some output ∧ program.IsPointer input ∧
    program.IsPointer output

theorem Program.Derives.flow {program : Program} {input output : ValueId}
    (h : program.Derives input output) : program.Says (.flow input output) := by
  obtain ⟨op, hop, hkind, hin, hout, hpin, hpout⟩ := h
  refine .operation hop ?_
  rcases hkind with hkind | hkind <;> rw [Operation.Says, hkind]
  · exact ⟨input, output, hin, hout, hpout, .inl ⟨hpin, rfl⟩⟩
  · exact ⟨input, output, hin, hout, hpout, .inl ⟨hpin, rfl⟩⟩

/-- What comes out of an operation that is not modelled is external as well as unknown. -/
theorem Program.Says.external_of_unknown {program : Program} {v : ValueId}
    (h : program.Says (.unknown v)) : program.Says (.external v) := by
  cases h with
  | @operation op _ hmem hop =>
      refine .operation hmem ?_
      unfold Operation.Says at hop ⊢
      split at hop
      case h_11 =>
        rcases hop with ⟨input, -, -, heq⟩ | ⟨output, hmem, hpointer, heq | heq⟩
        · exact absurd heq (by simp)
        · exact absurd heq (by simp)
        · obtain rfl := Fact.unknown.inj heq
          exact .inr ⟨_, hmem, hpointer, .inl rfl⟩
      all_goals simp at hop

/-- Objects are named by the part of the program they were made for. -/
theorem Program.Says.object {program : Program} {v : ValueId} {kind : Entity.Kind}
    {origin : Origin} (h : program.Says (.object v kind origin)) :
    kind.isMemoryObject = true ∧ kind.isSentinel = false ∧ origin ≠ .synthetic := by
  cases h with
  | importObject => exact ⟨rfl, rfl, by simp⟩
  | functionObject => exact ⟨rfl, rfl, by simp⟩
  | @operation op _ _ hop =>
      unfold Operation.Says at hop
      split at hop
      case h_1 =>
        obtain ⟨output, -, heq⟩ := hop
        obtain ⟨-, rfl, rfl⟩ := Fact.object.inj heq
        exact ⟨rfl, rfl, by simp⟩
      case h_2 =>
        obtain ⟨output, -, heq⟩ := hop
        obtain ⟨-, rfl, rfl⟩ := Fact.object.inj heq
        exact ⟨rfl, rfl, by simp⟩
      all_goals simp at hop

end PointerChannels
