import PointerChannels.Proofs.Program.Coherent

/-!
# Operations as commands make them

A command gives an operation the operands of its kind and orders it coarsely if it touches
memory.  Later commands add inputs to phis and change nothing else, so every operation of a
built program has at least the operands of its kind.

The values that a built program names need not exist: a command stores the numbers it is given.
`Program.Resolved` says that they do.

## Main statements

* `Program.shaped_of_build?` — every operation of a built program is shaped.
-/

namespace PointerChannels

namespace Operation

/-- An operation with the operands of its kind, not yet encoded. -/
structure Shaped (op : Operation) : Prop where
  inputs : op.kind.leastInputs ≤ op.inputs.length
  outputs : op.kind.leastOutputs ≤ op.outputs.length
  state_eq : op.state = if op.kind.touchesMemory then .coarse else .none

namespace Shaped

variable {op : Operation} {i : Nat}

theorem exists_input (h : op.Shaped) (hi : i < op.kind.leastInputs) :
    ∃ v, op.inputs[i]? = some v :=
  ⟨_, List.getElem?_eq_getElem (Nat.lt_of_lt_of_le hi h.inputs)⟩

theorem exists_output (h : op.Shaped) (hi : i < op.kind.leastOutputs) :
    ∃ v, op.outputs[i]? = some v :=
  ⟨_, List.getElem?_eq_getElem (Nat.lt_of_lt_of_le hi h.outputs)⟩

end Shaped
end Operation

namespace Program

variable {p q : Program}

/-- Every operation is shaped. -/
def Shaped (p : Program) : Prop := ∀ op ∈ p.operations, op.Shaped

/-- Every value that an operation reads, a function returns or the program exports exists. -/
structure Resolved (p : Program) : Prop where
  inputs : ∀ op ∈ p.operations, ∀ v ∈ op.inputs, v < p.values.size
  results : ∀ f ∈ p.functions.toList, ∀ v ∈ f.results, v < p.values.size
  exports : ∀ v ∈ p.exports, v < p.values.size

instance (p : Program) : Decidable p.Resolved :=
  decidable_of_iff ((∀ op ∈ p.operations, ∀ v ∈ op.inputs, v < p.values.size) ∧
    (∀ f ∈ p.functions.toList, ∀ v ∈ f.results, v < p.values.size) ∧
    ∀ v ∈ p.exports, v < p.values.size)
    ⟨fun h => ⟨h.1, h.2.1, h.2.2⟩, fun h => ⟨h.inputs, h.results, h.exports⟩⟩

/-- What comes from somewhere exists. -/
theorem Defines.lt_size {v : ValueId} {definition : Definition} (h : p.Defines v definition) :
    v < p.values.size := by
  obtain ⟨x, hx, -⟩ := Option.map_eq_some_iff.1 h
  exact (Array.getElem?_eq_some_iff.1 hx).1

namespace Coherent

/-- Addresses of imports exist. -/
theorem import_lt (hp : p.Coherent) {s : ImportDef} (hs : s ∈ p.imports.toList) :
    s.value < p.values.size := by
  obtain ⟨i, hi⟩ := Array.mem_iff_getElem?.1 (Array.mem_toList_iff.1 hs)
  exact (hp.imports hi).lt_size

/-- Addresses of functions exist. -/
theorem address_lt (hp : p.Coherent) {f : FunctionDef} (hf : f ∈ p.functions.toList) :
    f.address < p.values.size := by
  obtain ⟨i, hi⟩ := Array.mem_iff_getElem?.1 (Array.mem_toList_iff.1 hf)
  exact (hp.functions hi).address.lt_size

/-- Parameters exist. -/
theorem param_lt (hp : p.Coherent) {f : FunctionDef}
    (hf : f ∈ p.functions.toList) {v : ValueId} (hv : v ∈ f.params) : v < p.values.size := by
  obtain ⟨i, hi⟩ := Array.mem_iff_getElem?.1 (Array.mem_toList_iff.1 hf)
  obtain ⟨k, hk⟩ := List.mem_iff_getElem?.1 hv
  exact ((hp.functions hi).params hk).lt_size

/-- Outputs exist. -/
theorem output_lt (hp : p.Coherent) {op : Operation} (hop : op ∈ p.operations) {v : ValueId}
    (hv : v ∈ op.outputs) : v < p.values.size := by
  obtain ⟨k, hk⟩ := List.mem_iff_getElem?.1 hv
  exact (hp.defines_output hop hk).lt_size

end Coherent

/-! ## Commands -/

theorem length_addValues {define : Nat → Definition} {index : Nat}
    {specs : List (Option String × ValueType)} :
    (p.addValues define index specs).1.length = specs.length := by
  induction specs generalizing p index with
  | nil => rfl
  | cons spec rest ih => exact congrArg (· + 1) ih

theorem Shaped.keep (hp : p.Shaped) (h : q.functions = p.functions) : q.Shaped := by
  intro op hop
  exact hp op (by rwa [operations, ← h])

/-- A program in which one function was changed. -/
theorem Shaped.modify (hp : p.Shaped) (n : FunctionId) (change : FunctionDef → FunctionDef)
    (hfunctions : q.functions = p.functions.modify n change)
    (hchange : ∀ f ∈ p.functions.toList, ∀ op ∈ (change f).body, op.Shaped) : q.Shaped := by
  intro op hop
  obtain ⟨i, j, f, hi, hj⟩ := mem_operations.1 hop
  rw [hfunctions, Array.getElem?_modify] at hi
  split at hi
  · obtain ⟨g, hg, rfl⟩ := Option.map_eq_some_iff.1 hi
    exact hchange g (Array.mem_toList_iff.2 (Array.mem_of_getElem? hg)) op
      (Array.mem_of_getElem? hj)
  · exact hp op (mem_operations.2 ⟨i, j, f, hi, hj⟩)

theorem Shaped.of_mem (hp : p.Shaped) {f : FunctionDef} (hf : f ∈ p.functions.toList)
    {op : Operation} (hop : op ∈ f.body) : op.Shaped :=
  hp op (List.mem_flatMap.2 ⟨f, hf, Array.mem_toList_iff.2 hop⟩)

theorem Shaped.addFunction (hp : p.Shaped) {name : String} {params : List ValueType} :
    (p.addFunction name params).2.Shaped := by
  obtain ⟨⟨ids, q⟩, hids⟩ : ∃ r, (p.addValue (some name) .pointer
    (.functionAddress p.functions.size)).2.addValues (.parameter p.functions.size) 0
    (parameterNames name params) = r := ⟨_, rfl⟩
  obtain ⟨-, hfunctions, -⟩ := addValues_spec hids
  intro op hop
  simp only [Program.addFunction, hids, operations, Array.toList_push, hfunctions,
    List.flatMap_append, List.flatMap_singleton, List.append_nil] at hop
  exact hp op hop

theorem Shaped.addOperation (hp : p.Shaped) {n : FunctionId} {kind : Operation.Kind}
    {inputs : List ValueId} {outputs : List (Option String × ValueType)}
    {made : OperationId × List ValueId} (hin : kind.leastInputs ≤ inputs.length)
    (hout : kind.leastOutputs ≤ outputs.length)
    (h : p.addOperation n kind inputs outputs = .ok (made, q)) : q.Shaped := by
  obtain ⟨⟨ids, r⟩, hids⟩ : ∃ r, p.addValues (.output p.locations.size) 0 outputs = r :=
    ⟨_, rfl⟩
  obtain ⟨-, hfunctions, -⟩ := addValues_spec hids
  have hlength : ids.length = outputs.length := by rw [← length_addValues, hids]
  simp only [Program.addOperation, hids, bind_eq_ok, pure_eq_ok, Prod.mk.injEq] at h
  obtain ⟨-, -, -, rfl⟩ := h
  have hr : r.Shaped := hp.keep hfunctions
  refine hr.modify n (fun f => { f with body := f.body.push (.fresh _ kind inputs ids) }) rfl
    fun f hf op hop => ?_
  rcases Array.mem_push.1 hop with hop | rfl
  · exact hr.of_mem hf hop
  · exact ⟨hin, hlength ▸ hout, rfl⟩

theorem Shaped.addExport (hp : p.Shaped) {v : ValueId} : (p.addExport v).Shaped := by
  rw [Program.addExport]
  split
  · exact hp
  · exact hp.keep rfl

theorem Shaped.addPhiInput (hp : p.Shaped) {phi input : ValueId}
    (h : p.addPhiInput phi input = .ok q) : q.Shaped := by
  rw [Program.addPhiInput] at h
  split at h
  · exact absurd h (by simp)
  obtain ⟨found, -, h⟩ := bind_eq_ok.1 h
  split at h
  · next n position _ _ =>
    split at h
    · obtain rfl := pure_eq_ok.1 h
      refine hp.modify n (fun f => { f with body := f.body.modify position fun o =>
        { o with inputs := o.inputs ++ [input] } }) rfl fun f hf op hop => ?_
      obtain ⟨j, hj⟩ := Array.mem_iff_getElem?.1 hop
      rw [Array.getElem?_modify] at hj
      split at hj
      · obtain ⟨old, hold, rfl⟩ := Option.map_eq_some_iff.1 hj
        have hshaped := hp.of_mem hf (Array.mem_of_getElem? hold)
        refine ⟨Nat.le_trans hshaped.inputs ?_, hshaped.outputs, hshaped.state_eq⟩
        simp
      · exact hp.of_mem hf (Array.mem_of_getElem? hj)
    · exact absurd h throw_ne_ok
  · exact absurd h throw_ne_ok

theorem Shaped.change (hp : p.Shaped) (h : p.Changes q) : q.Shaped := by
  cases h with
  | unchanged => exact hp
  | addImport name => exact hp.keep rfl
  | addFunction name params => exact hp.addFunction
  | setResults f results =>
      exact hp.modify f ({ · with results }) rfl fun f hf op hop => hp.of_mem hf hop
  | addExport v => exact hp.addExport
  | addPhiInput h => exact hp.addPhiInput h
  | addOperation hin hout h => exact hp.addOperation hin hout h

/-- **Every operation of a built program is shaped.** -/
theorem shaped_of_build? {commands : List Command} (h : build? commands = .ok p) : p.Shaped :=
  build?_induction
    (by simp [Shaped, operations, empty]) (fun _ _ hchange hp => hp.change hchange) h

end Program
end PointerChannels
