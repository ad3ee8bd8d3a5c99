import PointerChannels.Program.Command
import PointerChannels.Proofs.Fold

/-!
# Programs that fit together

A program built by commands numbers its functions by their places, its operations by a table of
places, and says of every value where it comes from.  So a value has one origin: it is the
address of one import or of one function, one parameter, or one output of one operation.

The value numbers that a command is given are stored unseen, so nothing is said about operands.

## Main statements

* `Program.build?_induction` — induction over the changes that commands make.
* `Program.coherent_of_build?` — every built program is coherent.
* `Program.Coherent.eq_of_output` — a value is the output of at most one operation.
-/

namespace PointerChannels

namespace Operation

/-- How many inputs an operation of the kind has at least. -/
def Kind.leastInputs : Kind → Nat
  | alloca | malloc | nullPointer | undef | phi | blackBox => 0
  | free | load | call | elementPointer | bitcast | intToPointer => 1
  | store | memcpy => 2

/-- How many outputs an operation of the kind has at least. -/
def Kind.leastOutputs : Kind → Nat
  | free | store | memcpy | call | blackBox => 0
  | alloca | malloc | load | elementPointer | bitcast | intToPointer | nullPointer
      | undef | phi => 1

end Operation

namespace Program

variable {p q : Program}

/-! ## What commands do -/

/-- What a command does to a program: nothing, or one of six changes.  An operation that is
added has at least the operands of its kind. -/
inductive Changes (p : Program) : Program → Prop
  | unchanged : Changes p p
  | addImport (name : String) : Changes p (p.addImport name).2
  | addFunction (name : String) (params : List ValueType) :
      Changes p (p.addFunction name params).2
  | setResults (f : FunctionId) (results : List ValueId) :
      Changes p { p with functions := p.functions.modify f ({ · with results }) }
  | addExport (v : ValueId) : Changes p (p.addExport v)
  | addPhiInput {phi input : ValueId} {q : Program} :
      p.addPhiInput phi input = .ok q → Changes p q
  | addOperation {f : FunctionId} {kind : Operation.Kind} {inputs : List ValueId}
      {outputs : List (Option String × ValueType)} {made : OperationId × List ValueId}
      {q : Program} :
      kind.leastInputs ≤ inputs.length → kind.leastOutputs ≤ outputs.length →
      p.addOperation f kind inputs outputs = .ok (made, q) → Changes p q

theorem changes_of_apply {command : Command} {outcome : Outcome}
    (h : p.apply command = .ok (outcome, q)) : p.Changes q := by
  cases command
  case declareImport name =>
    obtain ⟨-, rfl⟩ := Prod.mk.inj (Except.ok.inj h)
    exact .addImport name
  case declareFunction name params =>
    obtain ⟨-, rfl⟩ := Prod.mk.inj (Except.ok.inj h)
    exact .addFunction name params
  case exportValue value =>
    obtain ⟨-, rfl⟩ := Prod.mk.inj (Except.ok.inj h)
    exact .addExport value
  all_goals
    simp only [Program.apply, addSingle, addEffect, addMany, bind_eq_ok, pure_eq_ok,
      Prod.mk.injEq] at h
  case addressOf f =>
    obtain ⟨-, -, -, rfl⟩ := h
    exact .unchanged
  case parameter f index =>
    obtain ⟨-, -, -, -, -, rfl⟩ := h
    exact .unchanged
  case setResults f results =>
    obtain ⟨-, -, -, rfl⟩ := h
    exact .setResults f results
  case exportFunction f =>
    obtain ⟨function, -, -, rfl⟩ := h
    exact .addExport function.address
  case addPhiInput phi input =>
    obtain ⟨r, hr, -, rfl⟩ := h
    exact .addPhiInput hr
  case bitcast f value =>
    obtain ⟨input, -, ⟨made, r⟩, hr, -, rfl⟩ := h
    exact .addOperation (by simp [Operation.Kind.leastInputs])
      (by simp [Operation.Kind.leastOutputs]) hr
  all_goals
    obtain ⟨⟨made, r⟩, hr, -, rfl⟩ := h
    exact .addOperation (by simp [Operation.Kind.leastInputs])
      (by simp [Operation.Kind.leastOutputs]) hr

/-- What holds of the empty program and survives every change holds of every built program. -/
theorem build?_induction {P : Program → Prop} (hempty : P empty)
    (hchange : ∀ p q, p.Changes q → P p → P q) {commands : List Command}
    (h : build? commands = .ok p) : P p := by
  refine foldlM_induction (P := P) ?_ hempty h
  intro p q command _ hp hq
  obtain ⟨⟨outcome, r⟩, hr, rfl⟩ := map_eq_ok.1 hq
  exact hchange p _ (changes_of_apply hr) hp

/-! ## Coherence -/

/-- A value exists and comes from the given place. -/
def Defines (p : Program) (v : ValueId) (definition : Definition) : Prop :=
  p.values[v]?.map Value.definition = some definition

theorem Defines.unique {v : ValueId} {a b : Definition} (ha : p.Defines v a)
    (hb : p.Defines v b) : a = b :=
  Option.some_injective _ (ha.symm.trans hb)

/-- A function fits its place: its number is the place, its values come from it, and its
operations stand where the table says. -/
structure FitsAt (p : Program) (i : Nat) (f : FunctionDef) : Prop where
  id_eq : f.id = i
  address : p.Defines f.address (.functionAddress i)
  params : ∀ {k : Nat} {v : ValueId}, f.params[k]? = some v → p.Defines v (.parameter i k)
  outputs : ∀ {j k : Nat} {op : Operation} {v : ValueId}, f.body[j]? = some op →
    op.outputs[k]? = some v → p.Defines v (.output op.id k)
  located : ∀ {j : Nat} {op : Operation}, f.body[j]? = some op →
    p.locations[op.id]? = some (i, j)

/-- Numbers are places, and values know where they come from. -/
structure Coherent (p : Program) : Prop where
  imports : ∀ {i : Nat} {s : ImportDef}, p.imports[i]? = some s →
    p.Defines s.value (.importAddress i)
  functions : ∀ {i : Nat} {f : FunctionDef}, p.functions[i]? = some f → p.FitsAt i f

theorem mem_operations {op : Operation} : op ∈ p.operations ↔
    ∃ (i j : Nat) (f : FunctionDef), p.functions[i]? = some f ∧ f.body[j]? = some op := by
  rw [operations, List.mem_flatMap]
  constructor
  · rintro ⟨f, hf, hop⟩
    obtain ⟨i, hi⟩ := Array.mem_iff_getElem?.1 (Array.mem_toList_iff.1 hf)
    obtain ⟨j, hj⟩ := Array.mem_iff_getElem?.1 (Array.mem_toList_iff.1 hop)
    exact ⟨i, j, f, hi, hj⟩
  · rintro ⟨i, j, f, hi, hj⟩
    exact ⟨f, Array.mem_toList_iff.2 (Array.mem_of_getElem? hi),
      Array.mem_toList_iff.2 (Array.mem_of_getElem? hj)⟩

namespace Coherent

/-- An operation is known by its number. -/
theorem eq_of_id (hp : p.Coherent) {a b : Operation} (ha : a ∈ p.operations)
    (hb : b ∈ p.operations) (h : a.id = b.id) : a = b := by
  obtain ⟨i, j, f, hi, hj⟩ := mem_operations.1 ha
  obtain ⟨i', j', f', hi', hj'⟩ := mem_operations.1 hb
  have hplace : some (i, j) = some (i', j') := by
    rw [← (hp.functions hi).located hj, ← (hp.functions hi').located hj', h]
  obtain ⟨rfl, rfl⟩ := Prod.mk.inj (Option.some_injective _ hplace)
  obtain rfl := Option.some_injective _ (hi.symm.trans hi')
  exact Option.some_injective _ (hj.symm.trans hj')

theorem defines_output (hp : p.Coherent) {op : Operation} (hop : op ∈ p.operations) {k : Nat}
    {v : ValueId} (hv : op.outputs[k]? = some v) : p.Defines v (.output op.id k) := by
  obtain ⟨i, j, f, hi, hj⟩ := mem_operations.1 hop
  exact (hp.functions hi).outputs hj hv

/-- A value is the output of at most one operation. -/
theorem eq_of_output (hp : p.Coherent) {a b : Operation} (ha : a ∈ p.operations)
    (hb : b ∈ p.operations) {j k : Nat} {v : ValueId} (hj : a.outputs[j]? = some v)
    (hk : b.outputs[k]? = some v) : a = b := by
  have h := (hp.defines_output ha hj).unique (hp.defines_output hb hk)
  exact hp.eq_of_id ha hb (Definition.output.inj h).1

/-- A function is known by its number. -/
theorem eq_of_function_id (hp : p.Coherent) {f g : FunctionDef} (hf : f ∈ p.functions.toList)
    (hg : g ∈ p.functions.toList) (h : f.id = g.id) : f = g := by
  obtain ⟨i, hi⟩ := Array.mem_iff_getElem?.1 (Array.mem_toList_iff.1 hf)
  obtain ⟨j, hj⟩ := Array.mem_iff_getElem?.1 (Array.mem_toList_iff.1 hg)
  rw [(hp.functions hi).id_eq, (hp.functions hj).id_eq] at h
  subst h
  exact Option.some_injective _ (hi.symm.trans hj)

theorem id_lt_size (hp : p.Coherent) {f : FunctionDef} (hf : f ∈ p.functions.toList) :
    f.id < p.functions.size := by
  obtain ⟨i, hi⟩ := Array.mem_iff_getElem?.1 (Array.mem_toList_iff.1 hf)
  rw [(hp.functions hi).id_eq]
  exact (Array.getElem?_eq_some_iff.1 hi).1

theorem nodup_imports (hp : p.Coherent) : (p.imports.toList.map ImportDef.value).Nodup := by
  rw [List.Nodup, List.pairwise_map, List.pairwise_iff_getElem]
  intro i j hi hj hlt heq
  have hdi := hp.imports (Array.getElem?_toList ▸ List.getElem?_eq_getElem hi)
  have hdj := hp.imports (Array.getElem?_toList ▸ List.getElem?_eq_getElem hj)
  rw [heq] at hdi
  have := Definition.importAddress.inj (hdi.unique hdj)
  omega

theorem nodup_functions (hp : p.Coherent) : (p.functions.toList.map FunctionDef.id).Nodup := by
  rw [List.Nodup, List.pairwise_map, List.pairwise_iff_getElem]
  intro i j hi hj hlt heq
  have hfi := hp.functions (Array.getElem?_toList ▸ List.getElem?_eq_getElem hi)
  have hfj := hp.functions (Array.getElem?_toList ▸ List.getElem?_eq_getElem hj)
  rw [hfi.id_eq, hfj.id_eq] at heq
  exact absurd heq (Nat.ne_of_lt hlt)

theorem nodup_operations (hp : p.Coherent) : (p.operations.map Operation.id).Nodup := by
  rw [operations, List.map_flatMap, List.nodup_flatMap]
  constructor
  · intro f hf
    obtain ⟨i, hi⟩ := Array.mem_iff_getElem?.1 (Array.mem_toList_iff.1 hf)
    rw [List.Nodup, List.pairwise_map, List.pairwise_iff_getElem]
    intro j k hj hk hlt heq
    have hpj := (hp.functions hi).located (Array.getElem?_toList ▸ List.getElem?_eq_getElem hj)
    have hpk := (hp.functions hi).located (Array.getElem?_toList ▸ List.getElem?_eq_getElem hk)
    rw [heq, hpk] at hpj
    exact absurd (Prod.mk.inj (Option.some_injective _ hpj)).2.symm (Nat.ne_of_lt hlt)
  · rw [List.pairwise_iff_getElem]
    intro i k hi hk hlt id hidi hidk
    obtain ⟨a, ha, hida⟩ := List.mem_map.1 hidi
    obtain ⟨b, hb, hidb⟩ := List.mem_map.1 hidk
    obtain ⟨j, hj⟩ := Array.mem_iff_getElem?.1 (Array.mem_toList_iff.1 ha)
    obtain ⟨l, hl⟩ := Array.mem_iff_getElem?.1 (Array.mem_toList_iff.1 hb)
    have hpa := (hp.functions (Array.getElem?_toList ▸ List.getElem?_eq_getElem hi)).located hj
    have hpb := (hp.functions (Array.getElem?_toList ▸ List.getElem?_eq_getElem hk)).located hl
    rw [hida, ← hidb, hpb] at hpa
    exact absurd (Prod.mk.inj (Option.some_injective _ hpa)).1.symm (Nat.ne_of_lt hlt)

end Coherent

/-! ## Values only grow -/

/-- Every value of one program is the same in another, and so is every
place of an operation. -/
structure Keeps (p q : Program) : Prop where
  values : ∀ {v : Nat} {x : Value}, p.values[v]? = some x → q.values[v]? = some x
  locations : ∀ {op : Nat} {place : FunctionId × Nat}, p.locations[op]? = some place →
    q.locations[op]? = some place

theorem Keeps.trans {r : Program} (h : Keeps p q) (h' : Keeps q r) : Keeps p r :=
  ⟨fun hx => h'.values (h.values hx), fun hx => h'.locations (h.locations hx)⟩

theorem Keeps.defines (h : Keeps p q) {v : ValueId} {definition : Definition}
    (hv : p.Defines v definition) : q.Defines v definition := by
  obtain ⟨x, hx, hd⟩ := Option.map_eq_some_iff.1 hv
  exact Option.map_eq_some_iff.2 ⟨x, h.values hx, hd⟩

theorem Keeps.fitsAt (h : Keeps p q) {i : Nat} {f : FunctionDef} (hf : p.FitsAt i f) :
    q.FitsAt i f where
  id_eq := hf.id_eq
  address := h.defines hf.address
  params hv := h.defines (hf.params hv)
  outputs hop hv := h.defines (hf.outputs hop hv)
  located hop := h.locations (hf.located hop)

theorem getElem?_push_of_some {α : Type} {xs : Array α} {x y : α} {i : Nat}
    (h : xs[i]? = some y) : (xs.push x)[i]? = some y := by
  have hi := (Array.getElem?_eq_some_iff.1 h).1
  rw [Array.getElem?_push, if_neg (Nat.ne_of_lt hi), h]

theorem keeps_addValue {name : Option String} {type : ValueType} {definition : Definition} :
    Keeps p (p.addValue name type definition).2 :=
  ⟨getElem?_push_of_some, id⟩

theorem defines_addValue {name : Option String} {type : ValueType} {definition : Definition} :
    (p.addValue name type definition).2.Defines (p.addValue name type definition).1
    definition := by
  simp [Defines, addValue]

/-- New values are defined as told, position by position, and nothing else is new. -/
theorem addValues_spec {define : Nat → Definition} {index : Nat}
    {specs : List (Option String × ValueType)} {ids : List ValueId}
    (h : p.addValues define index specs = (ids, q)) :
    Keeps p q ∧ q.functions = p.functions ∧ q.imports = p.imports ∧ q.locations = p.locations ∧
    ∀ {k : Nat} {v : ValueId}, ids[k]? = some v → q.Defines v (define (index + k)) := by
  induction specs generalizing p q index ids with
  | nil =>
      obtain ⟨rfl, rfl⟩ := Prod.mk.inj h
      exact ⟨⟨id, id⟩, rfl, rfl, rfl, by simp⟩
  | cons spec rest ih =>
      obtain ⟨name, type⟩ := spec
      obtain ⟨⟨ids', q'⟩, hids⟩ : ∃ r, (p.addValue name type (define index)).2.addValues define
        (index + 1) rest = r := ⟨_, rfl⟩
      obtain ⟨hkeeps, hfunctions, himports, hlocations, hdefines⟩ := ih hids
      simp only [addValues, hids] at h
      obtain ⟨rfl, rfl⟩ := Prod.mk.inj h
      refine ⟨keeps_addValue.trans hkeeps, hfunctions, himports, hlocations, ?_⟩
      intro k v hv
      cases k with
      | zero =>
          obtain rfl := Option.some_injective _ hv
          exact hkeeps.defines defines_addValue
      | succ k =>
          rw [show index + (k + 1) = index + 1 + k by omega]
          exact hdefines hv

/-! ## Commands -/

/-- New values do no harm. -/
theorem Coherent.keep (hp : p.Coherent) (h : Keeps p q) (himports : q.imports = p.imports)
    (hfunctions : q.functions = p.functions) : q.Coherent where
  imports hs := h.defines (hp.imports (himports ▸ hs))
  functions hf := h.fitsAt (hp.functions (hfunctions ▸ hf))

theorem Coherent.addImport (hp : p.Coherent) {name : String} :
    (p.addImport name).2.Coherent := by
  have hv : (p.addValue (some name) .pointer (.importAddress p.imports.size)).2.Coherent :=
    hp.keep keeps_addValue rfl rfl
  have hkeeps : Keeps (p.addValue (some name) .pointer (.importAddress p.imports.size)).2
      (p.addImport name).2 := ⟨id, id⟩
  refine ⟨?_, fun hf => hkeeps.fitsAt (hv.functions hf)⟩
  intro i s hs
  rw [Program.addImport, Array.getElem?_push] at hs
  split at hs
  · next hi =>
      obtain rfl := hi
      obtain rfl := Option.some_injective _ hs
      exact defines_addValue
  · exact hkeeps.defines (hv.imports hs)

/-- A program with one more function at the end. -/
theorem Coherent.pushFunction (hp : p.Coherent) {f : FunctionDef}
    (hf : p.FitsAt p.functions.size f) :
    { p with functions := p.functions.push f }.Coherent := by
  have hkeeps : Keeps p { p with functions := p.functions.push f } := ⟨id, id⟩
  refine ⟨fun hs => hkeeps.defines (hp.imports hs), ?_⟩
  intro i g hg
  rw [Array.getElem?_push] at hg
  split at hg
  · next hi =>
      obtain rfl := hi
      obtain rfl := Option.some_injective _ hg
      exact hkeeps.fitsAt hf
  · exact hkeeps.fitsAt (hp.functions hg)

theorem Coherent.addFunction (hp : p.Coherent) {name : String} {params : List ValueType} :
    (p.addFunction name params).2.Coherent := by
  obtain ⟨⟨ids, q⟩, hids⟩ : ∃ r, (p.addValue (some name) .pointer
    (.functionAddress p.functions.size)).2.addValues (.parameter p.functions.size) 0
    (parameterNames name params) = r := ⟨_, rfl⟩
  obtain ⟨hkeeps, hfunctions, himports, -, hparams⟩ := addValues_spec hids
  have hq : q.Coherent := hp.keep (keeps_addValue.trans hkeeps) himports hfunctions
  have hsize : q.functions.size = p.functions.size := congrArg Array.size hfunctions
  have haddress : q.Defines p.values.size (.functionAddress p.functions.size) :=
    hkeeps.defines defines_addValue
  have hfits : q.FitsAt q.functions.size
      ⟨p.functions.size, name, p.values.size, ids, [], #[]⟩ := by
    rw [hsize]
    exact ⟨rfl, haddress, fun {k v} hv => by simpa using hparams hv, by simp, by simp⟩
  have hout := hq.pushFunction hfits
  simp only [Program.addFunction, hids]
  exact hout

/-- A program in which one function was changed to one that still fits. -/
theorem Coherent.modify (hp : p.Coherent) (n : FunctionId) (change : FunctionDef → FunctionDef)
    (hkeeps : Keeps p q) (himports : q.imports = p.imports)
    (hfunctions : q.functions = p.functions.modify n change)
    (hchange : ∀ f, p.functions[n]? = some f → q.FitsAt n (change f)) : q.Coherent := by
  refine ⟨fun hs => hkeeps.defines (hp.imports (himports ▸ hs)), ?_⟩
  intro i g hg
  rw [hfunctions, Array.getElem?_modify] at hg
  split at hg
  · next hi =>
      obtain rfl := hi
      obtain ⟨f, hf, rfl⟩ := Option.map_eq_some_iff.1 hg
      exact hchange f hf
  · exact hkeeps.fitsAt (hp.functions hg)

/-- Changing an operation in place, but not its number and outputs. -/
theorem Coherent.modifyAt (hp : p.Coherent) {n : FunctionId} {position : Nat}
    {change : Operation → Operation}
    (hchange : ∀ op, (change op).id = op.id ∧ (change op).outputs = op.outputs) :
    (p.modifyAt n position change).Coherent := by
  refine hp.modify n (fun f => { f with body := f.body.modify position change })
    ⟨id, id⟩ rfl rfl fun f hf => ?_
  have hfits := hp.functions hf
  -- an operation of the new body is one of the old body up to the change
  have hbody : ∀ {j : Nat} {op : Operation}, (f.body.modify position change)[j]? = some op →
      ∃ old, f.body[j]? = some old ∧ op.id = old.id ∧ op.outputs = old.outputs := by
    intro j op hop
    rw [Array.getElem?_modify] at hop
    split at hop
    · obtain ⟨old, hold, rfl⟩ := Option.map_eq_some_iff.1 hop
      exact ⟨old, hold, hchange old⟩
    · exact ⟨op, hop, rfl, rfl⟩
  refine ⟨hfits.id_eq, hfits.address, hfits.params, ?_, ?_⟩
  · intro j k op v hop hv
    obtain ⟨old, hold, hid, hout⟩ := hbody hop
    rw [hid]
    exact hfits.outputs hold (hout ▸ hv)
  · intro j op hop
    obtain ⟨old, hold, hid, -⟩ := hbody hop
    rw [hid]
    exact hfits.located hold

theorem Coherent.addOperation (hp : p.Coherent) {n : FunctionId} {kind : Operation.Kind}
    {inputs : List ValueId} {outputs : List (Option String × ValueType)}
    {made : OperationId × List ValueId}
    (h : p.addOperation n kind inputs outputs = .ok (made, q)) : q.Coherent := by
  obtain ⟨⟨ids, r⟩, hids⟩ : ∃ r, p.addValues (.output p.locations.size) 0 outputs = r :=
    ⟨_, rfl⟩
  obtain ⟨hkeeps, hfunctions, himports, hlocations, hdefines⟩ := addValues_spec hids
  have hr : r.Coherent := hp.keep hkeeps himports hfunctions
  simp only [Program.addOperation, hids, bind_eq_ok, pure_eq_ok, Prod.mk.injEq,
    Program.function, entryAt_eq_ok] at h
  obtain ⟨f, hf, -, rfl⟩ := h
  refine hr.modify n (fun f => { f with body := f.body.push (.fresh _ kind inputs ids) })
    ⟨id, getElem?_push_of_some⟩ rfl rfl fun f' hf' => ?_
  obtain rfl := Option.some_injective _ (hf.symm.trans hf')
  have hfits := hr.functions hf
  -- the new operation stands last in the body and has the next number
  have hbody : ∀ {j : Nat} {op : Operation},
      (f.body.push (.fresh p.locations.size kind inputs ids))[j]? = some op →
      j = f.body.size ∧ op = .fresh p.locations.size kind inputs ids ∨
      f.body[j]? = some op := by
    intro j op hop
    rw [Array.getElem?_push] at hop
    split at hop
    · next hj => exact .inl ⟨hj, (Option.some_injective _ hop).symm⟩
    · exact .inr hop
  refine ⟨hfits.id_eq, hfits.address, hfits.params, ?_, ?_⟩
  · intro j k op v hop hv
    rcases hbody hop with ⟨-, rfl⟩ | hop
    · rw [← Nat.zero_add k]
      exact hdefines hv
    · exact hfits.outputs hop hv
  · intro j op hop
    rcases hbody hop with ⟨rfl, rfl⟩ | hop
    · show (r.locations.push (n, f.body.size))[p.locations.size]? = _
      rw [← hlocations, Array.getElem?_push, if_pos rfl]
    · exact getElem?_push_of_some (hfits.located hop)

theorem Coherent.addExport (hp : p.Coherent) {v : ValueId} : (p.addExport v).Coherent := by
  rw [Program.addExport]
  split
  · exact hp
  · exact hp.keep ⟨id, id⟩ rfl rfl

theorem Coherent.addPhiInput (hp : p.Coherent) {phi input : ValueId}
    (h : p.addPhiInput phi input = .ok q) : q.Coherent := by
  rw [Program.addPhiInput] at h
  split at h
  · exact absurd h (by simp)
  · obtain ⟨found, -, h⟩ := bind_eq_ok.1 h
    split at h
    · split at h
      · obtain rfl := pure_eq_ok.1 h
        exact hp.modifyAt fun op => ⟨rfl, rfl⟩
      · exact absurd h throw_ne_ok
    · exact absurd h throw_ne_ok

theorem Coherent.change (hp : p.Coherent) (h : p.Changes q) : q.Coherent := by
  cases h with
  | unchanged => exact hp
  | addImport name => exact hp.addImport
  | addFunction name params => exact hp.addFunction
  | setResults f results =>
      refine hp.modify f ({ · with results }) ⟨id, id⟩ rfl rfl fun g hg => ?_
      exact { hp.functions hg with }
  | addExport v => exact hp.addExport
  | addPhiInput h => exact hp.addPhiInput h
  | addOperation _ _ h => exact hp.addOperation h

/-- **Every program built by commands is coherent.** -/
theorem coherent_of_build? {commands : List Command} (h : build? commands = .ok p) :
    p.Coherent :=
  build?_induction ⟨by simp [empty], by simp [empty]⟩ (fun _ _ hchange hp => hp.change hchange) h

end Program
end PointerChannels
