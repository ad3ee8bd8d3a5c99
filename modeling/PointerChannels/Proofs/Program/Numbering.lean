import PointerChannels.Proofs.Program.Shape
import PointerChannels.Proofs.Program.State

/-!
# Dense numbers

Commands hand out the numbers of values, functions and operations in order of creation, each
over the whole program, while operations are interleaved over the bodies of the functions.  In
a built program the three numberings fit together: every number below a count is taken, by the
thing that stands in its place, and a value names the one place that names it.

A command adds to what is there.  Only two commands touch what was there before: one replaces
the list of results of a function, the other appends an input to one phi.

## Main definitions

* `Program.introduced?` — the value that stands at a place where values come from.
* `Program.WellFormed` — numbers are dense and every value has one origin.
* `Program.Advances` — what one command adds, and that it keeps the rest.

## Main statements

* `Program.traced_of_build?` — every value of a built program stands where it comes from.
* `Program.advances_of_apply` — the effect of a command.
-/

namespace PointerChannels

/-! ## What a command adds and changes -/

namespace Command

/-- The operation that a command adds: its function, its kind and its inputs. -/
def operation? : Command → Option (FunctionId × Operation.Kind × List ValueId)
  | .alloca f _ => some (f, .alloca, [])
  | .malloc f _ => some (f, .malloc, [])
  | .free f address => some (f, .free, [address])
  | .load f address _ => some (f, .load, [address])
  | .store f address value => some (f, .store, [address, value])
  | .memcpy f target source => some (f, .memcpy, [target, source])
  | .call f callee arguments _ => some (f, .call, callee :: arguments)
  | .elementPointer f base => some (f, .elementPointer, [base])
  | .bitcast f value => some (f, .bitcast, [value])
  | .intToPointer f integer => some (f, .intToPointer, [integer])
  | .nullPointer f => some (f, .nullPointer, [])
  | .undef f _ => some (f, .undef, [])
  | .phi f inputs _ => some (f, .phi, inputs)
  | .blackBox f inputs _ => some (f, .blackBox, inputs)
  | _ => none

/-- How many values a command adds. -/
def numValues : Command → Nat
  | .declareFunction _ params => params.length + 1
  | .call _ _ _ results => results.length
  | .blackBox _ _ outputs => outputs.length
  | .declareImport _ | .alloca .. | .malloc .. | .load .. | .elementPointer .. | .bitcast ..
  | .intToPointer .. | .nullPointer .. | .undef .. | .phi .. => 1
  | _ => 0

/-- The results of a function after a command. -/
def results : Command → FunctionId → List ValueId → List ValueId
  | .setResults f results, g, old => if f = g then results else old
  | _, _, old => old

/-- An operation after a command. -/
def amend : Command → Operation → Operation
  | .addPhiInput joined input, op =>
    if op.outputs.contains joined then { op with inputs := op.inputs ++ [input] } else op
  | _, op => op

/-- A command that adds an operation changes no other. -/
theorem amend_of_operation? {command : Command}
    {x : FunctionId × Operation.Kind × List ValueId} (h : command.operation? = some x) :
    command.amend = id ∧ command.results = fun _ old => old := by
  cases command
  all_goals first | exact ⟨rfl, rfl⟩ | exact absurd h (by simp [operation?])

end Command

namespace Program

variable {p q r : Program}

/-- The value that stands at a place where values come from. -/
def introduced? (p : Program) : Definition → Option ValueId
  | .parameter f index => p.functions[f]?.bind (·.params[index]?)
  | .functionAddress f => p.functions[f]?.map (·.address)
  | .importAddress index => p.imports[index]?.map (·.value)
  | .output op index => (p.operation? op).toOption.join.bind (·.outputs[index]?)

theorem operation?_eq_ok {o : OperationId} {op : Operation} : p.operation? o = .ok (some op) ↔
    ∃ i j, p.locations[o]? = some (i, j) ∧ p.operationAt? i j = some op := by
  rw [operation?]
  split
  · next h => simp [h]
  · next i j h =>
    simp only [bind_eq_ok, function, entryAt_eq_ok, pure_eq_ok, h, Option.some.injEq,
      Prod.mk.injEq, operationAt?, Option.bind_eq_some_iff]
    constructor
    · exact fun hop => ⟨i, j, ⟨rfl, rfl⟩, hop⟩
    · rintro ⟨_, _, ⟨rfl, rfl⟩, hop⟩
      exact hop

theorem introduced?_output {o k : Nat} {v : ValueId} : p.introduced? (.output o k) = some v ↔
    ∃ op, p.operation? o = .ok (some op) ∧ op.outputs[k]? = some v := by
  simp only [introduced?, Option.bind_eq_some_iff, Option.join_eq_some_iff, toOption_eq_some]

/-! ## Frames -/

/-- Everything of one program is in another, but for the results of functions and for
operations, which may have been changed as told. -/
structure Frame (results : FunctionId → List ValueId → List ValueId)
    (amend : Operation → Operation) (p q : Program) : Prop extends Keeps p q where
  imports : ∀ {i : Nat} {s : ImportDef}, p.imports[i]? = some s → q.imports[i]? = some s
  exports : p.exports <+: q.exports
  functions : ∀ {i : Nat} {f : FunctionDef}, p.functions[i]? = some f →
    ∃ body, q.functions[i]? = some { f with results := results i f.results, body }
  operations : ∀ {i j : Nat} {op : Operation}, p.operationAt? i j = some op →
    q.operationAt? i j = some (amend op)

/-- Everything of one program is in another as it was. -/
abbrev Grows : Program → Program → Prop := Frame (fun _ old => old) id

theorem Grows.trans (h : p.Grows q) (h' : q.Grows r) : p.Grows r where
  toKeeps := h.toKeeps.trans h'.toKeeps
  imports hs := h'.imports (h.imports hs)
  exports := h.exports.trans h'.exports
  functions hf := by
    obtain ⟨_, hbody⟩ := h.functions hf
    obtain ⟨body, hbody'⟩ := h'.functions hbody
    exact ⟨body, hbody'⟩
  operations hop := h'.operations (h.operations hop)

/-- Programs with the same functions. -/
theorem grows_of_functions_eq (h : Keeps p q) (hfunctions : q.functions = p.functions)
    (himports : ∀ {i : Nat} {s : ImportDef}, p.imports[i]? = some s → q.imports[i]? = some s)
    (hexports : p.exports <+: q.exports) : p.Grows q where
  toKeeps := h
  imports := himports
  exports := hexports
  functions {i f} hf := ⟨f.body, by rw [hfunctions, hf]⟩
  operations {i j op} hop := by
    rw [operationAt?, hfunctions]
    exact hop

theorem grows_refl : p.Grows p := grows_of_functions_eq ⟨id, id⟩ rfl id (List.prefix_refl _)

/-- Where a value stands, it still stands in a program that keeps the outputs of operations. -/
theorem Frame.introduced {results : FunctionId → List ValueId → List ValueId}
    {amend : Operation → Operation} (h : Frame results amend p q)
    (hamend : ∀ op, (amend op).outputs = op.outputs) {d : Definition} {v : ValueId}
    (hv : p.introduced? d = some v) : q.introduced? d = some v := by
  cases d with
  | parameter f index =>
      obtain ⟨g, hg, hindex⟩ := Option.bind_eq_some_iff.1 hv
      obtain ⟨body, hbody⟩ := h.functions hg
      simp [introduced?, hbody, hindex]
  | functionAddress f =>
      obtain ⟨g, hg, rfl⟩ := Option.map_eq_some_iff.1 hv
      obtain ⟨body, hbody⟩ := h.functions hg
      simp [introduced?, hbody]
  | importAddress index =>
      obtain ⟨s, hs, rfl⟩ := Option.map_eq_some_iff.1 hv
      simp [introduced?, h.imports hs]
  | output o k =>
      obtain ⟨op, hop, hk⟩ := introduced?_output.1 hv
      obtain ⟨i, j, hplace, hat⟩ := operation?_eq_ok.1 hop
      refine introduced?_output.2 ⟨amend op, operation?_eq_ok.2 ⟨i, j, h.locations hplace,
        h.operations hat⟩, ?_⟩
      rw [hamend, hk]

/-! ## New values -/

/-- New values are numbered on from the last one, and come from where they were told to. -/
theorem addValues_numbers {define : Nat → Definition} {index : Nat}
    {specs : List (Option String × ValueType)} {ids : List ValueId}
    (h : p.addValues define index specs = (ids, q)) :
    q.exports = p.exports ∧ q.values.size = p.values.size + specs.length ∧
    ∀ {v : Nat} {x : Value}, q.values[v]? = some x → p.values[v]? = some x ∨
      x.id = v ∧ ∃ k, ids[k]? = some v ∧ x.definition = define (index + k) := by
  induction specs generalizing p q index ids with
  | nil =>
      obtain ⟨rfl, rfl⟩ := Prod.mk.inj h
      exact ⟨rfl, rfl, .inl⟩
  | cons spec rest ih =>
      obtain ⟨name, type⟩ := spec
      obtain ⟨⟨ids', q'⟩, hids⟩ : ∃ r, (p.addValue name type (define index)).2.addValues define
        (index + 1) rest = r := ⟨_, rfl⟩
      obtain ⟨hexports, hsize, hvalues⟩ := ih hids
      simp only [addValues, hids] at h
      obtain ⟨rfl, rfl⟩ := Prod.mk.inj h
      refine ⟨hexports, ?_, fun {v x} hx => ?_⟩
      · rw [hsize, addValue, Array.size_push, List.length_cons]
        omega
      rcases hvalues hx with hold | ⟨hid, k, hk, hd⟩
      · rw [addValue, Array.getElem?_push] at hold
        split at hold
        · next hv =>
          obtain rfl := Option.some_injective _ hold
          exact .inr ⟨hv.symm, 0, by simp [addValue, hv], rfl⟩
        · exact .inl hold
      · exact .inr ⟨hid, k + 1, hk, by rw [hd, Nat.add_assoc, Nat.add_comm 1 k]⟩

theorem grows_addValue {name : Option String} {type : ValueType} {definition : Definition} :
    p.Grows (p.addValue name type definition).2 :=
  grows_of_functions_eq keeps_addValue rfl id (List.prefix_refl _)

theorem grows_addValues {define : Nat → Definition} {index : Nat}
    {specs : List (Option String × ValueType)} {ids : List ValueId}
    (h : p.addValues define index specs = (ids, q)) : p.Grows q := by
  obtain ⟨hkeeps, hfunctions, himports, -, -⟩ := addValues_spec h
  obtain ⟨hexports, -, -⟩ := addValues_numbers h
  refine grows_of_functions_eq hkeeps hfunctions (fun hs => ?_) ?_
  · rwa [himports]
  · rw [hexports]

/-! ## Frames of the changes -/

theorem grows_addImport {name : String} : p.Grows (p.addImport name).2 :=
  grows_addValue.trans
    (grows_of_functions_eq ⟨id, id⟩ rfl getElem?_push_of_some (List.prefix_refl _))

theorem grows_addExport {v : ValueId} : p.Grows (p.addExport v) := by
  rw [addExport]
  split
  · exact grows_refl
  · exact grows_of_functions_eq ⟨id, id⟩ rfl id (List.prefix_append _ _)

theorem grows_pushFunction {f : FunctionDef} :
    p.Grows { p with functions := p.functions.push f } where
  values := id
  locations := id
  imports := id
  exports := List.prefix_refl _
  functions {i g} hg := ⟨g.body, getElem?_push_of_some hg⟩
  operations {i j op} hop := by
    obtain ⟨g, hg, hj⟩ := Option.bind_eq_some_iff.1 hop
    exact Option.bind_eq_some_iff.2 ⟨g, getElem?_push_of_some hg, hj⟩

theorem grows_pushOperation {n : FunctionId} {place : FunctionId × Nat} {new : Operation} :
    p.Grows { p with
      locations := p.locations.push place
      functions := p.functions.modify n fun f => { f with body := f.body.push new } } where
  values := id
  locations := getElem?_push_of_some
  imports := id
  exports := List.prefix_refl _
  functions {i f} hf := by
    rw [Array.getElem?_modify]
    split
    · exact ⟨f.body.push new, by rw [hf]; rfl⟩
    · exact ⟨f.body, hf⟩
  operations {i j op} hop := by
    obtain ⟨f, hf, hj⟩ := Option.bind_eq_some_iff.1 hop
    rw [operationAt?, Array.getElem?_modify, hf]
    split
    · exact getElem?_push_of_some hj
    · exact hj

/-- The changed function has other results. -/
theorem frame_setResults {n : FunctionId} {results : List ValueId} :
    Frame (Command.setResults n results).results id p
      { p with functions := p.functions.modify n ({ · with results }) } where
  values := id
  locations := id
  imports := id
  exports := List.prefix_refl _
  functions {i f} hf := by
    refine ⟨f.body, ?_⟩
    rw [Array.getElem?_modify, hf, Command.results]
    split <;> rfl
  operations {i j op} hop := by
    obtain ⟨f, hf, hj⟩ := Option.bind_eq_some_iff.1 hop
    rw [operationAt?, Array.getElem?_modify, hf]
    split <;> exact hj

theorem addPhiInput_eq_ok {phi input : ValueId} : p.addPhiInput phi input = .ok q ↔
    ∃ o i j op, p.definingOperation? phi = some o ∧ p.locations[o]? = some (i, j) ∧
      p.operationAt? i j = some op ∧ op.kind = .phi ∧
      q = p.modifyAt i j fun op => { op with inputs := op.inputs ++ [input] } := by
  rw [addPhiInput]
  split
  · next h => simp [h]
  next o h =>
  simp only [bind_eq_ok, h, Option.some.injEq]
  constructor
  · rintro ⟨found, hfound, hq⟩
    split at hq
    · next i j op hplace =>
      split at hq
      · next hkind =>
        obtain ⟨i', j', hplace', hat⟩ := operation?_eq_ok.1 hfound
        obtain ⟨rfl, rfl⟩ := Prod.mk.inj (Option.some_injective _ (hplace.symm.trans hplace'))
        exact ⟨o, i, j, op, rfl, hplace, hat, hkind, (pure_eq_ok.1 hq).symm⟩
      · exact absurd hq throw_ne_ok
    · exact absurd hq throw_ne_ok
  · rintro ⟨_, i, j, op, rfl, hplace, hat, hkind, rfl⟩
    refine ⟨some op, operation?_eq_ok.2 ⟨i, j, hplace, hat⟩, ?_⟩
    simp only [hplace, hkind, if_true]
    rfl

theorem definingOperation?_eq_some {v : ValueId} {o : OperationId} :
    p.definingOperation? v = some o ↔ ∃ k, p.Defines v (.output o k) := by
  simp only [definingOperation?, Defines]
  split
  · next op k h => simp [h]
  · next h => simpa using fun k hk => h o k hk

/-- An operation that is added stands last in its body, under the next number. -/
theorem addOperation_spec {n : FunctionId} {kind : Operation.Kind} {inputs : List ValueId}
    {outputs : List (Option String × ValueType)} {made : OperationId × List ValueId}
    (h : p.addOperation n kind inputs outputs = .ok (made, q)) :
    ∃ ids r place, p.addValues (.output p.locations.size) 0 outputs = (ids, r) ∧ r.Grows q ∧
      q.values = r.values ∧ q.exports = r.exports ∧ q.locations = p.locations.push (n, place) ∧
      q.operationAt? n place = some (.fresh p.locations.size kind inputs ids) := by
  obtain ⟨⟨ids, r⟩, hids⟩ : ∃ r, p.addValues (.output p.locations.size) 0 outputs = r :=
    ⟨_, rfl⟩
  obtain ⟨-, -, -, hlocations, -⟩ := addValues_spec hids
  simp only [addOperation, hids, bind_eq_ok, pure_eq_ok, Prod.mk.injEq, function,
    entryAt_eq_ok] at h
  obtain ⟨f, hf, -, rfl⟩ := h
  refine ⟨ids, r, f.body.size, hids, grows_pushOperation, rfl, rfl, by rw [hlocations], ?_⟩
  simp [operationAt?, Array.getElem?_modify, hf]

/-! ## Values stand where they come from -/

/-- Values have their places as numbers and stand where they come from; every numbered
operation has a place; nothing is exported twice. -/
structure Traced (p : Program) : Prop where
  value_id : ∀ {v : Nat} {x : Value}, p.values[v]? = some x → x.id = v
  introduced : ∀ {v : ValueId} {d : Definition}, p.Defines v d → p.introduced? d = some v
  filled : ∀ {o i j : Nat}, p.locations[o]? = some (i, j) →
    ∃ op, p.operationAt? i j = some op ∧ op.id = o
  exports : p.exports.Nodup

/-- What is kept needs no new argument: only new values and new places do. -/
theorem Traced.extend (hp : p.Traced) {results : FunctionId → List ValueId → List ValueId}
    {amend : Operation → Operation} (h : Frame results amend p q)
    (hamend : ∀ op, (amend op).id = op.id ∧ (amend op).outputs = op.outputs)
    (hvalues : ∀ {v : Nat} {x : Value}, q.values[v]? = some x →
      p.values[v]? = some x ∨ x.id = v ∧ q.introduced? x.definition = some v)
    (hplaces : ∀ {o i j : Nat}, q.locations[o]? = some (i, j) → p.locations[o]? = some (i, j) ∨
      ∃ op, q.operationAt? i j = some op ∧ op.id = o)
    (hexports : q.exports.Nodup) : q.Traced where
  value_id hx := (hvalues hx).elim (fun hold => hp.value_id hold) (fun hnew => hnew.1)
  introduced {v d} hd := by
    obtain ⟨x, hx, rfl⟩ := Option.map_eq_some_iff.1 hd
    rcases hvalues hx with hold | ⟨-, hnew⟩
    · exact h.introduced (fun op => (hamend op).2)
        (hp.introduced (Option.map_eq_some_iff.2 ⟨x, hold, rfl⟩))
    · exact hnew
  filled {o i j} ho := by
    rcases hplaces ho with hold | hnew
    · obtain ⟨op, hop, hid⟩ := hp.filled hold
      exact ⟨amend op, h.operations hop, by rw [(hamend op).1, hid]⟩
    · exact hnew
  exports := hexports

theorem Traced.addImport (hp : p.Traced) {name : String} : (p.addImport name).2.Traced := by
  refine hp.extend grows_addImport (fun _ => ⟨rfl, rfl⟩) (fun {v x} hx => ?_) .inl hp.exports
  rw [Program.addImport, addValue, Array.getElem?_push] at hx
  split at hx
  · next hv =>
    obtain rfl := Option.some_injective _ hx
    exact .inr ⟨hv.symm, by simp [introduced?, Program.addImport, addValue, hv]⟩
  · exact .inl hx

/-- A function that is added has the address and the parameters that were just made. -/
theorem addFunction_spec (name : String) (params : List ValueType) : ∃ ids r,
    (p.addValue (some name) .pointer (.functionAddress p.functions.size)).2.addValues
      (.parameter p.functions.size) 0 (parameterNames name params) = (ids, r) ∧
    (p.addFunction name params).2 = { r with
      functions := r.functions.push ⟨p.functions.size, name, p.values.size, ids, [], #[]⟩ } :=
  ⟨_, _, rfl, rfl⟩

theorem grows_addFunction {name : String} {params : List ValueType} :
    p.Grows (p.addFunction name params).2 :=
  (grows_addValue.trans (grows_addValues rfl)).trans grows_pushFunction

theorem Traced.addFunction (hp : p.Traced) {name : String} {params : List ValueType} :
    (p.addFunction name params).2.Traced := by
  obtain ⟨ids, r, hids, heq⟩ := addFunction_spec (p := p) name params
  obtain ⟨-, hfunctions, -, hlocations, -⟩ := addValues_spec hids
  obtain ⟨hexports, -, hvalues⟩ := addValues_numbers hids
  have hgrows : p.Grows (p.addFunction name params).2 := grows_addFunction
  have hnew : (r.functions.push ⟨p.functions.size, name, p.values.size, ids, [], #[]⟩)[
      p.functions.size]? = some ⟨p.functions.size, name, p.values.size, ids, [], #[]⟩ := by
    rw [hfunctions]
    exact Array.getElem?_push_size
  rw [heq] at hgrows ⊢
  refine hp.extend hgrows (fun _ => ⟨rfl, rfl⟩) (fun {v x} hx => ?_)
    (fun ho => .inl (by rwa [hlocations] at ho)) (by rw [hexports]; exact hp.exports)
  rcases hvalues hx with hold | ⟨hid, k, hk, hd⟩
  · rw [addValue, Array.getElem?_push] at hold
    split at hold
    · next hv =>
      obtain rfl := Option.some_injective _ hold
      exact .inr ⟨hv.symm, Option.map_eq_some_iff.2 ⟨_, hnew, hv.symm⟩⟩
    · exact .inl hold
  · rw [hd, Nat.zero_add]
    exact .inr ⟨hid, Option.bind_eq_some_iff.2 ⟨_, hnew, hk⟩⟩

theorem Traced.addOperation (hp : p.Traced) {n : FunctionId} {kind : Operation.Kind}
    {inputs : List ValueId} {outputs : List (Option String × ValueType)}
    {made : OperationId × List ValueId}
    (h : p.addOperation n kind inputs outputs = .ok (made, q)) : q.Traced := by
  obtain ⟨ids, r, place, hids, hgrows, hqvalues, hqexports, hplaces, hat⟩ :=
    addOperation_spec h
  obtain ⟨hexports, -, hvalues⟩ := addValues_numbers hids
  have hnew :
      q.operation? p.locations.size = .ok (some (.fresh p.locations.size kind inputs ids)) :=
    operation?_eq_ok.2 ⟨n, place, by rw [hplaces, Array.getElem?_push_size], hat⟩
  refine hp.extend ((grows_addValues hids).trans hgrows)
    (fun _ => ⟨rfl, rfl⟩) (fun {v x} hx => ?_) (fun {o i j} ho => ?_)
    (by rw [hqexports, hexports]; exact hp.exports)
  · rcases hvalues (hqvalues ▸ hx) with hold | ⟨hid, k, hk, hd⟩
    · exact .inl hold
    · rw [hd, Nat.zero_add]
      exact .inr ⟨hid, introduced?_output.2 ⟨_, hnew, hk⟩⟩
  · rw [hplaces, Array.getElem?_push] at ho
    split at ho
    · next hsize =>
      obtain ⟨rfl, rfl⟩ := Prod.mk.inj (Option.some_injective _ ho)
      exact .inr ⟨_, hat, hsize.symm⟩
    · exact .inl ho

theorem Traced.addExport (hp : p.Traced) {v : ValueId} : (p.addExport v).Traced := by
  have hgrows : p.Grows (p.addExport v) := grows_addExport
  by_cases hv : p.isExported v
  · rwa [Program.addExport, if_pos hv]
  · rw [Program.addExport, if_neg hv] at hgrows ⊢
    rw [isExported, List.contains_iff_mem] at hv
    refine hp.extend hgrows (fun _ => ⟨rfl, rfl⟩) .inl .inl ?_
    refine List.nodup_append.2 ⟨hp.exports, List.nodup_singleton v, fun a ha b hb heq => hv ?_⟩
    rwa [← List.mem_singleton.1 hb, ← heq]

/-- The operation that gets the input is the only one with the value as an
output, and it is a phi. -/
theorem frame_addPhiInput (hp : p.Coherent) (ht : p.Traced) {joined input : ValueId}
    (h : p.addPhiInput joined input = .ok q) :
    Frame (fun _ old => old) (Command.addPhiInput joined input).amend p q ∧
      ∃ op ∈ p.operations, op.kind = .phi ∧ ∀ op' ∈ p.operations, joined ∈ op'.outputs ↔
        op' = op := by
  obtain ⟨o, i, j, op, hdefines, hplace, hat, hkind, rfl⟩ := addPhiInput_eq_ok.1 h
  obtain ⟨k, hk⟩ := definingOperation?_eq_some.1 hdefines
  obtain ⟨f, hf, hj⟩ := Option.bind_eq_some_iff.1 hat
  have hmem : op ∈ p.operations := mem_operations.2 ⟨i, j, f, hf, hj⟩
  have hid : op.id = o := by
    obtain ⟨op', hat', hid⟩ := ht.filled hplace
    rwa [Option.some_injective _ (hat.symm.trans hat')]
  have hout : joined ∈ op.outputs := by
    obtain ⟨op', hop', hk'⟩ := introduced?_output.1 (ht.introduced hk)
    obtain rfl := Option.some_injective _ (Except.ok.inj
      (hop'.symm.trans (operation?_eq_ok.2 ⟨i, j, hplace, hat⟩)))
    exact List.mem_of_getElem? hk'
  have honly : ∀ op' ∈ p.operations, joined ∈ op'.outputs ↔ op' = op := by
    refine fun op' hop' => ⟨fun hout' => ?_, fun heq => heq ▸ hout⟩
    obtain ⟨l, hl⟩ := List.mem_iff_getElem?.1 hout
    obtain ⟨m, hm⟩ := List.mem_iff_getElem?.1 hout'
    exact hp.eq_of_output hop' hmem hm hl
  refine ⟨?_, op, hmem, hkind, honly⟩
  refine ⟨⟨id, id⟩, id, List.prefix_refl _, fun {n g} hg => ?_, fun {n m op'} hop' => ?_⟩
  · rw [modifyAt, Array.getElem?_modify, hg]
    split
    · exact ⟨_, rfl⟩
    · exact ⟨g.body, rfl⟩
  · obtain ⟨g, hg, hm⟩ := Option.bind_eq_some_iff.1 hop'
    have hmem' := mem_operations.2 ⟨n, m, g, hg, hm⟩
    simp only [operationAt?_modifyAt, hop', Command.amend, List.contains_iff_mem,
      honly op' hmem']
    -- the operation stands at one place only
    by_cases heq : op' = op
    · subst heq
      have hsame := (hp.functions hg).located hm
      rw [hid, hplace] at hsame
      obtain ⟨rfl, rfl⟩ := Prod.mk.inj (Option.some_injective _ hsame)
      simp
    · rw [if_neg heq, if_neg]
      rintro ⟨rfl, rfl⟩
      exact heq (Option.some_injective _ (hop'.symm.trans hat))

theorem Traced.change (hp : p.Coherent) (ht : p.Traced) (h : p.Changes q) : q.Traced := by
  cases h with
  | unchanged => exact ht
  | addImport name => exact ht.addImport
  | addFunction name params => exact ht.addFunction
  | setResults f results =>
      exact ht.extend frame_setResults (fun _ => ⟨rfl, rfl⟩) .inl .inl ht.exports
  | addExport v => exact ht.addExport
  | @addPhiInput joined input _ h =>
      have hframe := (frame_addPhiInput hp ht h).1
      obtain ⟨o, i, j, op, -, -, -, -, rfl⟩ := addPhiInput_eq_ok.1 h
      refine ht.extend hframe (fun op => ?_) .inl .inl ht.exports
      rw [Command.amend]
      split <;> exact ⟨rfl, rfl⟩
  | addOperation _ _ h => exact ht.addOperation h

/-- **Every value of a built program stands where it comes from.** -/
theorem traced_of_build? {commands : List Command} (h : build? commands = .ok p) : p.Traced :=
  (build?_induction (P := fun p => p.Coherent ∧ p.Traced)
    ⟨⟨by simp [empty], by simp [empty]⟩,
      ⟨by simp [empty], by simp [empty, Defines], by simp [empty], List.nodup_nil⟩⟩
    (fun _ _ hchange hp => ⟨hp.1.change hchange, hp.2.change hp.1 hchange⟩) h).2

/-! ## The effect of a command -/

/-- A command keeps what is there, up to results and to the inputs of a phi, and adds the
values and the operation that it is for. -/
structure Advances (p : Program) (command : Command) (q : Program) : Prop where
  frame : Frame command.results command.amend p q
  phi : ∀ {joined input : ValueId}, command = .addPhiInput joined input →
    ∃ op ∈ p.operations, op.kind = .phi ∧ ∀ op' ∈ p.operations, joined ∈ op'.outputs ↔ op' = op
  numValues_eq : q.values.size = p.values.size + command.numValues
  numOperations_eq : q.numOperations = p.numOperations + command.operation?.toList.length
  operation : ∀ {f : FunctionId} {kind : Operation.Kind} {inputs : List ValueId},
    command.operation? = some (f, kind, inputs) →
    ∃ outputs, outputs.length = command.numValues ∧
      q.operation? p.numOperations = .ok (some (.fresh p.numOperations kind inputs outputs)) ∧
      q.functionOf? p.numOperations = some f

/-- Commands that add operations do so in one way. -/
theorem addOperation_of_apply {command : Command} {outcome : Outcome} {f : FunctionId}
    {kind : Operation.Kind} {inputs : List ValueId} (h : p.apply command = .ok (outcome, q))
    (hop : command.operation? = some (f, kind, inputs)) : ∃ outputs made,
      outputs.length = command.numValues ∧
      p.addOperation f kind inputs outputs = .ok (made, q) := by
  cases command
  all_goals
    simp only [Command.operation?, Option.some.injEq, Prod.mk.injEq, reduceCtorEq] at hop
  all_goals
    obtain ⟨rfl, rfl, rfl⟩ := hop
    simp only [apply, addSingle, addEffect, addMany, bind_eq_ok, pure_eq_ok,
      Prod.mk.injEq] at h
  case bitcast value =>
    obtain ⟨input, -, ⟨made, r⟩, hr, -, rfl⟩ := h
    exact ⟨_, made, by simp [Command.numValues], hr⟩
  all_goals
    obtain ⟨⟨made, r⟩, hr, -, rfl⟩ := h
    exact ⟨_, made, by simp [Command.numValues], hr⟩

theorem advances_addOperation {command : Command} {f : FunctionId} {kind : Operation.Kind}
    {inputs : List ValueId} {outputs : List (Option String × ValueType)}
    {made : OperationId × List ValueId} (hop : command.operation? = some (f, kind, inputs))
    (hlength : outputs.length = command.numValues)
    (h : p.addOperation f kind inputs outputs = .ok (made, q)) : p.Advances command q := by
  obtain ⟨ids, r, place, hids, hgrows, hvalues, -, hplaces, hat⟩ := addOperation_spec h
  obtain ⟨-, hsize, -⟩ := addValues_numbers hids
  obtain ⟨hamend, hresults⟩ := Command.amend_of_operation? hop
  have hplace : q.locations[p.numOperations]? = some (f, place) := by
    rw [hplaces]
    exact Array.getElem?_push_size
  refine ⟨?_, ?_, by rw [hvalues, hsize, hlength], by simp [hop, numOperations, hplaces], ?_⟩
  · rw [hamend, hresults]
    exact (grows_addValues hids).trans hgrows
  · rintro joined input rfl
    exact absurd hop (by simp [Command.operation?])
  · intro f' kind' inputs' hop'
    obtain ⟨rfl, rfl, rfl⟩ := by simpa [hop] using hop'
    refine ⟨ids, ?_, operation?_eq_ok.2 ⟨f, place, hplace, hat⟩, ?_⟩
    · rw [← hlength, ← length_addValues, hids]
    · rw [functionOf?, hplace]
      rfl

/-- A command that adds no operation and is not about a phi. -/
theorem advances_of_frame {command : Command} (h : Frame command.results command.amend p q)
    (hop : command.operation? = none)
    (hphi : ∀ joined input, command ≠ .addPhiInput joined input)
    (hvalues : q.values.size = p.values.size + command.numValues)
    (hlocations : q.locations = p.locations) : p.Advances command q where
  frame := h
  phi hcommand := absurd hcommand (hphi _ _)
  numValues_eq := hvalues
  numOperations_eq := by rw [hop, numOperations, hlocations]; rfl
  operation hop' := absurd (hop.symm.trans hop') (by simp)

theorem addFunction_numbers (name : String) (params : List ValueType) :
    (p.addFunction name params).2.values.size = p.values.size + (params.length + 1) ∧
      (p.addFunction name params).2.locations = p.locations := by
  obtain ⟨ids, r, hids, heq⟩ := addFunction_spec (p := p) name params
  obtain ⟨-, -, -, hlocations, -⟩ := addValues_spec hids
  obtain ⟨-, hsize, -⟩ := addValues_numbers hids
  rw [heq]
  refine ⟨hsize.trans ?_, hlocations⟩
  simp only [addValue, parameterNames, Array.size_push, List.length_map, List.length_zipIdx]
  omega

theorem addExport_numbers (v : ValueId) :
    (p.addExport v).values = p.values ∧ (p.addExport v).locations = p.locations := by
  rw [addExport]
  split <;> exact ⟨rfl, rfl⟩

/-- **What a command does.** -/
theorem advances_of_apply (hp : p.Coherent) (ht : p.Traced) {command : Command}
    {outcome : Outcome} (h : p.apply command = .ok (outcome, q)) : p.Advances command q := by
  cases hop : command.operation? with
  | some x =>
      obtain ⟨f, kind, inputs⟩ := x
      obtain ⟨outputs, made, hlength, hadd⟩ := addOperation_of_apply h hop
      exact advances_addOperation hop hlength hadd
  | none =>
  cases command
  case declareImport name =>
    obtain ⟨-, rfl⟩ := Prod.mk.inj (Except.ok.inj h)
    exact advances_of_frame grows_addImport hop (by simp) (Array.size_push _) rfl
  case declareFunction name params =>
    obtain ⟨-, rfl⟩ := Prod.mk.inj (Except.ok.inj h)
    obtain ⟨hsize, hlocations⟩ := addFunction_numbers (p := p) name params
    exact advances_of_frame grows_addFunction hop (by simp) hsize hlocations
  case exportValue value =>
    obtain ⟨-, rfl⟩ := Prod.mk.inj (Except.ok.inj h)
    obtain ⟨hvalues, hlocations⟩ := addExport_numbers (p := p) value
    exact advances_of_frame grows_addExport hop (by simp)
      (congrArg Array.size hvalues) hlocations
  all_goals simp only [Command.operation?, reduceCtorEq] at hop
  all_goals simp only [apply, bind_eq_ok, pure_eq_ok, Prod.mk.injEq] at h
  case addressOf f =>
    obtain ⟨-, -, -, rfl⟩ := h
    exact advances_of_frame grows_refl rfl (by simp) rfl rfl
  case parameter f index =>
    obtain ⟨-, -, -, -, -, rfl⟩ := h
    exact advances_of_frame grows_refl rfl (by simp) rfl rfl
  case setResults f results =>
    obtain ⟨-, -, -, rfl⟩ := h
    exact advances_of_frame frame_setResults rfl (by simp) rfl rfl
  case exportFunction f =>
    obtain ⟨function, -, -, rfl⟩ := h
    obtain ⟨hvalues, hlocations⟩ := addExport_numbers (p := p) function.address
    exact advances_of_frame grows_addExport rfl (by simp)
      (congrArg Array.size hvalues) hlocations
  case addPhiInput joined input =>
    obtain ⟨r, hr, -, rfl⟩ := h
    obtain ⟨hframe, hphi⟩ := frame_addPhiInput hp ht hr
    obtain ⟨o, i, j, op, -, -, -, -, rfl⟩ := addPhiInput_eq_ok.1 hr
    refine ⟨hframe, ?_, rfl, rfl, fun hop => absurd hop (by simp [Command.operation?])⟩
    rintro _ _ ⟨⟩
    exact hphi

/-! ## Well-formed programs -/

/-- Numbers are places and leave no gap, operations are listed once each, and a value comes
from the one place that holds it. -/
structure WellFormed (p : Program) : Prop where
  value_id : ∀ {v : Nat} {x : Value}, p.values[v]? = some x → x.id = v
  function_id : ∀ {i : Nat} {f : FunctionDef}, p.functions[i]? = some f → f.id = i
  located : ∀ o < p.numOperations, ∃ op, p.operation? o = .ok (some op) ∧ op.id = o
  listed : (p.operations.map Operation.id).Perm (List.range p.numOperations)
  defines_iff : ∀ {v : ValueId} {d : Definition}, p.Defines v d ↔ p.introduced? d = some v
  origin : ∀ v < p.values.size, ∃! d, p.introduced? d = some v
  exports : p.exports.Nodup
  state_eq : ∀ op ∈ p.operations, op.state = if op.kind.touchesMemory then .coarse else .none

/-- What stands at a place where values come from says so. -/
theorem Coherent.defines (hp : p.Coherent) (ht : p.Traced) {d : Definition} {v : ValueId}
    (h : p.introduced? d = some v) : p.Defines v d := by
  cases d with
  | parameter f index =>
      obtain ⟨g, hg, hindex⟩ := Option.bind_eq_some_iff.1 h
      exact (hp.functions hg).params hindex
  | functionAddress f =>
      obtain ⟨g, hg, rfl⟩ := Option.map_eq_some_iff.1 h
      exact (hp.functions hg).address
  | importAddress index =>
      obtain ⟨s, hs, rfl⟩ := Option.map_eq_some_iff.1 h
      exact hp.imports hs
  | output o k =>
      obtain ⟨op, hop, hk⟩ := introduced?_output.1 h
      obtain ⟨i, j, hplace, hat⟩ := operation?_eq_ok.1 hop
      obtain ⟨op', hat', rfl⟩ := ht.filled hplace
      obtain rfl := Option.some_injective _ (hat.symm.trans hat')
      obtain ⟨f, hf, hj⟩ := Option.bind_eq_some_iff.1 hat
      exact (hp.functions hf).outputs hj hk

/-- The numbers of the operations are the numbers that have a place. -/
theorem Coherent.mem_ids (hp : p.Coherent) (ht : p.Traced) {o : OperationId} :
    o ∈ p.operations.map Operation.id ↔ o < p.numOperations := by
  rw [List.mem_map]
  constructor
  · rintro ⟨op, hop, rfl⟩
    obtain ⟨i, j, f, hi, hj⟩ := mem_operations.1 hop
    exact (Array.getElem?_eq_some_iff.1 ((hp.functions hi).located hj)).1
  · intro ho
    obtain ⟨op, hat, hid⟩ := ht.filled (i := p.locations[o].1) (j := p.locations[o].2)
      (Array.getElem?_eq_getElem ho)
    obtain ⟨f, hf, hj⟩ := Option.bind_eq_some_iff.1 hat
    exact ⟨op, mem_operations.2 ⟨_, _, f, hf, hj⟩, hid⟩

theorem Coherent.wellFormed (hp : p.Coherent) (ht : p.Traced) (hs : p.Shaped) :
    p.WellFormed where
  value_id := ht.value_id
  function_id hf := (hp.functions hf).id_eq
  located o ho := by
    have hplace : p.locations[o]? = some (p.locations[o].1, p.locations[o].2) :=
      Array.getElem?_eq_getElem ho
    obtain ⟨op, hat, hid⟩ := ht.filled hplace
    exact ⟨op, operation?_eq_ok.2 ⟨_, _, hplace, hat⟩, hid⟩
  listed := (List.perm_ext_iff_of_nodup hp.nodup_operations List.nodup_range).2 fun o => by
    rw [hp.mem_ids ht, List.mem_range]
  defines_iff := ⟨ht.introduced, hp.defines ht⟩
  origin v hv := by
    have hd : p.Defines v p.values[v].definition := by
      rw [Defines, Array.getElem?_eq_getElem hv]
      rfl
    exact ⟨_, ht.introduced hd, fun d h => (hp.defines ht h).unique hd⟩
  exports := ht.exports
  state_eq op hop := (hs op hop).state_eq

/-- **Commands number a program densely and keep what is there.**  Whatever commands built a
program, it is well formed, and every further command that succeeds adds what it is for and
leaves all values, places and operations as they were, but for the list of results that is set
and the phi that gets an input. -/
theorem wellFormed_of_commands {commands : List Command} (h : build? commands = .ok p) :
    p.WellFormed ∧ ∀ command outcome q, p.apply command = .ok (outcome, q) →
      p.Advances command q := by
  have hp := coherent_of_build? h
  have ht := traced_of_build? h
  exact ⟨hp.wellFormed ht (shaped_of_build? h),
    fun _ _ _ happly => advances_of_apply hp ht happly⟩

/-- Two functions whose bodies grow in turn, with a phi that is to be closed. -/
def loopCommands : List Command :=
  [.declareImport "next", .declareFunction "walk" [.pointer], .declareFunction "main" [],
    .phi 0 [2] .pointer, .alloca 1 "head", .call 0 0 [4] [.pointer], .call 1 1 [5] [],
    .setResults 0 [4], .exportFunction 1, .exportValue 3]

theorem wellFormed_of_commands_loopCommands : ∃ p outcome q, build? loopCommands = .ok p ∧
    p.apply (.addPhiInput 4 6) = .ok (outcome, q) ∧ p.numOperations = 4 ∧ p.WellFormed ∧
    p.Advances (.addPhiInput 4 6) q ∧
    q.operation? 0 = .ok (some (.fresh 0 .phi [2, 6] [4])) := by
  have hrun : (do
      let p ← (build? loopCommands).toOption
      let step ← (p.apply (.addPhiInput 4 6)).toOption
      return decide (p.numOperations = 4 ∧
        step.2.operation? 0 = .ok (some (.fresh 0 .phi [2, 6] [4])))) =
          some true := by decide +kernel
  simp only [Option.bind_eq_bind, Option.bind_eq_some_iff, toOption_eq_some, Option.pure_def,
    Option.some.injEq, decide_eq_true_eq, Prod.exists] at hrun
  obtain ⟨p, hp, outcome, q, hq, hnum, hop⟩ := hrun
  obtain ⟨hwf, hadvances⟩ := wellFormed_of_commands hp
  exact ⟨p, outcome, q, hp, hq, hnum, hwf, hadvances _ _ _ hq, hop⟩

end Program
end PointerChannels
