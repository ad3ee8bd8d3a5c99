import PointerChannels.Proofs.Analysis.Targets

/-!
# What calls lead to

A call may go to any function among the targets of its callee, and from there on to whatever
the calls in its body go to.  These notions are about a program and a points-to graph;
channels play no part in them.

## Main definitions

* `Graph.Calls` — an operation may call a function.
* `Program.Reaches` — calls lead from an operation to a function.
* `Program.Idle` — a call goes only to functions of the unit and passes and returns
  no address of any memory.
* `Program.Mute` — neither the call nor anything it leads to touches memory.
* `Graph.Serves` — what an encoding needs of a graph.

## Main statements

* `serves_of_represents` — a graph that represents the entities of a program serves it.
-/

namespace PointerChannels

/-- Only calls have a callee. -/
theorem Operation.kind_eq_of_callee? {op : Operation} {callee : ValueId}
    (h : op.callee? = some callee) : op.kind = .call := by
  unfold callee? at h
  split at h
  · assumption
  · exact absurd h (by simp)

/-- The operation is a call, and the node of the function is among the
targets of its callee. -/
def Graph.Calls (g : Graph) (op : Operation) (f : FunctionDef) : Prop :=
  ∃ callee n, op.callee? = some callee ∧ n ∈ g.targets.value callee ∧
    g.memoryNode? (.function f.id) = some n

instance (g : Graph) (op : Operation) (f : FunctionDef) : Decidable (g.Calls op f) :=
  decidable_of_iff (op.callee?.any (fun callee => (g.register? callee).any fun r =>
      (g.memoryNode? (.function f.id)).any fun n => (g.targetsOf r).contains n) = true) <| by
    simp only [Option.any_eq_true, IndexSet.contains_iff, Graph.Calls, Graph.targets,
      Set.mem_ofPred_eq]
    constructor
    · rintro ⟨callee, hcallee, r, hr, n, hnode, hn⟩
      exact ⟨callee, n, hcallee, ⟨r, hr, hn⟩, hnode⟩
    · rintro ⟨callee, n, hcallee, ⟨r, hr, hn⟩, hnode⟩
      exact ⟨callee, hcallee, r, hr, n, hnode, hn⟩

theorem Graph.Calls.kind_eq {g : Graph} {op : Operation} {f : FunctionDef} (h : g.Calls op f) :
    op.kind = .call := by
  obtain ⟨callee, -, hcallee, -⟩ := h
  exact Operation.kind_eq_of_callee? hcallee

namespace Program

variable (program : Program) (g : Graph) (op : Operation)

/-- The function is called by the operation, or by an operation in the body of a function that
the operation leads to. -/
inductive Reaches : FunctionDef → Prop
  /-- A callee is reached. -/
  | call {f : FunctionDef} : f ∈ program.functions.toList → g.Calls op f → Reaches f
  /-- So is a callee of an operation of a reached function. -/
  | step {f f' : FunctionDef} {m : Operation} : Reaches f → m ∈ f.body.toList →
      f' ∈ program.functions.toList → g.Calls m f' → Reaches f'

/-- The operation is a call with callees, all of them functions of the unit, and none of the
addresses it passes or returns refers to anything. -/
structure Idle : Prop where
  known : ∃ callee, op.callee? = some callee ∧ (g.targets.value callee).Nonempty ∧
    ∀ n ∈ g.targets.value callee, g.kindOf? n = some .allocator
  dangling : ∀ v ∈ op.arguments ++ op.outputs, program.IsPointer v → g.targets.value v = ∅

/-- The operation is an idle call, and so is every memory operation of the
functions it leads to. -/
structure Mute : Prop where
  idle : program.Idle g op
  below : ∀ f, program.Reaches g op f → ∀ m ∈ f.body.toList, m.kind.touchesMemory = true →
    program.Idle g m

variable {program g op}

theorem Reaches.mem_functions {f : FunctionDef} (h : program.Reaches g op f) :
    f ∈ program.functions.toList := by
  cases h with
  | call hf _ => exact hf
  | step _ _ hf _ => exact hf

/-- Only calls lead anywhere. -/
theorem Reaches.kind_eq {f : FunctionDef} (h : program.Reaches g op f) : op.kind = .call := by
  induction h with
  | call _ hcalls => exact hcalls.kind_eq
  | step _ _ _ _ ih => exact ih

/-- Calls that lead on from a reached function lead there from the start. -/
theorem Reaches.trans {f f' : FunctionDef} {m : Operation} (h : program.Reaches g op f)
    (hm : m ∈ f.body.toList) (h' : program.Reaches g m f') : program.Reaches g op f' := by
  induction h' with
  | call hf' hcalls => exact .step h hm hf' hcalls
  | step _ hn hf' hcalls ih => exact .step ih hn hf' hcalls

/-- Only calls are idle. -/
theorem Idle.kind_eq (h : program.Idle g op) : op.kind = .call := by
  obtain ⟨callee, hcallee, -⟩ := h.known
  exact Operation.kind_eq_of_callee? hcallee

end Program

/-! ## Graphs that serve a program -/

namespace Graph

variable {g : Graph} {program : Program} {n : Nat}

/-- The value exists, and has a register node if it holds an address. -/
def Knows (g : Graph) (program : Program) (v : ValueId) : Prop :=
  program.IsPointer v ∧ (∃ r, g.register? v = some r) ∨ program.IsScalar v

/-- One node of the kind was made for the operation, and it is the one found for it. -/
def Places (g : Graph) (op : Operation) (kind : Kind) : Prop :=
  ∃ n, g.memoryNode? (.operation op.id) = some n ∧
    ∀ m, g.Shows m kind (.operation op.id) ↔ m = n

/-- The nodes through which an operation touches memory exist. -/
def ServesOperation (g : Graph) (program : Program) (op : Operation) : Prop :=
  match op.kind with
  | .alloca => g.Places op .alloca
  | .malloc => g.Places op .malloc
  | .load | .store | .free => ∃ address r, op.inputs[0]? = some address ∧
      g.register? address = some r
  | .memcpy => ∃ target source r s, op.inputs[0]? = some target ∧ g.register? target = some r ∧
      op.inputs[1]? = some source ∧ g.register? source = some s
  | .call => ∃ callee r, op.callee? = some callee ∧ g.register? callee = some r ∧
      ∀ v ∈ op.arguments ++ op.outputs, g.Knows program v
  | _ => True

/-- What an encoding of a program needs of a graph: the sentinels exist, only memory is pointed
to, function nodes are those of the functions, and the nodes of all operands exist. -/
structure Serves (g : Graph) (program : Program) : Prop where
  unknown : g.IsMemory Graph.unknown
  external : g.IsMemory Graph.external
  pointed : ∀ {k m}, m ∈ g.targetsOf k → g.IsMemory m
  register_lt : ∀ {v r}, g.register? v = some r → r < g.size
  function : ∀ {n}, g.kindOf? n = some .allocator → ∃ f ∈ program.functions.toList,
    g.Shows n .allocator (.function f.id) ∧ g.memoryNode? (.function f.id) = some n
  found : ∀ {f n}, f ∈ program.functions.toList → g.memoryNode? (.function f.id) = some n →
    g.Shows n .allocator (.function f.id)
  operation : ∀ {op}, op ∈ program.operations → g.ServesOperation program op

theorem Serves.closed (h : g.Serves program) : g.Closed := fun _ _ hm => (h.pointed hm).lt_size

/-! ### The graph of an analysis -/

section

variable {d : Generation.Draft} {T : Family} {node : Nat → Nat}

open Generation

theorem Represents.isMemory {p : Pool} (hg : g.Represents p T node) {o : Nat}
    (ho : p.IsObject o) : g.IsMemory (node o) := by
  refine ⟨_, hg.kindOf?_eq ho, ?_⟩
  rw [Kind.isMemoryObject_ofEntity]
  exact ho.2

theorem Represents.exists_register {p : Pool} (hg : g.Represents p T node) {v : ValueId}
    {r : Handle} (hr : p.RegisterOf v r) : ∃ k, g.register? v = some k := by
  obtain ⟨k, hk, -⟩ := hg.register hr.1
  exact ⟨k, hk⟩

theorem Represents.knows {p : Pool} (hg : g.Represents p T node) {values : List ValueId}
    {registers : List (Option Handle)} (h : p.RegistersOf program values registers)
    {v : ValueId} (hv : v ∈ values) : g.Knows program v := by
  induction h with
  | nil => exact absurd hv (by simp)
  | cons hhead _ ih =>
      rcases List.mem_cons.1 hv with rfl | hv
      · rcases hhead with ⟨hpointer, r, -, hr⟩ | ⟨hscalar, -⟩
        · exact .inl ⟨hpointer, hg.exists_register hr⟩
        · exact .inr hscalar
      · exact ih hv

/-- An allocation is found by the object made for it. -/
theorem servesOperation_of_object (hg : g.Represents d.pool T node) (hd : Generated program d)
    {op : Operation} (hop : op ∈ program.operations) (kind : Entity.Kind)
    (hkind : (kind, Origin.operation op.id) ∈ Draft.objectsOf op) :
    g.Places op (Kind.ofEntity kind) := by
  have hmem : (kind, Origin.operation op.id) ∈ d.pool.objects := by
    rw [hd.objects]
    exact List.mem_append_right _ (List.mem_flatMap.2 ⟨op, hop, hkind⟩)
  obtain ⟨⟨o, hm⟩, hobject, -⟩ := Pool.mem_objects.1 hmem
  have hfound := hg.found hm hobject (by simp)
  refine ⟨node o, hfound, fun m => ⟨fun hshows => ?_, ?_⟩⟩
  · obtain ⟨o', ho', rfl⟩ :=
      hg.surjective hshows.kindOf? (by rwa [Kind.isMemoryObject_ofEntity])
    obtain ⟨origin, hm'⟩ := Pool.exists_made ho'.1
    have heq := Option.some_injective _ (hshows.symm.trans (hg.shows hm' ho'.2))
    obtain rfl := (Prod.mk.inj heq).2
    exact Option.some_injective _ ((hg.found hm' ho'.2 (by simp)).symm.trans hfound)
  · rintro rfl
    exact hg.shows hm hobject

theorem servesOperation_of_represents (hg : g.Represents d.pool T node)
    (hd : Generated program d) {op : Operation} (hop : op ∈ program.operations) :
    g.ServesOperation program op := by
  have hserves := hd.serves op hop
  unfold Draft.Serves at hserves
  unfold ServesOperation
  split
  case h_1 hk =>
    exact servesOperation_of_object hg hd hop .allocaObject (by simp [Draft.objectsOf, hk])
  case h_2 hk =>
    exact servesOperation_of_object hg hd hop .heapObject (by simp [Draft.objectsOf, hk])
  case h_6 hk =>
    rw [hk] at hserves
    obtain ⟨target, source, r, s, htarget, hr, hsource, hs⟩ := hserves
    obtain ⟨k, hk⟩ := hg.exists_register hr
    obtain ⟨l, hl⟩ := hg.exists_register hs
    exact ⟨target, source, k, l, htarget, hk, hsource, hl⟩
  case h_7 hk =>
    rw [hk] at hserves
    obtain ⟨callee, r, arguments, results, hcallee, hr, harguments, hresults⟩ := hserves
    obtain ⟨k, hregister⟩ := hg.exists_register hr
    refine ⟨callee, k, ?_, hregister, ?_⟩
    · simp [Operation.callee?, hk, List.head?_eq_getElem?, hcallee]
    · intro v hv
      rcases List.mem_append.1 hv with hv | hv
      · exact hg.knows harguments hv
      · exact hg.knows hresults hv
  case h_8 => trivial
  all_goals
    rename_i hk
    rw [hk] at hserves
    obtain ⟨address, r, haddress, hr⟩ := hserves
    obtain ⟨k, hregister⟩ := hg.exists_register hr
    exact ⟨address, k, haddress, hregister⟩

/-- **A graph that represents what generation made of a program serves the program.** -/
theorem serves_of_represents (hg : g.Represents d.pool T node) (hd : Generated program d) :
    g.Serves program where
  unknown := hg.unknown ▸ hg.isMemory hd.tidy.pool.fresh.unknown_object
  external := hg.external ▸ hg.isMemory hd.tidy.pool.fresh.external_object
  pointed hm := by
    obtain ⟨x, hx, rfl⟩ := hg.pointed hm
    exact hg.isMemory hx
  register_lt := hg.register_lt
  function hn := by
    obtain ⟨o, ho, rfl⟩ := hg.surjective hn rfl
    obtain ⟨f, hf, hm, -⟩ := hd.exists_function ho ((hg.isFunction_iff ho).1 hn)
    exact ⟨f, hf, hg.shows hm rfl, hg.found hm rfl (by simp)⟩
  found hf hn := by
    obtain ⟨o, hm, -⟩ := hd.exists_embodies hf
    rw [hg.found hm rfl (by simp)] at hn
    exact Option.some_injective _ hn ▸ hg.shows hm rfl
  operation := servesOperation_of_represents hg hd

end

end Graph
end PointerChannels
