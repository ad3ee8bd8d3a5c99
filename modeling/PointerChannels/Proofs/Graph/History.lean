import PointerChannels.Proofs.Analysis.Escape
import PointerChannels.Proofs.Encoding.Reach
import Mathlib.Combinatorics.Enumerative.DoubleCounting

/-!
# Histories of a graph

A history is a list of edits of a graph's interface, made on the graph of the two sentinels.  A
request about an edge changes the graph in place; one that is refused leaves it as it was, and
the history goes on from there.

An edge is kept at both of its ends and the second end is touched only when the first one
changes, so everything rests on the two ends saying the same.  Edges are made and removed by
one kind of change, `relink`, and what it does to either end is all that later proofs need.

## Main definitions

* `Graph.Edit`, `Graph.perform`, `Graph.edit` — edits as data, one of them, a history.
* `Graph.Consistent` — the invariant.
* `Graph.Reedged` — two graphs that differ in one edge at most.
* `Graph.Lawful` — what holds of a graph whatever its history.

## Main statements

* `Graph.lawful_of_edit` — every history leads to a lawful graph.
-/

namespace PointerChannels.Graph

/-! ## Edits as data -/

/-- An edit of a graph. -/
inductive Edit where
  /-- Add the register node of a value. -/
  | addRegister (value : ValueId) (label : String)
  /-- Add a memory node. -/
  | addMemory (kind : Kind) (label : String) (origin : Origin)
  /-- Make an edge. -/
  | addEdge (source target : Ref)
  /-- Remove an edge. -/
  | removeEdge (source target : Ref)

/-- The graph that a request about an edge leaves.  A refusal does not end a
history, a fault does. -/
def resume : EStateM.Result (Failure Refusal) Graph Bool → Except Fault Graph
  | .ok _ g | .error (.error _) g => .ok g
  | .error (.fault cause) _ => .error cause

/-- The graph after an edit. -/
def perform (g : Graph) : Edit → Except Fault Graph
  | .addRegister value label => (g.addRegister value label).map Prod.snd
  | .addMemory kind label origin => (g.addMemory kind label origin).map Prod.snd
  | .addEdge source target => resume (request insertEdge source target g)
  | .removeEdge source target => resume (request deleteEdge source target g)

/-- The graph after a list of edits. -/
def edit (g : Graph) (edits : List Edit) : Except Fault Graph := edits.foldlM perform g

variable {g g' : Graph} {a b n s t : Nat} {source target : Ref}

/-! ## Graphs node by node -/

/-- What a node is, its edges apart. -/
def headOf? (g : Graph) (n : Nat) : Option (Kind × String × Origin) :=
  g.nodes[n]?.map fun x => (x.kind, x.label, x.origin)

theorem kindOf?_eq_head : g.kindOf? n = (g.headOf? n).map (·.1) := by
  simp [kindOf?, headOf?, Function.comp_def]

theorem shows_iff_head {kind : Kind} {origin : Origin} :
    g.Shows n kind origin ↔
    (g.headOf? n).map (fun h => (h.1, h.2.2)) = some (kind, origin) := by
  simp [Shows, headOf?, Function.comp_def]

theorem headOf?_isSome : (g.headOf? n).isSome ↔ n < g.size := by
  simp [headOf?, size]

/-- A graph is its nodes, their edges and the two tables. -/
theorem ext_nodes (hid : g'.id = g.id) (hregisters : g'.registers = g.registers)
    (hmemory : g'.memory = g.memory) (hhead : ∀ n, g'.headOf? n = g.headOf? n)
    (htargets : ∀ n, g'.targetsOf n = g.targetsOf n)
    (hsources : ∀ n, g'.sourcesOf n = g.sourcesOf n) : g' = g := by
  have hnodes : g'.nodes = g.nodes := by
    refine Array.ext_getElem? fun n => ?_
    have hh := hhead n
    have ht := htargets n
    have hs := hsources n
    simp only [headOf?, targetsOf, sourcesOf] at hh ht hs
    cases hx : g'.nodes[n]? with
    | none =>
        cases hy : g.nodes[n]? with
        | none => rfl
        | some y => simp [hx, hy] at hh
    | some x =>
        cases hy : g.nodes[n]? with
        | none => simp [hx, hy] at hh
        | some y =>
            obtain ⟨kind, label, origin, targets, sources⟩ := x
            obtain ⟨kind', label', origin', targets', sources'⟩ := y
            simp_all
  obtain ⟨id, nodes, registers, memory⟩ := g
  obtain ⟨id', nodes', registers', memory'⟩ := g'
  simp_all

/-! ## Changing an edge -/

/-- Change what one node points to and what points to another. -/
def relink (g : Graph) (s t : Nat) (targets sources : IndexSet → IndexSet) : Graph :=
  let nodes := g.nodes.modify s fun x => { x with targets := targets x.targets }
  { g with nodes := nodes.modify t fun x => { x with sources := sources x.sources } }

theorem headOf?_relink {targets sources : IndexSet → IndexSet} :
    (g.relink s t targets sources).headOf? n = g.headOf? n := by
  simp only [headOf?, relink, Array.getElem?_modify]
  split <;> split <;> simp [Function.comp_def]

theorem targetsOf_relink {targets sources : IndexSet → IndexSet} (hs : s < g.size) :
    (g.relink s t targets sources).targetsOf n =
      if s = n then targets (g.targetsOf n) else g.targetsOf n := by
  obtain ⟨node, hnode⟩ : ∃ node, g.nodes[s]? = some node := ⟨_, Array.getElem?_eq_getElem hs⟩
  simp only [targetsOf, relink, Array.getElem?_modify]
  by_cases hs : s = n <;> by_cases ht : t = n
  all_goals simp_all [Function.comp_def]

theorem sourcesOf_relink {targets sources : IndexSet → IndexSet} (ht : t < g.size) :
    (g.relink s t targets sources).sourcesOf n =
      if t = n then sources (g.sourcesOf n) else g.sourcesOf n := by
  obtain ⟨node, hnode⟩ : ∃ node, g.nodes[t]? = some node := ⟨_, Array.getElem?_eq_getElem ht⟩
  simp only [sourcesOf, relink, Array.getElem?_modify]
  by_cases hs : s = n <;> by_cases ht : t = n
  all_goals simp_all [Function.comp_def]

theorem insertEdge_eq : g.insertEdge s t = if t ∈ g.targetsOf s then (false, g)
    else (true, g.relink s t (·.insert t) (·.insert s)) := rfl

theorem deleteEdge_eq : g.deleteEdge s t = if t ∈ g.targetsOf s
    then (true, g.relink s t (·.erase t) (·.erase s)) else (false, g) := rfl

/-- Two graphs that are the same but for one edge, which the second one has or has not. -/
structure Reedged (g g' : Graph) (s t : Nat) (present : Prop) : Prop where
  id_eq : g'.id = g.id
  registers_eq : g'.registers = g.registers
  memory_eq : g'.memory = g.memory
  head_eq : ∀ n, g'.headOf? n = g.headOf? n
  targets : ∀ a b, b ∈ g'.targetsOf a ↔ (a = s ∧ b = t) ∧ present ∨
    ¬ (a = s ∧ b = t) ∧ b ∈ g.targetsOf a
  sources : ∀ a b, a ∈ g'.sourcesOf b ↔ (a = s ∧ b = t) ∧ present ∨
    ¬ (a = s ∧ b = t) ∧ a ∈ g.sourcesOf b

/-- A graph in which the edge already is as it is to be. -/
theorem reedged_self {present : Prop} (htarget : t ∈ g.targetsOf s ↔ present)
    (hsource : s ∈ g.sourcesOf t ↔ present) : Reedged g g s t present where
  id_eq := rfl
  registers_eq := rfl
  memory_eq := rfl
  head_eq _ := rfl
  targets a b := by grind
  sources a b := by grind

/-- What a new edge changes, at both ends. -/
theorem reedged_insert (hs : s < g.size) (ht : t < g.size) :
    Reedged g (g.relink s t (·.insert t) (·.insert s)) s t True where
  id_eq := rfl
  registers_eq := rfl
  memory_eq := rfl
  head_eq _ := headOf?_relink
  targets a b := by
    rw [targetsOf_relink hs]
    split
    · rw [IndexSet.mem_insert]
      grind
    · grind
  sources a b := by
    rw [sourcesOf_relink ht]
    split
    · rw [IndexSet.mem_insert]
      grind
    · grind

/-- What the removal of an edge changes, at both ends. -/
theorem reedged_erase (hs : s < g.size) (ht : t < g.size) :
    Reedged g (g.relink s t (·.erase t) (·.erase s)) s t False where
  id_eq := rfl
  registers_eq := rfl
  memory_eq := rfl
  head_eq _ := headOf?_relink
  targets a b := by
    rw [targetsOf_relink hs]
    split
    · rw [IndexSet.mem_erase]
      grind
    · grind
  sources a b := by
    rw [sourcesOf_relink ht]
    split
    · rw [IndexSet.mem_erase]
      grind
    · grind

/-! ## Consistency -/

/-- The invariant of histories. -/
structure Consistent (g : Graph) : Prop where
  /-- Both ends of an edge know it. -/
  mirrored : ∀ s t, t ∈ g.targetsOf s ↔ s ∈ g.sourcesOf t
  /-- Only memory is pointed to. -/
  pointed : ∀ {s t}, t ∈ g.targetsOf s → g.IsMemory t
  /-- The register table lists the register nodes with their values. -/
  registered : ∀ {v n}, (v, n) ∈ g.registers ↔ g.Shows n .register (.value v)
  /-- A register node is that of a value. -/
  valued : ∀ {n}, g.kindOf? n = some .register → ∃ v, g.Shows n .register (.value v)
  /-- A value is listed once. -/
  nodup : (g.registers.map Prod.fst).Nodup
  /-- Unknown memory is node `0`. -/
  unknown : ∀ {n}, g.kindOf? n = some .unknownMemory ↔ n = Graph.unknown
  /-- External memory is node `1`. -/
  external : ∀ {n}, g.kindOf? n = some .externalMemory ↔ n = Graph.external

theorem Consistent.closed (hg : g.Consistent) : g.Closed := fun _ _ h => (hg.pointed h).lt_size

theorem IsMemory.of_head (h : g.IsMemory n) (hhead : g'.headOf? n = g.headOf? n) :
    g'.IsMemory n := by
  obtain ⟨kind, hkind, hmemory⟩ := h
  exact ⟨kind, by rw [kindOf?_eq_head, hhead, ← kindOf?_eq_head, hkind], hmemory⟩

/-- A change of an edge that may stand keeps a graph consistent. -/
theorem Consistent.reedge {present : Prop} (hg : g.Consistent) (h : Reedged g g' s t present)
    (ht : g.IsMemory t) : g'.Consistent := by
  have hkind : ∀ n, g'.kindOf? n = g.kindOf? n := by
    intro n
    rw [kindOf?_eq_head, kindOf?_eq_head, h.head_eq]
  have hshows : ∀ {n kind origin}, g'.Shows n kind origin ↔ g.Shows n kind origin := by
    intro n kind origin
    rw [shows_iff_head, shows_iff_head, h.head_eq]
  constructor
  case mirrored =>
    intro a b
    rw [h.targets, h.sources, hg.mirrored]
  case pointed =>
    intro a b hb
    rcases (h.targets a b).1 hb with ⟨⟨-, rfl⟩, -⟩ | ⟨-, hb⟩
    · exact ht.of_head (h.head_eq _)
    · exact (hg.pointed hb).of_head (h.head_eq _)
  case registered =>
    intro v n
    rw [h.registers_eq, hshows, hg.registered]
  case valued =>
    intro n hn
    rw [hkind] at hn
    obtain ⟨v, hv⟩ := hg.valued hn
    exact ⟨v, hshows.2 hv⟩
  case nodup => exact h.registers_eq ▸ hg.nodup
  case unknown => exact hkind _ ▸ hg.unknown
  case external => exact hkind _ ▸ hg.external

/-! ### New nodes -/

section Pushed

variable {kind : Kind} {label : String} {origin : Origin}
  (h : g'.nodes = g.nodes.push ⟨kind, label, origin, .empty, .empty⟩)

include h

theorem targetsOf_of_push (n : Nat) : g'.targetsOf n = g.targetsOf n := by
  rw [targetsOf, targetsOf, h, Array.getElem?_push]
  split
  · next hn => simp [hn]
  · rfl

theorem sourcesOf_of_push (n : Nat) : g'.sourcesOf n = g.sourcesOf n := by
  rw [sourcesOf, sourcesOf, h, Array.getElem?_push]
  split
  · next hn => simp [hn]
  · rfl

theorem kindOf?_of_push (n : Nat) :
    g'.kindOf? n = if n = g.size then some kind else g.kindOf? n := by
  rw [kindOf?, kindOf?, h, Array.getElem?_push, size]
  split <;> rfl

theorem shows_of_push {kind' : Kind} {origin' : Origin} : g'.Shows n kind' origin' ↔
    g.Shows n kind' origin' ∨ n = g.size ∧ kind = kind' ∧ origin = origin' := by
  rw [Shows, h]
  exact shows_push

/-- A new node that is no sentinel keeps a graph consistent, if the register table follows. -/
theorem Consistent.pushed (hg : g.Consistent) (hsentinel : kind.isSentinel = false)
    (hvalued : kind = .register → ∃ v, origin = .value v)
    (hregistered : ∀ v n, (v, n) ∈ g'.registers ↔
      (v, n) ∈ g.registers ∨ n = g.size ∧ kind = .register ∧ origin = .value v)
    (hnodup : (g'.registers.map Prod.fst).Nodup) : g'.Consistent := by
  have hold : ∀ {n k}, g.kindOf? n = some k → g'.kindOf? n = some k := by
    intro n k hn
    rw [kindOf?_of_push h, if_neg (Nat.ne_of_lt (lt_size_of_kindOf? hn)), hn]
  -- a sentinel of the new graph is one of the old graph
  have hsame :
      ∀ {n k}, k.isSentinel = true → (g'.kindOf? n = some k ↔ g.kindOf? n = some k) := by
    intro n k hk
    refine ⟨fun hn => ?_, hold⟩
    rw [kindOf?_of_push h] at hn
    split at hn
    · obtain rfl := Option.some_injective _ hn
      exact absurd (hsentinel.symm.trans hk) (by simp)
    · exact hn
  constructor
  case mirrored =>
    intro s t
    rw [targetsOf_of_push h, sourcesOf_of_push h, hg.mirrored]
  case pointed =>
    intro s t ht
    rw [targetsOf_of_push h] at ht
    obtain ⟨k, hk, hmemory⟩ := hg.pointed ht
    exact ⟨k, hold hk, hmemory⟩
  case registered =>
    intro v n
    rw [hregistered, hg.registered, shows_of_push h]
  case valued =>
    intro n hn
    rw [kindOf?_of_push h] at hn
    split at hn
    · next hsize =>
        obtain rfl := Option.some_injective _ hn
        obtain ⟨v, rfl⟩ := hvalued rfl
        exact ⟨v, (shows_of_push h).2 (.inr ⟨hsize, rfl, rfl⟩)⟩
    · obtain ⟨v, hv⟩ := hg.valued hn
      exact ⟨v, (shows_of_push h).2 (.inl hv)⟩
  case nodup => exact hnodup
  case unknown => exact (hsame rfl).trans hg.unknown
  case external => exact (hsame rfl).trans hg.external

end Pushed

theorem headOf?_new (id : Nat) : (new id).headOf? n =
    [(Kind.unknownMemory, "unknown", Origin.synthetic),
      (Kind.externalMemory, "external", Origin.synthetic)][n]? := by
  rcases n with _ | _ | n
  · rfl
  · rfl
  · simp [headOf?, new, push]

theorem consistent_new (id : Nat) : (new id).Consistent := by
  have htargets : ∀ n, (new id).targetsOf n = .empty :=
    blank_push (blank_push fun n => by simp [targetsOf])
  have hsources : ∀ n, (new id).sourcesOf n = .empty := by
    intro n
    rw [sourcesOf_of_push (g := (⟨id, #[], [], []⟩ : Graph).push .unknownMemory
      "unknown" .synthetic)
      rfl, sourcesOf_of_push (g := ⟨id, #[], [], []⟩) rfl]
    simp [sourcesOf]
  have hkind : ∀ n kind, (new id).kindOf? n = some kind ↔
      n = Graph.unknown ∧ kind = .unknownMemory ∨ n = Graph.external ∧
      kind = .externalMemory := by
    intro n kind
    rw [kindOf?_eq_head, headOf?_new]
    rcases n with _ | _ | n
    · simp [unknown, external, eq_comm]
    · simp [unknown, external, eq_comm]
    · simp [unknown, external]
  have hregister : ∀ n, (new id).kindOf? n ≠ some .register := by simp [hkind]
  constructor
  case mirrored => simp [htargets, hsources]
  case pointed =>
    intro s t ht
    rw [htargets] at ht
    exact absurd ht (IndexSet.not_mem_empty t)
  case registered =>
    intro v n
    exact ⟨fun h => absurd h (by simp [new, push]), fun h => absurd h.kindOf? (hregister n)⟩
  case valued => exact fun hn => absurd hn (hregister _)
  case nodup => exact List.nodup_nil
  case unknown => simp [hkind]
  case external => simp [hkind]

theorem Consistent.addRegister (hg : g.Consistent) {v : ValueId} {label : String}
    (h : g.addRegister v label = .ok (n, g')) : g'.Consistent := by
  have hnew : g.register? v = none := by
    unfold Graph.addRegister at h
    split at h
    · exact absurd h (by simp)
    · next hnone => simpa using hnone
  obtain ⟨rfl, rfl⟩ := addRegister_eq_ok h
  refine hg.pushed rfl rfl (fun _ => ⟨v, rfl⟩) (fun w n => ?_) ?_
  · simp [eq_comm, and_comm]
  · rw [List.map_append, List.map_singleton, ← List.concat_eq_append, List.nodup_concat]
    refine ⟨fun hv => ?_, hg.nodup⟩
    obtain ⟨⟨w, n⟩, hmem, rfl⟩ := List.mem_map.1 hv
    exact absurd (List.lookup_eq_none_iff.1 hnew _ hmem) (by simp)

theorem Consistent.addMemory (hg : g.Consistent) {kind : Kind} {label : String}
    {origin : Origin} (h : g.addMemory kind label origin = .ok (n, g')) : g'.Consistent := by
  have hkind : kind.isMemoryObject = true ∧ kind.isSentinel = false := by
    unfold Graph.addMemory at h
    split at h
    · next hkind => simpa using hkind
    · exact absurd h (by simp)
  have hregister : kind ≠ .register := by
    rintro rfl
    exact absurd hkind.1 (by decide)
  obtain ⟨rfl, rfl⟩ := addMemory_eq_ok h
  refine hg.pushed rfl hkind.2 (fun h => absurd h hregister) (fun v n => ?_) hg.nodup
  simp [hregister, push]

/-! ## Requests about edges -/

/-- A request about an edge is refused for a reason: an end belongs to another graph, which is
looked at first, or the target is a register. -/
inductive Refuses (g : Graph) (source target : Ref) : Refusal → Prop
  | crossGraph : source.graph ≠ g.id ∨ target.graph ≠ g.id →
      Refuses g source target (.crossGraph g.id source.graph target.graph)
  | registerTarget : source.graph = g.id → target.graph = g.id →
      g.kindOf? target.index = some .register →
      Refuses g source target (.registerTarget target.index)

/-- A request about an edge is granted: both ends are nodes of the graph and
the target is memory. -/
structure Admits (g : Graph) (source target : Ref) : Prop where
  source_graph : source.graph = g.id
  target_graph : target.graph = g.id
  source_lt : source.index < g.size
  target_memory : g.IsMemory target.index

/-- What a graph looks at before an edge is changed, check by check. -/
theorem checkEdge_eq : g.checkEdge source target =
    if source.graph ≠ g.id ∨ target.graph ≠ g.id then
      .error (.error (.crossGraph g.id source.graph target.graph))
    else match g.kindOf? target.index, g.kindOf? source.index with
      | none, _ => .error (.fault (.outOfBounds g.size target.index))
      | some .register, _ => .error (.error (.registerTarget target.index))
      | some _, none => .error (.fault (.outOfBounds g.size source.index))
      | some _, some _ => .ok () := by
  unfold checkEdge
  split
  · rfl
  · simp only [node, entryAt, kindOf?]
    cases g.nodes[target.index]? with
    | none => rfl
    | some x => cases hk : x.kind <;> cases g.nodes[source.index]? <;> simp only [
        Option.map_some, Option.map_none, bounded, hk] <;> simp only [
        liftM, monadLift, MonadLift.monadLift, Failure.lift, bind, Except.bind, hk] <;> rfl

theorem exists_kindOf? (h : n < g.size) : ∃ kind, g.kindOf? n = some kind :=
  ⟨_, by rw [kindOf?, Array.getElem?_eq_getElem h]; rfl⟩

theorem isMemory_iff : g.IsMemory n ↔ n < g.size ∧ g.kindOf? n ≠ some .register := by
  constructor
  · rintro ⟨kind, hkind, hmemory⟩
    refine ⟨lt_size_of_kindOf? hkind, fun h => ?_⟩
    obtain rfl := Option.some_injective _ (hkind.symm.trans h)
    exact absurd hmemory (by decide)
  · rintro ⟨hlt, hne⟩
    obtain ⟨kind, hkind⟩ := exists_kindOf? hlt
    refine ⟨kind, hkind, ?_⟩
    cases kind with
    | register => exact absurd hkind hne
    | _ => rfl

theorem checkEdge_eq_refusal {r : Refusal} :
    g.checkEdge source target = .error (.error r) ↔ g.Refuses source target r := by
  rw [checkEdge_eq]
  constructor
  · intro h
    split at h
    · next hcross =>
        obtain rfl := Failure.error.inj (Except.error.inj h)
        exact .crossGraph hcross
    next hcross =>
    rw [not_or, not_not, not_not] at hcross
    split at h
    · exact absurd h (by simp)
    · next hregister =>
        obtain rfl := Failure.error.inj (Except.error.inj h)
        exact .registerTarget hcross.1 hcross.2 hregister
    · exact absurd h (by simp)
    · exact absurd h (by simp)
  · intro h
    cases h with
    | crossGraph hcross => rw [if_pos hcross]
    | registerTarget hs ht hregister =>
        rw [if_neg (by simp [hs, ht]), hregister]

theorem checkEdge_eq_ok : g.checkEdge source target = .ok () ↔ g.Admits source target := by
  rw [checkEdge_eq]
  constructor
  · intro h
    split at h
    · exact absurd h (by simp)
    next hcross =>
    rw [not_or, not_not, not_not] at hcross
    split at h
    · exact absurd h (by simp)
    · exact absurd h (by simp)
    · exact absurd h (by simp)
    · next hne htarget hsource =>
        refine ⟨hcross.1, hcross.2, lt_size_of_kindOf? hsource, isMemory_iff.2
          ⟨lt_size_of_kindOf? htarget, ?_⟩⟩
        rw [htarget]
        exact fun h => hne (Option.some_injective _ h)
  · rintro ⟨hs, ht, hlt, hmemory⟩
    obtain ⟨kind, hkind, hmemory⟩ := hmemory
    obtain ⟨_, hsource⟩ := exists_kindOf? hlt
    rw [if_neg (by simp [hs, ht]), hkind, hsource]
    cases kind with
    | register => exact absurd hmemory (by decide)
    | _ => rfl

variable {change : Graph → Nat → Nat → Bool × Graph} {told : Bool}

/-- A request that is granted makes the change. -/
theorem request_of_ok (h : g.checkEdge source target = .ok ()) :
    request change source target g = .ok (change g source.index target.index).1
      (change g source.index target.index).2 := by
  rw [request, inPlace_get_bind, inPlace_bind_of_ok h]
  rfl

/-- A request that fails leaves the graph as it is, whatever change it asks for. -/
theorem request_of_error {cause : Failure Refusal}
    (h : g.checkEdge source target = .error cause) :
    request change source target g = .error cause g := by
  rw [request, inPlace_get_bind, inPlace_bind_of_error h]

theorem request_eq_error {cause : Failure Refusal} :
    request change source target g = .error cause g' ↔
      g.checkEdge source target = .error cause ∧ g' = g := by
  cases h : g.checkEdge source target with
  | ok => simp [request_of_ok h]
  | error cause' => simp [request_of_error h, eq_comm]

theorem request_eq_refusal {r : Refusal} :
    request change source target g = .error (.error r) g' ↔
    g.Refuses source target r ∧ g' = g := by
  rw [request_eq_error, checkEdge_eq_refusal]

theorem request_eq_ok : request change source target g = .ok told g' ↔
    g.Admits source target ∧ (told, g') = change g source.index target.index := by
  rw [← checkEdge_eq_ok, Prod.ext_iff]
  cases h : g.checkEdge source target with
  | ok => simp [request_of_ok h, eq_comm]
  | error cause => simp [request_of_error h]

/-- **What the making of an edge does.**  The answer tells whether the edge is new. -/
theorem Consistent.reedged_insertEdge (hg : g.Consistent) (hs : s < g.size) (ht : t < g.size) :
    ((g.insertEdge s t).1 = true ↔ ¬ t ∈ g.targetsOf s) ∧
      Reedged g (g.insertEdge s t).2 s t True := by
  rw [insertEdge_eq]
  split
  · next h =>
      refine ⟨by simp [h], reedged_self (iff_true_intro h) (iff_true_intro ?_)⟩
      exact (hg.mirrored s t).1 h
  · next h => exact ⟨by simp [h], reedged_insert hs ht⟩

/-- **What the removal of an edge does.**  The answer tells whether the edge was there. -/
theorem Consistent.reedged_deleteEdge (hg : g.Consistent) (hs : s < g.size) (ht : t < g.size) :
    ((g.deleteEdge s t).1 = true ↔ t ∈ g.targetsOf s) ∧
      Reedged g (g.deleteEdge s t).2 s t False := by
  rw [deleteEdge_eq]
  split
  · next h => exact ⟨by simp [h], reedged_erase hs ht⟩
  · next h =>
      refine ⟨by simp [h], reedged_self (iff_false_intro h) (iff_false_intro ?_)⟩
      exact fun h' => h ((hg.mirrored s t).2 h')

/-- Removing an edge that was just made restores the graph. -/
theorem Reedged.restores {g'' : Graph} (hg : g.Consistent) (h : Reedged g g' s t True)
    (h' : Reedged g' g'' s t False) (hnew : ¬ t ∈ g.targetsOf s) : g'' = g := by
  have hnew' : ¬ s ∈ g.sourcesOf t := fun hs => hnew ((hg.mirrored s t).2 hs)
  refine ext_nodes (h'.id_eq.trans h.id_eq) (h'.registers_eq.trans h.registers_eq)
    (h'.memory_eq.trans h.memory_eq) (fun n => (h'.head_eq n).trans (h.head_eq n))
    (fun n => ?_) fun n => ?_
  · refine IndexSet.ext_mem fun b => ?_
    rw [h'.targets, h.targets]
    grind
  · refine IndexSet.ext_mem fun a => ?_
    rw [h'.sources, h.sources]
    grind

/-! ## Histories -/

/-- What is left of a request that a history goes on from: the graph as
it was, or as changed. -/
theorem resume_eq_ok (h : resume (request change source target g) = .ok g') :
    g' = g ∨ ∃ told, request change source target g = .ok told g' := by
  cases hrequest : request change source target g with
  | ok told _ =>
      rw [hrequest] at h
      exact .inr ⟨told, by rw [Except.ok.inj h]⟩
  | error cause _ =>
      rw [hrequest] at h
      obtain ⟨-, rfl⟩ := request_eq_error.1 hrequest
      cases cause with
      | fault cause => exact absurd h (by simp [resume])
      | error cause => exact .inl (Except.ok.inj h).symm

/-- Every edit keeps a graph consistent. -/
theorem Consistent.perform (hg : g.Consistent) {e : Edit} (h : g.perform e = .ok g') :
    g'.Consistent := by
  cases e with
  | addRegister value label =>
      obtain ⟨⟨n, _⟩, hadd, rfl⟩ := map_eq_ok.1 h
      exact hg.addRegister hadd
  | addMemory kind label origin =>
      obtain ⟨⟨n, _⟩, hadd, rfl⟩ := map_eq_ok.1 h
      exact hg.addMemory hadd
  | addEdge source target =>
      rcases resume_eq_ok h with rfl | ⟨told, hadd⟩
      · exact hg
      obtain ⟨hadmits, heq⟩ := request_eq_ok.1 hadd
      have hlt := hadmits.target_memory.lt_size
      have hreedged := (hg.reedged_insertEdge hadmits.source_lt hlt).2
      rw [← heq] at hreedged
      exact hg.reedge hreedged hadmits.target_memory
  | removeEdge source target =>
      rcases resume_eq_ok h with rfl | ⟨told, hremove⟩
      · exact hg
      obtain ⟨hadmits, heq⟩ := request_eq_ok.1 hremove
      have hlt := hadmits.target_memory.lt_size
      have hreedged := (hg.reedged_deleteEdge hadmits.source_lt hlt).2
      rw [← heq] at hreedged
      exact hg.reedge hreedged hadmits.target_memory

/-- Every history leads to a consistent graph. -/
theorem consistent_of_edit {id : Nat} {edits : List Edit} (h : (new id).edit edits = .ok g) :
    g.Consistent :=
  foldlM_prefix (I := fun _ g => g.Consistent) (k := [])
    (fun _ _ _ _ hg hstep => hg.perform hstep) (consistent_new id) h

/-! ## Counts -/

theorem length_nodesOfKind (g : Graph) (kind : Kind) :
    (g.nodesOfKind kind).length = g.countKind kind := by
  -- by the nodes, from the last one on
  have hcount : ∀ l : List Node, ((List.range l.length).filter fun i =>
      l[i]?.map (·.kind) = some kind).length = l.countP (·.kind = kind) := by
    intro l
    induction l using List.reverseRecOn with
    | nil => rfl
    | append_singleton l x ih =>
        have hprefix : (List.range l.length).filter (fun i =>
            (l ++ [x])[i]?.map (·.kind) = some kind) =
            (List.range l.length).filter fun i => l[i]?.map (·.kind) = some kind := by
          refine List.filter_congr fun i hi => ?_
          rw [List.getElem?_append_left (List.mem_range.1 hi)]
        rw [List.length_append, List.length_singleton, List.range_succ,
          List.filter_append, hprefix, List.length_append, ih, List.countP_append]
        by_cases hx : x.kind = kind <;> simp [hx]
  simpa [nodesOfKind, indices, kindOf?, size, countKind] using hcount g.nodes.toList

/-- **The register table has as many entries as there are register nodes.** -/
theorem Consistent.length_registers (hg : g.Consistent) :
    g.registers.length = g.countKind .register := by
  have hnodup : (g.registers.map Prod.snd).Nodup := by
    refine (List.nodup_map_iff_inj_on (List.Nodup.of_map _ hg.nodup)).2 ?_
    rintro ⟨v, n⟩ hv ⟨w, m⟩ hw (rfl : n = m)
    have heq := (hg.registered.1 hv).symm.trans (hg.registered.1 hw)
    simp_all
  have hperm : (g.registers.map Prod.snd).Perm (g.nodesOfKind .register) := by
    have hnodes : (g.nodesOfKind .register).Nodup := List.nodup_range.filter _
    refine (List.perm_ext_iff_of_nodup hnodup hnodes).2 fun n => ?_
    rw [List.mem_map, mem_nodesOfKind]
    constructor
    · rintro ⟨⟨v, n⟩, hv, rfl⟩
      exact (hg.registered.1 hv).kindOf?
    · intro hkind
      obtain ⟨v, hv⟩ := hg.valued hkind
      exact ⟨(v, n), hg.registered.2 hv, rfl⟩
  rw [← length_nodesOfKind, ← hperm.length_eq, List.length_map]

theorem numEdges_eq_sum (g : Graph) :
    g.numEdges = ∑ n ∈ Finset.range g.size, (g.targetsOf n).size := by
  have hsum : ∀ l : List Node, l.foldl (fun edges node => edges + node.targets.size) 0 =
      ∑ n ∈ Finset.range l.length, (((l[n]?).map Node.targets).getD .empty).size := by
    intro l
    induction l using List.reverseRecOn with
    | nil => rfl
    | append_singleton l x ih =>
        rw [List.foldl_append, ih, List.length_append, List.length_singleton,
          Finset.sum_range_succ, List.getElem?_concat_length]
        refine congrArg (· + x.targets.size) (Finset.sum_congr rfl fun n hn => ?_)
        rw [List.getElem?_append_left (Finset.mem_range.1 hn)]
  simpa [numEdges, targetsOf, size] using hsum g.nodes.toList

/-- **The edges are as many, counted at either end.** -/
theorem Consistent.numEdges_eq_sources (hg : g.Consistent) :
    g.numEdges = ∑ n ∈ Finset.range g.size, (g.sourcesOf n).size := by
  have hsize : ∀ {s : IndexSet}, (∀ x ∈ s, x < g.size) →
      s.size = ((Finset.range g.size).filter (· ∈ s)).card := by
    intro s hs
    rw [IndexSet.size_eq_card]
    refine congrArg Finset.card (Finset.ext fun x => ?_)
    rw [List.mem_toFinset, IndexSet.mem_toList, Finset.mem_filter, Finset.mem_range]
    exact ⟨fun hx => ⟨hs x hx, hx⟩, And.right⟩
  have htargets : ∀ s, ∀ t ∈ g.targetsOf s, t < g.size := fun s t ht => (hg.pointed ht).lt_size
  have hsources : ∀ t, ∀ s ∈ g.sourcesOf t, s < g.size := by
    intro t s hs
    by_contra hge
    have ht := (hg.mirrored s t).2 hs
    rw [targetsOf, Array.getElem?_eq_none (not_lt.1 hge)] at ht
    exact absurd ht (IndexSet.not_mem_empty t)
  calc g.numEdges
    _ = ∑ s ∈ Finset.range g.size,
        ((Finset.range g.size).filter (· ∈ g.targetsOf s)).card := by
        rw [numEdges_eq_sum]
        exact Finset.sum_congr rfl fun s _ => hsize (htargets s)
    _ = ∑ t ∈ Finset.range g.size, ((Finset.range g.size).filter (t ∈ g.targetsOf ·)).card :=
        Finset.sum_card_bipartiteAbove_eq_sum_card_bipartiteBelow fun s t => t ∈ g.targetsOf s
    _ = ∑ t ∈ Finset.range g.size, (g.sourcesOf t).size := by
        refine Finset.sum_congr rfl fun t _ => ?_
        rw [hsize (hsources t)]
        simp only [hg.mirrored]

/-! ## The laws -/

/-- The node is in range wherever the reference claims to be one of the graph. -/
def InRange (g : Graph) (r : Ref) : Prop := r.graph = g.id → r.index < g.size

/-- What holds of a graph whatever its history. -/
structure Lawful (g : Graph) : Prop where
  /-- Each edge is kept at both of its ends. -/
  mirrored : ∀ s t, t ∈ g.targetsOf s ↔ s ∈ g.sourcesOf t
  /-- Only memory is pointed to. -/
  pointed : ∀ s t, t ∈ g.targetsOf s → g.IsMemory t
  /-- A value is mapped to the register node that was made for it. -/
  register?_iff : ∀ v n, g.register? v = some n ↔ g.Shows n .register (.value v)
  /-- Every register node is that of a value. -/
  covered : ∀ n, g.kindOf? n = some .register → ∃ v, g.register? v = some n
  /-- The table has as many entries as there are register nodes. -/
  length_registers : g.registers.length = g.countKind .register
  /-- The sentinels are nodes `0` and `1`. -/
  sentinels : ∀ n, (g.kindOf? n = some .unknownMemory ↔ n = 0) ∧
    (g.kindOf? n = some .externalMemory ↔ n = 1)
  /-- The edges can be counted at their targets. -/
  numEdges_eq : g.numEdges = ∑ n ∈ Finset.range g.size, (g.sourcesOf n).size
  /-- An edge is refused for a reason, whether it is to be made or to be removed. -/
  refused_iff : ∀ source target r,
    (g.addEdge source target = .error (.error r) ↔ g.Refuses source target r) ∧
    (g.removeEdge source target = .error (.error r) ↔ g.Refuses source target r)
  /-- A refusal leaves the graph as it is, and a history goes on from there. -/
  unchanged : ∀ source target r, g.Refuses source target r →
    (request insertEdge source target g = .error (.error r) g ∧
      request deleteEdge source target g = .error (.error r) g) ∧
    g.perform (.addEdge source target) = .ok g ∧ g.perform (.removeEdge source target) = .ok g
  /-- An edge that is not refused is made; the answer tells whether it is new. -/
  addEdge : ∀ source target, g.InRange source → g.InRange target →
    (∀ r, ¬ g.Refuses source target r) → ∃ new g', g.addEdge source target = .ok (new, g') ∧
      (new = true ↔ ¬ target.index ∈ g.targetsOf source.index) ∧
      Reedged g g' source.index target.index True
  /-- An edge that is not refused is removed; the answer tells whether it was there. -/
  removeEdge : ∀ source target, g.InRange source → g.InRange target →
    (∀ r, ¬ g.Refuses source target r) → ∃ old g', g.removeEdge source target = .ok (old, g') ∧
      (old = true ↔ target.index ∈ g.targetsOf source.index) ∧
      Reedged g g' source.index target.index False
  /-- Removing an edge that was just made restores the graph. -/
  restored : ∀ source target g', g.addEdge source target = .ok (true, g') →
    g'.removeEdge source target = .ok (true, g)
  /-- What escapes is what edges lead to from external memory, the sentinels apart. -/
  mem_escaped_iff : ∀ n, n ∈ g.escaped ↔
    Relation.TransGen (fun n m => m ∈ g.targetsOf n) external n ∧ n ≠ unknown ∧ n ≠ external

theorem admits_of_not_refuses (hs : g.InRange source) (ht : g.InRange target)
    (h : ∀ r, ¬ g.Refuses source target r) : g.Admits source target := by
  have hgraph : source.graph = g.id ∧ target.graph = g.id := by
    by_contra hne
    exact h _ (.crossGraph (not_and_or.1 hne))
  refine ⟨hgraph.1, hgraph.2, hs hgraph.1, isMemory_iff.2 ⟨ht hgraph.2, fun hregister => ?_⟩⟩
  exact h _ (.registerTarget hgraph.1 hgraph.2 hregister)

/-- An edge that was made may be removed. -/
theorem Admits.reedge {present : Prop} (h : g.Admits source target)
    (hg : Reedged g g' s t present) : g'.Admits source target where
  source_graph := h.source_graph.trans hg.id_eq.symm
  target_graph := h.target_graph.trans hg.id_eq.symm
  source_lt := by
    rw [← headOf?_isSome, hg.head_eq, headOf?_isSome]
    exact h.source_lt
  target_memory := h.target_memory.of_head (hg.head_eq _)

theorem Consistent.restored (hg : g.Consistent)
    (h : g.addEdge source target = .ok (true, g')) :
    g'.removeEdge source target = .ok (true, g) := by
  obtain ⟨hadmits, heq⟩ := request_eq_ok.1 (Failure.settled_eq_ok.1 h)
  have hlt := hadmits.target_memory.lt_size
  obtain ⟨hnew, hadded⟩ := hg.reedged_insertEdge hadmits.source_lt hlt
  rw [← heq] at hnew hadded
  have hadmits' := hadmits.reedge hadded
  obtain ⟨hold, hremoved⟩ := (hg.reedge hadded hadmits.target_memory).reedged_deleteEdge
    hadmits'.source_lt hadmits'.target_memory.lt_size
  have hpresent : target.index ∈ g'.targetsOf source.index :=
    (hadded.targets _ _).2 (.inl ⟨⟨rfl, rfl⟩, trivial⟩)
  rw [Graph.removeEdge, Failure.settled_eq_ok, request_eq_ok]
  refine ⟨hadmits', Prod.ext (hold.2 hpresent).symm ?_⟩
  exact (hadded.restores hg hremoved (hnew.1 rfl)).symm

theorem Consistent.mem_escaped_iff (hg : g.Consistent) : n ∈ g.escaped ↔
    Relation.TransGen (fun n m => m ∈ g.targetsOf n) Graph.external n ∧
      n ≠ Graph.unknown ∧ n ≠ Graph.external := by
  rw [hg.closed.mem_escaped, Relation.TransGen.head'_iff]
  refine and_congr_right fun hpath => ?_
  -- what is led to is a node, so it has a kind
  obtain ⟨m, hm, hpath⟩ := hpath
  have hlt : n < g.size := by
    cases hpath with
    | refl => exact (hg.pointed hm).lt_size
    | tail _ hstep => exact (hg.pointed hstep).lt_size
  obtain ⟨kind, hkind⟩ := exists_kindOf? hlt
  rw [hkind, Option.any_some, ne_eq, ne_eq, ← hg.unknown, ← hg.external, hkind]
  cases kind <;> decide

theorem Consistent.lawful (hg : g.Consistent) : g.Lawful := by
  have hregister : ∀ v n, g.register? v = some n ↔ g.Shows n .register (.value v) := by
    intro v n
    rw [register?, lookup_iff hg.nodup, hg.registered]
  constructor
  case mirrored => exact hg.mirrored
  case pointed => exact fun s t => hg.pointed
  case register?_iff => exact hregister
  case covered =>
    intro n hn
    obtain ⟨v, hv⟩ := hg.valued hn
    exact ⟨v, (hregister v n).2 hv⟩
  case length_registers => exact hg.length_registers
  case sentinels => exact fun n => ⟨hg.unknown, hg.external⟩
  case numEdges_eq => exact hg.numEdges_eq_sources
  case refused_iff =>
    intro source target r
    simp only [Graph.addEdge, Graph.removeEdge, Failure.settled_eq_error, request_eq_refusal,
      exists_and_left, exists_eq, and_true, and_self]
  case unchanged =>
    intro source target r hr
    have hrefused : ∀ change, request change source target g = .error (.error r) g :=
      fun _ => request_eq_refusal.2 ⟨hr, rfl⟩
    refine ⟨⟨hrefused insertEdge, hrefused deleteEdge⟩, ?_⟩
    rw [Graph.perform, Graph.perform, hrefused, hrefused]
    exact ⟨rfl, rfl⟩
  case addEdge =>
    intro source target hs ht hr
    have hadmits := admits_of_not_refuses hs ht hr
    exact ⟨_, _, Failure.settled_eq_ok.2 (request_eq_ok.2 ⟨hadmits, rfl⟩),
      hg.reedged_insertEdge hadmits.source_lt hadmits.target_memory.lt_size⟩
  case removeEdge =>
    intro source target hs ht hr
    have hadmits := admits_of_not_refuses hs ht hr
    exact ⟨_, _, Failure.settled_eq_ok.2 (request_eq_ok.2 ⟨hadmits, rfl⟩),
      hg.reedged_deleteEdge hadmits.source_lt hadmits.target_memory.lt_size⟩
  case restored => exact fun source target g' => hg.restored
  case mem_escaped_iff => exact fun n => hg.mem_escaped_iff

/-- **A graph is lawful whatever its history.** -/
theorem lawful_of_edit {id : Nat} {edits : List Edit} (h : (new id).edit edits = .ok g) :
    g.Lawful :=
  (consistent_of_edit h).lawful

/-- External memory is made to point through unknown memory to a slot; an edge to a register
and one of another graph are refused, and one edge is made twice and removed. -/
def passingEdits : List Edit :=
  [.addRegister 7 "p", .addMemory .alloca "slot" (.operation 0), .addEdge ⟨0, 1⟩ ⟨0, 0⟩,
    .addEdge ⟨0, 0⟩ ⟨0, 3⟩, .addEdge ⟨0, 3⟩ ⟨0, 2⟩, .addEdge ⟨5, 3⟩ ⟨0, 2⟩,
    .addEdge ⟨0, 2⟩ ⟨0, 3⟩, .addEdge ⟨0, 2⟩ ⟨0, 3⟩, .removeEdge ⟨0, 2⟩ ⟨0, 3⟩,
    .addEdge ⟨0, 3⟩ ⟨0, 3⟩]

theorem lawful_of_edit_passingEdits : ∃ g, (new 0).edit passingEdits = .ok g ∧ g.Lawful ∧
    g.numEdges = 3 ∧ g.register? 7 = some 2 ∧ (g.sourcesOf 3).toList = [0, 3] ∧
    g.escaped.toList = [3] := by
  have hrun : ∃ g, (new 0).edit passingEdits = .ok g ∧ g.numEdges = 3 ∧
      g.register? 7 = some 2 ∧
      (g.sourcesOf 3).toList = [0, 3] ∧ g.escaped.toList = [3] :=
    ⟨_, rfl, rfl, rfl, rfl, rfl⟩
  obtain ⟨g, hg, hrest⟩ := hrun
  exact ⟨g, hg, lawful_of_edit hg, hrest⟩

end PointerChannels.Graph
