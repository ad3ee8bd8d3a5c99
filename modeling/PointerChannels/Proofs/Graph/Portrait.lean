import PointerChannels.Graph.Text
import PointerChannels.Proofs.Graph.History
import PointerChannels.Proofs.Graph.SameView
import PointerChannels.Proofs.Pool.History

/-!
# The graph of a pool is its portrait

Two numberings meet here: a pool numbers its entities, a graph its nodes.  Memory nodes stand
for the memory objects in their order, and register nodes come after them in the order of
values.  So node `n` is the `n`-th entry of one list of entities, and everything in the graph
is read off the pool through that list.

## Main definitions

* `Pool.Founded` — what a new pool has and every operation keeps.
* `Pool.nodeEntities` — the entity behind each node.
* `Graph.Portrays` — a graph has the nodes and the edges that a pool gives it, and no others.

## Main statements

* `Pool.founded_of_run` — every history of a pool leads to a founded pool.
* `Graph.ofPool_portrays` — the graph of a pool is built, portrays it, and is that of every
  pool that looks the same.
-/

namespace PointerChannels

/-! ## What a graph sees of a pool -/

namespace Pool

variable {p q : Pool} {e i : Nat} {v : ValueId}

/-- The memory objects, in order. -/
def objectIndices (p : Pool) : List Nat :=
  p.indices.filter fun e => (p.kindOf e).isMemoryObject

/-- The entity behind each node of the pool's graph. -/
def nodeEntities (p : Pool) : List Nat := p.objectIndices ++ p.registerTable.map Prod.snd

/-- The two sentinels stand first, every entity has a root, and a value has one
register, which is an entity. -/
structure Founded (p : Pool) : Prop extends p.Legible where
  unknown : p.headOf? Pool.unknown = some (.unknownMemory, "unknown", .synthetic)
  external : p.headOf? Pool.external = some (.externalMemory, "external", .synthetic)
  distinct : (p.registers.map Prod.fst).Nodup

theorem pointsTo_of_size_le (h : p.size ≤ e) : p.pointsTo e = .empty := by
  rw [pointsTo, rootOf_of_size_le h, stored, Array.getElem?_eq_none h]
  rfl

theorem mem_objectIndices : e ∈ p.objectIndices ↔ p.IsObject e := by
  simp [objectIndices, IsObject, mem_indices]

theorem pairwise_objectIndices (p : Pool) : p.objectIndices.Pairwise (· < ·) :=
  List.pairwise_lt_range.filter _

theorem made_of_headOf? {kind : Entity.Kind} {label : String} {origin : Origin}
    (h : p.headOf? e = some (kind, label, origin)) : p.Made e kind origin := by
  obtain ⟨c, hc, heq⟩ := Option.map_eq_some_iff.1 h
  simp only [Cell.head, Prod.mk.injEq] at heq
  simp [Made, hc, heq]

theorem Founded.guarded (hp : p.Founded) (hsentinels : ∀ e < p.size,
    (p.kindOf e).isSentinel = true → e = Pool.unknown ∨ e = Pool.external) : p.Guarded where
  made_unknown := made_of_headOf? hp.unknown
  made_external := made_of_headOf? hp.external
  only hm hk := hsentinels _ hm.lt_size (hm.kindOf ▸ hk)

/-! ### Pools that look the same -/

/-- Whether two pools look the same can be told from their lists. -/
theorem sameView_of_lists (hp : (p.registers.map Prod.fst).Nodup)
    (hq : (q.registers.map Prod.fst).Nodup)
    (hheads : q.cells.toList.map Cell.head = p.cells.toList.map Cell.head)
    (hregisters : q.registers.Perm p.registers)
    (hpoints : ∀ e < p.size, q.pointsTo e = p.pointsTo e) : p.SameView q where
  head e := by
    have he := congrArg (fun heads : List _ => heads[e]?) hheads
    simpa [headOf?] using he
  register v := by
    ext e
    exact (lookup_iff hq).trans (hregisters.mem_iff.trans (lookup_iff hp).symm)
  points e x := by
    by_cases he : e < p.size
    · rw [hpoints e he]
    · have hsize : q.size = p.size := by
        have hlength := congrArg List.length hheads
        simpa [size] using hlength
      rw [pointsTo_of_size_le (not_lt.1 he), pointsTo_of_size_le (hsize ▸ not_lt.1 he)]

/-! ### Every pool is founded -/

theorem Founded.same (hp : p.Founded) (h : SameEntities p q) (hq : q.Forest) : q.Founded where
  forest := hq
  distinct := h.registers_eq ▸ hp.distinct
  register_lt hv := h.lt_size_iff.2 (hp.register_lt (h.register?_eq ▸ hv))
  unknown := (h.headOf?_eq _).trans hp.unknown
  external := (h.headOf?_eq _).trans hp.external

theorem headOf?_push {kind : Entity.Kind} {label : String} {origin : Origin}
    {head : Entity.Kind × String × Origin} (h : p.headOf? e = some head) :
    (p.push kind label origin).headOf? e = some head := by
  obtain ⟨c, hc, rfl⟩ := Option.map_eq_some_iff.1 h
  have hlt : e < p.size := lt_size_iff.2 ⟨c, hc⟩
  rw [headOf?, cells_push, if_neg (Nat.ne_of_lt hlt), hc, Option.map_some]

theorem Founded.push (hp : p.Founded) {kind : Entity.Kind} {label : String} {origin : Origin} :
    (p.push kind label origin).Founded where
  forest := hp.forest.push
  distinct := hp.distinct
  register_lt hv := Nat.lt_of_lt_of_le (hp.register_lt hv) hp.forest.unmerged_push.size_le
  unknown := headOf?_push hp.unknown
  external := headOf?_push hp.external

theorem Founded.bindRegister (hp : p.Founded) (hv : p.register? v = none) (hi : i < p.size) :
    (p.bindRegister v i).Founded where
  forest := hp.forest.unmerged_bindRegister.forest
  distinct := by
    rw [Pool.bindRegister, List.map_append, List.map_singleton, ← List.concat_eq_append,
      List.nodup_concat]
    refine ⟨fun hmem => ?_, hp.distinct⟩
    obtain ⟨⟨w, e⟩, hw, rfl⟩ := List.mem_map.1 hmem
    exact absurd (List.lookup_eq_none_iff.1 hv _ hw) (by simp)
  register_lt hw := by
    rcases List.mem_append.1 (mem_of_lookup hw) with hmem | hmem
    · exact hp.register_lt ((lookup_iff hp.distinct).2 hmem)
    · obtain ⟨-, rfl⟩ := Prod.mk.inj (List.mem_singleton.1 hmem)
      exact hi
  unknown := hp.unknown
  external := hp.external

theorem Founded.sign (hp : p.Founded) {signature : Signature} :
    (p.sign i signature).Founded := by
  have hhead : ∀ e, (p.sign i signature).headOf? e = p.headOf? e := by
    intro e
    rw [headOf?, headOf?, cells_sign]
    exact map_view (fun c => by split <;> rfl) _
  refine ⟨⟨hp.forest.unmerged_sign.forest, fun hv => ?_⟩, (hhead _).trans hp.unknown,
    (hhead _).trans hp.external, hp.distinct⟩
  rw [size_sign]
  exact hp.register_lt hv

theorem founded_new (id : Nat) (capacity : Option Nat) : (Pool.new id capacity).Founded :=
  ⟨⟨(Intact.new id capacity).forest, fun hv => absurd (mem_of_lookup hv) List.not_mem_nil⟩,
    rfl, rfl, List.nodup_nil⟩

/-- Every operation keeps a pool founded. -/
theorem Founded.performed (hp : p.Founded) {pair : Option (Nat × Nat)}
    (h : Performed p pair q) : q.Founded := by
  cases h with
  | same => exact hp
  | pushed kind label origin => exact hp.push
  | registered v label hv =>
      exact hp.push.bindRegister hv (by rw [size_push]; exact Nat.lt_succ_self p.size)
  | shared v i hv hi => exact hp.bindRegister hv hi
  | signed i signature => exact hp.sign
  | found i hi =>
      have hshort := hp.forest.shortened_find hi
      exact hp.same hshort.same hshort.forest
  | grown r objects _ _ =>
    exact hp.same (.store _ _ _) (hp.forest.unmerged_grow r objects).forest
  | merged a b ha hb hne =>
      obtain ⟨loser, survivor, q, hmerge, -, hjoined⟩ := hp.forest.merge ha hb hne
      rw [hmerge]
      exact hp.same hjoined.same hjoined.forest

/-- Every history leads to a founded pool. -/
theorem founded_of_run {id : Nat} {capacity : Option Nat} {actions : List Action}
    (h : (Pool.new id capacity).run actions = .ok p) : p.Founded :=
  foldlM_prefix (I := fun _ q => q.Founded) (k := [])
    (fun _ _ _ _ hs ht => hs.performed (performed_of_perform ht)) (founded_new id capacity) h

end Pool

namespace Graph

variable {g g' : Graph} {p q : Pool} {program : Program} {e n : Nat} {table : List (Nat × Nat)}

/-- The node is what the entity is: of its kind, of its name, for its part of the program. -/
def Resembles (g : Graph) (n : Nat) (p : Pool) (e : Nat) : Prop :=
  ∃ kind label origin, p.headOf? e = some (kind, label, origin) ∧
    g.headOf? n = some (Kind.ofEntity kind, label, origin)

/-- The node is that of a register, made for the value and named as the program names it. -/
def Names (g : Graph) (n : Nat) (program : Program) (v : ValueId) : Prop :=
  ∃ value, program.value v = .ok value ∧ g.headOf? n = some (.register, value.name, .value v)

/-- The graph has the nodes and the edges that the pool gives it, and no others. -/
structure Portrays (g : Graph) (p : Pool) (program : Program) : Prop where
  /-- There is a node for each memory object and one for each value with a register. -/
  size_eq : g.size = p.objectIndices.length + p.registerTable.length
  /-- Memory objects are listed in the order of entities. -/
  objects : p.objectIndices.Pairwise (· < ·) ∧ ∀ e, e ∈ p.objectIndices ↔ p.IsObject e
  /-- Registers are listed in the order of values. -/
  values : p.registerTable.Pairwise (fun a b => a.1 < b.1) ∧
    ∀ v e, (v, e) ∈ p.registerTable ↔ p.register? v = some e
  unknown : p.objectIndices[Graph.unknown]? = some Pool.unknown
  external : p.objectIndices[Graph.external]? = some Pool.external
  /-- A memory node is what its object is. -/
  memory : ∀ {n e}, p.objectIndices[n]? = some e → g.Resembles n p e
  /-- The register nodes come next, and bear the names of their values. -/
  register : ∀ {i v e}, p.registerTable[i]? = some (v, e) →
    g.Names (p.objectIndices.length + i) program v
  /-- A value is found at its register node. -/
  found : ∀ {v r}, g.register? v = some r ↔
    ∃ i e, p.registerTable[i]? = some (v, e) ∧ r = p.objectIndices.length + i
  /-- A node points to the nodes of what its entity points to. -/
  edge : ∀ {n m}, m ∈ g.targetsOf n ↔
    ∃ e, p.nodeEntities[n]? = some e ∧ ∃ x ∈ p.pointsTo e, p.objectIndices[m]? = some x
  /-- Both ends of an edge know it. -/
  mirrored : ∀ {n m}, n ∈ g.sourcesOf m ↔ m ∈ g.targetsOf n

/-! ## The numbering of memory nodes -/

/-- The table of memory nodes lists the memory objects. -/
theorem Laid.map_fst (h : Laid p p.size g table) (htwo : 2 ≤ p.size) :
    table.map Prod.fst = p.objectIndices := by
  refine h.keys.eq_of_mem_iff p.pairwise_objectIndices fun e => ?_
  rw [Pool.mem_objectIndices]
  constructor
  · intro he
    obtain ⟨⟨e, n⟩, hx, rfl⟩ := List.mem_map.1 he
    exact h.isObject htwo hx
  · intro he
    exact List.mem_map.2 ⟨_, h.mem_nodeIn he, rfl⟩

theorem Laid.size_eq (h : Laid p p.size g table) (htwo : 2 ≤ p.size) :
    g.size = p.objectIndices.length := by
  rw [← h.map_fst htwo, List.length_map, ← List.length_map (f := Prod.snd), h.nodes,
    List.length_range]

theorem Laid.mem_iff (h : Laid p p.size g table) (htwo : 2 ≤ p.size) :
    (e, n) ∈ table ↔ p.objectIndices[n]? = some e := by
  rw [← h.map_fst htwo]
  constructor
  · exact h.getElem?_eq
  · intro he
    have hn : n < g.size := by
      rw [h.size_eq htwo, ← h.map_fst htwo]
      exact (List.getElem?_eq_some_iff.1 he).1
    obtain ⟨e', he'⟩ := h.exists_entity hn
    have heq : e' = e := Option.some_injective _ ((h.getElem?_eq he').symm.trans he)
    exact heq ▸ he'

/-! ## What nodes are -/

theorem headOf?_of_push {kind : Kind} {label : String} {origin : Origin}
    (h : g'.nodes = g.nodes.push ⟨kind, label, origin, .empty, .empty⟩) (n : Nat) :
    g'.headOf? n = if n = g.size then some (kind, label, origin) else g.headOf? n := by
  rw [headOf?, headOf?, h, Array.getElem?_push, size]
  split <;> rfl

/-- A new node leaves the others as they were. -/
theorem headOf?_keep {kind : Kind} {label : String} {origin : Origin}
    (h : g'.nodes = g.nodes.push ⟨kind, label, origin, .empty, .empty⟩)
    {head : Kind × String × Origin} (hn : g.headOf? n = some head) :
    g'.headOf? n = some head := by
  have hlt : n < g.size := headOf?_isSome.1 (by rw [hn]; rfl)
  rw [headOf?_of_push h, if_neg (Nat.ne_of_lt hlt), hn]

/-- Memory nodes resemble their entities, and the graph is consistent. -/
theorem resembles_of_objects {id : Nat} (hp : p.Founded)
    (hok : p.cells.toList.zipIdx.foldlM addObject
      (new id, [(Pool.unknown, unknown), (Pool.external, external)]) = .ok (g, table)) :
    g.Consistent ∧ ∀ x ∈ table, g.Resembles x.2 p x.1 := by
  have hstart : ∀ x ∈ [(Pool.unknown, unknown), (Pool.external, external)],
      (new id).Resembles x.2 p x.1 := by
    simp only [List.mem_cons, List.not_mem_nil, or_false, forall_eq_or_imp, forall_eq]
    exact ⟨⟨_, _, _, hp.unknown, rfl⟩, ⟨_, _, _, hp.external, rfl⟩⟩
  refine foldlM_induction
    (P := fun s : Graph × List (Nat × Nat) => s.1.Consistent ∧
      ∀ x ∈ s.2, s.1.Resembles x.2 p x.1)
    ?_ ⟨consistent_new id, hstart⟩ hok
  rintro s t ⟨c, i⟩ hc ⟨hconsistent, hs⟩ hstep
  have hc : p.cells[i]? = some c := by simpa using List.mem_zipIdx_iff_getElem?.1 hc
  rcases addObject_eq_ok hstep with ⟨-, rfl⟩ | ⟨-, -, n, g', hadd, rfl⟩
  · exact ⟨hconsistent, hs⟩
  refine ⟨hconsistent.addMemory hadd, ?_⟩
  -- the new node comes behind the others, which stay what they are
  obtain ⟨rfl, rfl⟩ := addMemory_eq_ok hadd
  intro x hx
  rcases List.mem_append.1 hx with hx | hx
  · obtain ⟨kind, label, origin, he, hn⟩ := hs x hx
    exact ⟨kind, label, origin, he, headOf?_keep rfl hn⟩
  · obtain rfl := List.mem_singleton.1 hx
    refine ⟨c.kind, c.label, c.origin, by simp [Pool.headOf?, hc, Pool.Cell.head], ?_⟩
    exact (headOf?_of_push rfl _).trans (if_pos rfl)

/-- Register nodes bear the names of their values, and what was there before stays. -/
theorem named_of_values {registers : List (ValueId × Nat)} (hg : g.Consistent)
    (hnone : g.registers = []) (hok : addRegisters program g registers = .ok (g', table)) :
    g'.Consistent ∧ (∀ x ∈ g'.registers, g'.Names x.2 program x.1) ∧
      ∀ {n head}, g.headOf? n = some head → g'.headOf? n = some head := by
  have hfold := foldlM_of_ok
    (G := fun s : Graph × List (Nat × Nat) => s.1.Consistent ∧
      ∀ x ∈ s.1.registers, s.1.Names x.2 program x.1)
    (R := fun s t => ∀ n head, s.1.headOf? n = some head → t.1.headOf? n = some head)
    (D := fun _ _ => True) (fun _ _ _ h => h) (fun h h' n head hn => h' n head (h n head hn))
    (fun _ _ => trivial) ?round ⟨hg, by simp [hnone]⟩ (addRegisters_eq ▸ hok)
  · exact ⟨hfold.1.1, hfold.1.2, fun hn => hfold.2.1 _ _ hn⟩
  case round =>
    rintro s t ⟨v, e⟩ - ⟨hconsistent, hs⟩ hstep
    obtain ⟨named, n, g₁, hvalue, hadd, rfl⟩ := addValue_eq_ok.1 hstep
    have hconsistent' := hconsistent.addRegister hadd
    obtain ⟨rfl, rfl⟩ := addRegister_eq_ok hadd
    refine ⟨⟨hconsistent', ?_⟩, fun n head hn => headOf?_keep rfl hn, trivial⟩
    intro x hx
    rcases List.mem_append.1 hx with hx | hx
    · obtain ⟨value, hvalue, hn⟩ := hs x hx
      exact ⟨value, hvalue, headOf?_keep rfl hn⟩
    · obtain rfl := List.mem_singleton.1 hx
      exact ⟨named, hvalue, (headOf?_of_push rfl _).trans (if_pos rfl)⟩

/-- Edges to memory keep a graph consistent and its nodes what they are. -/
theorem Consistent.insertEdges {targets : List Nat} (hg : g.Consistent) (hn : n < g.size)
    (htargets : ∀ m ∈ targets, g.IsMemory m) :
    (targets.foldl (fun g target => (g.insertEdge n target).2) g).Consistent ∧
      ∀ k, (targets.foldl (fun g target => (g.insertEdge n target).2) g).headOf? k =
        g.headOf? k := by
  induction targets generalizing g with
  | nil => exact ⟨hg, fun _ => rfl⟩
  | cons target targets ih =>
      have hmemory := htargets target (by simp)
      have hedge := (hg.reedged_insertEdge hn hmemory.lt_size).2
      -- an edge changes no node, so that the targets still to come are memory as before
      have hsize : n < (g.insertEdge n target).2.size := by
        rwa [← headOf?_isSome, hedge.head_eq, headOf?_isSome]
      obtain ⟨hconsistent, hhead⟩ := ih (hg.reedge hedge hmemory) hsize fun m hm =>
        (htargets m (List.mem_cons_of_mem target hm)).of_head (hedge.head_eq m)
      exact ⟨hconsistent, fun k => (hhead k).trans (hedge.head_eq k)⟩

/-- Connecting nodes keeps a graph consistent and its nodes what they are, if the table of
memory nodes lists memory nodes. -/
theorem Consistent.connects {sources : List (Nat × Nat)} (hg : g.Consistent)
    (hsources : ∀ s ∈ sources, s.1 < g.size) (htable : ∀ x ∈ table, g.IsMemory x.2)
    (hok : sources.foldlM (connect p table) g = .ok g') :
    g'.Consistent ∧ ∀ k, g'.headOf? k = g.headOf? k := by
  refine foldlM_induction (P := fun s : Graph => s.Consistent ∧ ∀ k, s.headOf? k = g.headOf? k) ?_
    ⟨hg, fun _ => rfl⟩ hok
  rintro s t source hsource ⟨hconsistent, hhead⟩ hstep
  obtain ⟨targets, htargets, rfl⟩ := connect_eq_ok hstep
  have hsize : source.1 < s.size := by
    rw [← headOf?_isSome, hhead, headOf?_isSome]
    exact hsources source hsource
  have hmemory : ∀ m ∈ targets.toList, s.IsMemory m := by
    intro m hm
    obtain ⟨x, -, hlookup⟩ := (mem_targetNodes htargets).1 (IndexSet.mem_toList.1 hm)
    exact (htable _ (mem_of_lookup hlookup)).of_head (hhead m)
  obtain ⟨hconsistent', hhead'⟩ := hconsistent.insertEdges hsize hmemory
  exact ⟨hconsistent', fun k => (hhead' k).trans (hhead k)⟩

/-! ## The portrait -/

section

variable {id : Nat} {g₁ g₂ : Graph} {registers : List (Nat × Nat)}

/-- The two tables together give the entity behind each node. -/
theorem Built.entity_iff (h : Built id p program g₁ table g₂ registers g) (htwo : 2 ≤ p.size) :
    (e, n) ∈ table ∨ (n, e) ∈ registers ↔ p.nodeEntities[n]? = some e := by
  have hsize := h.laid.size_eq htwo
  rw [h.laid.mem_iff htwo, h.listed.mem_table, hsize, Pool.nodeEntities, List.getElem?_append,
    List.getElem?_map]
  split
  · next hlt =>
      refine or_iff_left ?_
      rintro ⟨v, hle, -⟩
      omega
  · next hge =>
      rw [List.getElem?_eq_none (not_lt.1 hge)]
      simp [not_lt.1 hge]

/-- The nodes are what their entities and their values are, and both ends know each edge. -/
theorem Built.heads (h : Built id p program g₁ table g₂ registers g) (hp : p.Founded) :
    g.Consistent ∧ (∀ x ∈ table, g.Resembles x.2 p x.1) ∧
      ∀ x ∈ g.registers, g.Names x.2 program x.1 := by
  obtain ⟨hconsistent, hresembles⟩ := resembles_of_objects hp h.objects
  obtain ⟨hconsistent, hnamed, hkeep⟩ := named_of_values hconsistent h.laid.registers h.values
  have hmemory : ∀ x ∈ table, g₂.IsMemory x.2 := by
    intro x hx
    obtain ⟨kind, label, origin, he, hn⟩ := hresembles x hx
    refine ⟨.ofEntity kind, ?_, ?_⟩
    · rw [kindOf?_eq_head, hkeep hn]
      rfl
    · rw [Kind.isMemoryObject_ofEntity]
      exact (h.laid.shows hx (Pool.made_of_headOf? he)).1
  obtain ⟨hconsistent, hhead⟩ := hconsistent.connects h.sources hmemory h.connected
  refine ⟨hconsistent, fun x hx => ?_, fun x hx => ?_⟩
  · obtain ⟨kind, label, origin, he, hn⟩ := hresembles x hx
    exact ⟨kind, label, origin, he, (hhead _).trans (hkeep hn)⟩
  · obtain ⟨value, hvalue, hn⟩ := hnamed x (h.same.registers ▸ hx)
    exact ⟨value, hvalue, (hhead _).trans hn⟩

theorem Built.portrays (h : Built id p program g₁ table g₂ registers g) (hp : p.Founded)
    (htwo : 2 ≤ p.size) : g.Portrays p program := by
  obtain ⟨hconsistent, hresembles, hnamed⟩ := h.heads hp
  have hsize := h.laid.size_eq htwo
  have hfound : ∀ {v r}, g.register? v = some r ↔
      ∃ i e, p.registerTable[i]? = some (v, e) ∧ r = p.objectIndices.length + i := by
    intro v r
    refine h.register?_iff.trans ?_
    rw [hsize]
    constructor
    · rintro ⟨e, hle, he⟩
      exact ⟨_, e, he, by omega⟩
    · rintro ⟨i, e, he, rfl⟩
      exact ⟨e, by omega, by rwa [Nat.add_sub_cancel_left]⟩
  constructor
  case size_eq => rw [h.same.size, h.listed.size, hsize]
  case objects => exact ⟨p.pairwise_objectIndices, fun e => Pool.mem_objectIndices⟩
  case values => exact ⟨p.pairwise_registerTable, fun v e => Pool.mem_registerTable⟩
  case unknown => exact (h.laid.mem_iff htwo).1 h.laid.unknown
  case external => exact (h.laid.mem_iff htwo).1 h.laid.external
  case memory =>
    intro n e he
    exact hresembles (e, n) ((h.laid.mem_iff htwo).2 he)
  case register =>
    intro i v e he
    exact hnamed (v, _) (mem_of_lookup (hfound.2 ⟨i, e, he, rfl⟩))
  case found => exact hfound
  case edge =>
    intro n m
    rw [h.edges]
    refine exists_congr fun e => and_congr (h.entity_iff htwo) (exists_congr fun x => ?_)
    rw [← h.laid.mem_iff htwo, lookup_iff (h.laid.keys.imp Nat.ne_of_lt)]
  case mirrored =>
    intro n m
    exact (hconsistent.mirrored n m).symm

end

/-- Nodes whose entities share a class have the same targets. -/
theorem Portrays.targetsOf_eq (h : g.Portrays p program) {m a b : Nat}
    (hn : p.nodeEntities[n]? = some a) (hm : p.nodeEntities[m]? = some b)
    (hclass : p.rootOf a = p.rootOf b) : g.targetsOf n = g.targetsOf m := by
  have hpoints : p.pointsTo a = p.pointsTo b := by rw [Pool.pointsTo, Pool.pointsTo, hclass]
  refine IndexSet.ext_mem fun t => ?_
  rw [h.edge, h.edge, hn, hm]
  simp [hpoints]

/-- The entity behind the register node of a value is the value's register. -/
theorem Portrays.entity_of_register (h : g.Portrays p program) {v : ValueId} {r : Nat}
    (hr : g.register? v = some r) :
    ∃ e, p.register? v = some e ∧ p.nodeEntities[r]? = some e := by
  obtain ⟨i, e, he, rfl⟩ := h.found.1 hr
  refine ⟨e, (h.values.2 v e).1 (List.mem_of_getElem? he), ?_⟩
  rw [Pool.nodeEntities, List.getElem?_append_right (Nat.le_add_right _ _),
    Nat.add_sub_cancel_left, List.getElem?_map, he]
  rfl

/-! ## Pools that look the same -/

/-- The graph under another identity. -/
def withId (g : Graph) (id : Nat) : Graph := { g with id }

theorem addMemory_withId {id : Nat} {kind : Kind} {label : String} {origin : Origin}
    (h : g.addMemory kind label origin = .ok (n, g')) :
    (g.withId id).addMemory kind label origin = .ok (n, g'.withId id) := by
  unfold addMemory at h ⊢
  split at h
  · next hkind =>
      obtain ⟨rfl, rfl⟩ := Prod.mk.inj (Except.ok.inj h)
      rw [if_pos hkind]
      split <;> rfl
  · exact absurd h (by simp)

theorem addRegister_withId {id : Nat} {v : ValueId} {label : String}
    (h : g.addRegister v label = .ok (n, g')) :
    (g.withId id).addRegister v label = .ok (n, g'.withId id) := by
  unfold addRegister at h ⊢
  split at h
  · exact absurd h (by simp)
  · next hnone =>
      obtain ⟨rfl, rfl⟩ := Prod.mk.inj (Except.ok.inj h)
      exact if_neg hnone

theorem addObject_withId {id : Nat} {state state' : Graph × List (Nat × Nat)}
    {entry : Pool.Cell × Nat} (h : addObject state entry = .ok state') :
    addObject (state.1.withId id, state.2) entry = .ok (state'.1.withId id, state'.2) := by
  unfold addObject at h ⊢
  split at h
  · obtain rfl := Except.ok.inj h
    rfl
  · simp only [bind_eq_ok, pure_eq_ok, Prod.exists] at h ⊢
    obtain ⟨n, g', hadd, rfl⟩ := h
    exact ⟨n, g'.withId id, addMemory_withId hadd, rfl⟩

theorem addValue_withId {id : Nat} {state state' : Graph × List (Nat × Nat)}
    {entry : ValueId × Nat} (h : addValue program state entry = .ok state') :
    addValue program (state.1.withId id, state.2) entry = .ok (state'.1.withId id,
      state'.2) := by
  obtain ⟨named, n, g', hvalue, hadd, rfl⟩ := addValue_eq_ok.1 h
  exact addValue_eq_ok.2 ⟨named, n, g'.withId id, hvalue, addRegister_withId hadd, rfl⟩

theorem insertEdge_withId (g : Graph) (id s t : Nat) :
    ((g.withId id).insertEdge s t).2 = (g.insertEdge s t).2.withId id := by
  unfold insertEdge
  split
  · next h => rw [if_pos (show t ∈ g.targetsOf s from h)]
  · next h =>
      rw [if_neg (show ¬ t ∈ g.targetsOf s from h)]
      rfl

theorem joinNodes_withId {id s t : Nat} (h : g.joinNodes s t = .ok g') :
    (g.withId id).joinNodes s t = .ok (g'.withId id) := by
  obtain ⟨hmemory, hlt, rfl⟩ := joinNodes_eq_ok.1 h
  exact joinNodes_eq_ok.2 ⟨hmemory, hlt, insertEdge_withId g id s t⟩

theorem connect_withId {id : Nat} {source : Nat × Nat}
    (h : connect p table g source = .ok g') :
    connect p table (g.withId id) source = .ok (g'.withId id) := by
  simp only [connect, bind_eq_ok] at h ⊢
  obtain ⟨objects, hobjects, targets, htargets, h⟩ := h
  exact ⟨objects, hobjects, targets, htargets, foldlM_commute (withId · id) joinNodes_withId h⟩

/-- The identity of a graph plays no part in its making. -/
theorem ofPool_withId {id : Nat} (id' : Nat) (h : ofPool id p program = .ok g) :
    ofPool id' p program = .ok (g.withId id') := by
  simp only [ofPool, bind_eq_ok, Prod.exists] at h ⊢
  obtain ⟨g₁, table, hobjects, g₂, registers, hvalues, hconnected⟩ := h
  refine ⟨g₁.withId id', table, ?_, g₂.withId id', registers, ?_, ?_⟩
  · exact foldlM_commute (fun s => (s.1.withId id', s.2)) addObject_withId hobjects
  · exact foldlM_commute (fun s => (s.1.withId id', s.2)) addValue_withId hvalues
  · exact foldlM_commute (withId · id') connect_withId hconnected

/-- **The graph of a pool is its portrait.**  If only the two built-in entities are sentinels,
what is pointed to is memory and the registers belong to values of the program, the graph is
built and has the nodes and the edges that the pool gives it, and no others.  Values that share
a register, and entities that share a class, have the same targets.  Whatever pool looks the
same has the same graph, up to its identity, with the same texts and counts. -/
theorem ofPool_portrays (id : Nat) (hp : p.Founded)
    (hsentinels : ∀ e < p.size, (p.kindOf e).isSentinel = true →
      e = Pool.unknown ∨ e = Pool.external)
    (hpoints : ∀ e, ∀ x ∈ p.pointsTo e, p.IsObject x)
    (hknown : ∀ v e, p.register? v = some e → v < program.values.size) :
    ∃ g, ofPool id p program = .ok g ∧ g.Portrays p program ∧
      (∀ n m a b, p.nodeEntities[n]? = some a → p.nodeEntities[m]? = some b →
        p.rootOf a = p.rootOf b → g.targetsOf n = g.targetsOf m) ∧
      (∀ v w r s, p.register? v = p.register? w → g.register? v = some r →
        g.register? w = some s →
        g.targetsOf r = g.targetsOf s) ∧
      ∀ id' q, Pool.Founded q → p.SameView q → ∃ g', ofPool id' q program = .ok g' ∧
        g' = g.withId id' ∧ g'.dot = g.dot ∧ g'.stats = g.stats ∧ g'.summary = g.summary := by
  have hguarded := hp.guarded hsentinels
  obtain ⟨g, hok⟩ := ofPool_ok id hguarded hp.toLegible (fun hv => hknown _ _ hv) hpoints
  obtain ⟨g₁, table, g₂, registers, hbuilt⟩ := exists_built hguarded hok
  have hportrays := hbuilt.portrays hp hguarded.two_le
  refine ⟨g, hok, hportrays, fun n m a b => hportrays.targetsOf_eq, ?_, ?_⟩
  · intro v w r s hvw hr hs
    obtain ⟨a, ha, hra⟩ := hportrays.entity_of_register hr
    obtain ⟨b, hb, hsb⟩ := hportrays.entity_of_register hs
    have hab : a = b := Option.some_injective _ (ha.symm.trans (hvw.trans hb))
    exact hportrays.targetsOf_eq hra hsb (congrArg p.rootOf hab)
  · intro id' q hq hview
    refine ⟨g.withId id', ?_, rfl, rfl, rfl, rfl⟩
    rw [ofPool_congr id' hguarded hp.toLegible hq.toLegible hview]
    exact ofPool_withId id' hok

/-- Two registers are merged, and so are the two objects that they point to.  Two more
values share the registers. -/
def mergedActions : List Pool.Action :=
  [.createRegister 0 "x", .createRegister 1 "y",
    .create .allocaObject "alloca:x" (.operation 0), .create .heapObject "malloc:h" .synthetic,
    .shareRegister 3 ⟨0, 2⟩, .shareRegister 2 ⟨0, 3⟩, .addPointee ⟨0, 2⟩ ⟨0, 4⟩,
    .addPointee ⟨0, 3⟩ ⟨0, 5⟩, .unify ⟨0, 2⟩ ⟨0, 3⟩, .unify ⟨0, 4⟩ ⟨0, 5⟩,
    .addPointee ⟨0, 4⟩ ⟨0, 1⟩]

/-- The same sets without merging, the registers shared in another order. -/
def spreadActions : List Pool.Action :=
  [.createRegister 0 "x", .createRegister 1 "y",
    .create .allocaObject "alloca:x" (.operation 0), .create .heapObject "malloc:h" .synthetic,
    .shareRegister 2 ⟨0, 3⟩, .shareRegister 3 ⟨0, 2⟩, .addPointee ⟨0, 2⟩ ⟨0, 5⟩,
    .addPointee ⟨0, 2⟩ ⟨0, 4⟩, .addSuperset ⟨0, 3⟩ ⟨0, 2⟩, .addPointee ⟨0, 5⟩ ⟨0, 1⟩,
    .addSuperset ⟨0, 4⟩ ⟨0, 5⟩]

/-- Four addresses. -/
def fourValues : Program :=
  ⟨#[⟨0, "x", .pointer, .output 0 0⟩, ⟨1, "y", .pointer, .output 1 0⟩,
    ⟨2, "y+1", .pointer, .output 2 0⟩, ⟨3, "x+1", .pointer, .output 3 0⟩], #[], #[], [], #[]⟩

theorem ofPool_portrays_mergedActions : ∃ p q g, (Pool.new 0 none).run mergedActions = .ok p ∧
    (Pool.new 0 none).run spreadActions = .ok q ∧ p.rootCount = 4 ∧ q.rootCount = 6 ∧
    ofPool 0 p fourValues = .ok g ∧ g.Portrays p fourValues ∧
    ofPool 1 q fourValues = .ok (g.withId 1) ∧ (g.withId 1).dot = g.dot := by
  have hrun : (do
      let p ← ((Pool.new 0 none).run mergedActions).toOption
      let q ← ((Pool.new 0 none).run spreadActions).toOption
      some (decide (p.rootCount = 4) && decide (q.rootCount = 6) &&
        decide (∀ e < p.size, (p.kindOf e).isSentinel = true →
          e = Pool.unknown ∨ e = Pool.external) &&
        decide (∀ x ∈ p.registers, x.1 < fourValues.values.size) &&
        decide (q.cells.toList.map Pool.Cell.head = p.cells.toList.map Pool.Cell.head) &&
        decide (q.registers.Perm p.registers) &&
        decide (∀ e < p.size, q.pointsTo e = p.pointsTo e))) = some true := by decide +kernel
  simp only [Option.bind_eq_bind, Option.bind_eq_some_iff, toOption_eq_some, Option.some.injEq,
    Bool.and_eq_true, decide_eq_true_eq] at hrun
  obtain ⟨p, hp, q, hq, ⟨⟨⟨⟨⟨hcount, hcount'⟩, hsentinels⟩, hknown⟩, hheads⟩, hperm⟩,
    hpoints⟩ := hrun
  have hfounded := Pool.founded_of_run hp
  have hfounded' := Pool.founded_of_run hq
  have hview :=
    Pool.sameView_of_lists hfounded.distinct hfounded'.distinct hheads hperm hpoints
  obtain ⟨g, hok, hportrays, -, -, hsame⟩ := ofPool_portrays 0 hfounded hsentinels
    (fun e x hx => (Pool.run_new hp).1.objects hx) (fun v e hv => hknown _ (mem_of_lookup hv))
  obtain ⟨g', hok', rfl, hdot, -⟩ := hsame 1 q hfounded' hview
  exact ⟨p, q, g, hp, hq, hcount, hcount', hok, hportrays, hok', hdot⟩

end Graph
end PointerChannels
