import PointerChannels.Proofs.Graph.OfPool

/-!
# The graph of a pool is always built

Building the graph of a solved pool never fails: entities that get a memory node have a kind of
memory node, every value is given one register node, and whatever is pointed to is an object,
which has a memory node.

## Main definitions

* `Pool.Legible` — what a graph needs of a pool's classes and registers.

## Main statements

* `Graph.ofPool_ok` — the graph of a pool whose registers belong to values of the program.
-/

namespace PointerChannels

/-- A pool that a graph can be made of: every entity has a root, and registers are entities. -/
structure Pool.Legible (p : Pool) : Prop where
  forest : p.Forest
  register_lt : ∀ {v e}, p.register? v = some e → e < p.size

namespace Graph

variable {g : Graph} {p : Pool} {program : Program}

/-- Nodes that entities get are made on request. -/
theorem Kind.allocatable_of_ofEntity? {kind : Entity.Kind} {k : Kind}
    (h : Kind.ofEntity? kind = some k) : (k.isMemoryObject && !k.isSentinel) = true := by
  cases kind <;> simp only [Kind.ofEntity?, Option.some.injEq, reduceCtorEq] at h <;>
    subst h <;> rfl

theorem addObject_ok (state : Graph × List (Nat × Nat)) (entry : Pool.Cell × Nat) :
    ∃ state', addObject state entry = .ok state' := by
  unfold addObject
  split
  · exact ⟨_, rfl⟩
  · next kind hkind =>
      rw [addMemory, if_pos (Kind.allocatable_of_ofEntity? hkind)]
      exact ⟨_, rfl⟩

theorem addRegister_ok {v : ValueId} (label : String) (h : g.register? v = none) :
    ∃ n g', g.addRegister v label = .ok (n, g') := by
  rw [addRegister, h]
  exact ⟨_, _, rfl⟩

theorem register?_of_addRegister {v w : ValueId} {label : String} {n : Nat} {g' : Graph}
    (h : g.addRegister v label = .ok (n, g')) (hw : g.register? w = none) (hne : w ≠ v) :
    g'.register? w = none := by
  obtain ⟨rfl, rfl⟩ := addRegister_eq_ok h
  have hlookup : g.registers.lookup w = none := hw
  rw [register?, List.lookup_append, hlookup]
  simp [hne]

/-- Values that exist and have no register node yet are given one each. -/
theorem addRegisters_ok {registers : List (ValueId × Nat)} (hnone : g.registers = [])
    (hknown : ∀ entry ∈ registers, entry.1 < program.values.size)
    (hdistinct : (registers.map Prod.fst).Nodup) :
    ∃ added, addRegisters program g registers = .ok added := by
  -- the values still to come have no register node
  have hgo : ∀ {rest : List (ValueId × Nat)} {s : Graph × List (Nat × Nat)},
      (∀ entry ∈ rest, entry.1 < program.values.size) → (rest.map Prod.fst).Nodup →
      (∀ entry ∈ rest, s.1.register? entry.1 = none) →
      ∃ added, rest.foldlM (addValue program) s = .ok added := by
    intro rest
    induction rest with
    | nil => exact fun _ _ _ => ⟨_, rfl⟩
    | cons entry rest ih =>
        intro s hknown hdistinct hfree
        obtain ⟨hnew, hdistinct⟩ := List.nodup_cons.1 hdistinct
        obtain ⟨named, hnamed⟩ := Program.exists_value (hknown entry (by simp))
        obtain ⟨n, g', hadd⟩ := addRegister_ok named.name (hfree entry (by simp))
        obtain ⟨added, hrest⟩ := ih (s := (g', s.2 ++ [(n, entry.2)]))
          (fun e he => hknown e (List.mem_cons_of_mem entry he)) hdistinct
          (fun e he => register?_of_addRegister hadd (hfree e (List.mem_cons_of_mem entry he))
            fun heq => hnew (heq ▸ List.mem_map_of_mem he))
        refine ⟨added, ?_⟩
        rw [List.foldlM_cons, addValue_eq_ok.2 ⟨named, n, g', hnamed, hadd, rfl⟩]
        exact hrest
  exact hgo hknown hdistinct fun entry _ => by simp [register?, hnone]

/-- Edges from a node to memory are made. -/
theorem joinNodes_ok {targets : List Nat} {n : Nat} (hn : n < g.size)
    (htargets : ∀ m ∈ targets, g.IsMemory m) :
    ∃ g', targets.foldlM (fun g target => g.joinNodes n target) g = .ok g' ∧
      SameNodes g g' := by
  refine foldlM_total (fun s m hm hs => ?_) (.refl g)
  exact ⟨_, joinNodes_eq_ok.2 ⟨hs.isMemory (htargets m hm), hs.size.symm ▸ hn, rfl⟩,
    hs.trans (sameNodes_insertEdge s n m)⟩

theorem targetNodes_ok {table : List (Nat × Nat)} {objects : IndexSet}
    (h : ∀ x ∈ objects, ∃ m, table.lookup x = some m) :
    ∃ targets, targetNodes table objects = .ok targets := by
  refine Exists.elim (mapM_ok (l := objects.toList) fun x hx => ?_) fun nodes hnodes =>
    ⟨.ofList nodes, bind_eq_ok.2 ⟨nodes, hnodes, rfl⟩⟩
  obtain ⟨m, hm⟩ := h x (IndexSet.mem_toList.1 hx)
  exact ⟨m, by rw [hm]⟩

/-- What a node is connected to is what the class of its entity points to. -/
theorem connect_eq {table : List (Nat × Nat)} {source : Nat × Nat} (hp : p.Forest)
    (hsource : source.2 < p.size) : connect p table g source =
      targetNodes table (p.pointsTo source.2) >>= fun targets =>
        targets.toList.foldlM (fun g target => g.joinNodes source.1 target) g := by
  simp only [connect, Pool.pointsToOf, hp.root_handle hsource, bind, Except.bind]
  rfl

/-- What is pointed to has a memory node. -/
theorem connect_total {table : List (Nat × Nat)} {source : Nat × Nat} (hp : p.Forest)
    (hsource : source.2 < p.size) (hnode : source.1 < g.size)
    (hpoints : ∀ x ∈ p.pointsTo source.2, ∃ m, table.lookup x = some m)
    (htable : ∀ {x m}, table.lookup x = some m → g.IsMemory m) :
    ∃ g', connect p table g source = .ok g' ∧ SameNodes g g' := by
  obtain ⟨targets, htargets⟩ := targetNodes_ok hpoints
  have hmemory : ∀ m ∈ targets.toList, g.IsMemory m := by
    intro m hm
    obtain ⟨x, -, hx⟩ := (mem_targetNodes htargets).1 (IndexSet.mem_toList.1 hm)
    exact htable hx
  obtain ⟨g', hjoin, hsame⟩ := joinNodes_ok hnode hmemory
  exact ⟨g', by rw [connect_eq hp hsource, htargets]; exact hjoin, hsame⟩

/-- Nodes laid for entities stand for memory, also when registers have been listed. -/
theorem Laid.isMemory {g₁ g₂ : Graph} {table registers : List (Nat × Nat)}
    {done : List (ValueId × Nat)} (h : Laid p p.size g₁ table) (hp : p.Guarded)
    (hlisted : Listed g₁ done g₂ registers) {x m : Nat} (hx : table.lookup x = some m) :
    g₂.IsMemory m := by
  have hmem := mem_of_lookup hx
  have hobject := h.isObject hp.two_le hmem
  obtain ⟨origin, hm⟩ := Pool.exists_made hobject.1
  have hshows := (hlisted.shows (h.lt_size hmem)).2 (h.shows hmem hm).2
  exact ⟨_, hshows.kindOf?, by rw [Kind.isMemoryObject_ofEntity]; exact hobject.2⟩

/-- What is connected are entities. -/
theorem entity_lt {g₁ g₂ : Graph} {table registers : List (Nat × Nat)} (hp : p.Guarded)
    (hlegible : p.Legible) (hlaid : Laid p p.size g₁ table)
    (hlisted : Listed g₁ p.registerTable g₂ registers) {source : Nat × Nat}
    (h : source ∈ (p.indices.filterMap fun entity => (table.lookup entity).map (·, entity)) ++
      registers) : source.2 < p.size := by
  rcases (mem_sources hlaid hp.two_le).1 h with hmem | hmem
  · exact (hlaid.isObject hp.two_le hmem).1
  · obtain ⟨v, -, hv⟩ := hlisted.mem_table.1 hmem
    exact hlegible.register_lt (Pool.mem_registerTable.1 (List.mem_of_getElem? hv))

/-- **The graph of a pool is built.** -/
theorem ofPool_ok (id : Nat) (hp : p.Guarded) (hlegible : p.Legible)
    (hknown : ∀ {v e}, p.register? v = some e → v < program.values.size)
    (hpoints : ∀ e, ∀ x ∈ p.pointsTo e, p.IsObject x) : ∃ g, ofPool id p program = .ok g := by
  obtain ⟨⟨g₁, table⟩, hok, -⟩ :=
    foldlM_total (l := p.cells.toList.zipIdx) (G := fun _ => True)
      (fun state entry _ _ => (addObject_ok state entry).imp fun _ h => ⟨h, trivial⟩)
      (s := (new id, [(Pool.unknown, unknown), (Pool.external, external)])) trivial
  have hlaid := laid_of_foldlM hp hok
  obtain ⟨⟨g₂, registers⟩, hadded⟩ := addRegisters_ok hlaid.registers
    (fun entry hentry => hknown (Pool.mem_registerTable.1 hentry)) p.nodup_registerTable
  have hlisted := listed_addRegisters hlaid.blank hlaid.registers hadded
  have hround : ∀ g, ∀ source ∈ (p.indices.filterMap fun entity =>
      (table.lookup entity).map (·, entity)) ++ registers, SameNodes g₂ g →
      ∃ g', connect p table g source = .ok g' ∧ SameNodes g₂ g' := by
    intro g source hsource hsame
    have hentity := entity_lt hp hlegible hlaid hlisted hsource
    have hnode : source.1 < g.size := hsame.size.symm ▸ hlaid.source_lt hp hlisted hsource
    obtain ⟨g', hok', hsame'⟩ := connect_total hlegible.forest hentity hnode
      (fun x hx => ⟨_, hlaid.lookup (hlaid.mem_nodeIn (hpoints source.2 x hx))⟩)
      (fun hx => hsame.isMemory (hlaid.isMemory hp hlisted hx))
    exact ⟨g', hok', hsame.trans hsame'⟩
  obtain ⟨g, hconnected, -⟩ := foldlM_total hround (.refl g₂)
  exact ⟨g, by simp only [ofPool, hok, hadded, bind, Except.bind]; exact hconnected⟩

end Graph
end PointerChannels
