import PointerChannels.Proofs.Generation.Whole
import PointerChannels.Proofs.Graph.OfPool

/-!
# What a program's values and memory may point to

The answer of an analysis is read off its graph as `Targets`: the nodes that each value
and each memory node may point to.  `Targets.Respects` says that targets obey every
rule of a program.  The rules are about the program, its values and the nodes of its
objects, and about nothing else.

## Main definitions

* `Targets.Meets` — targets obey what a program says.
* `Targets.Respects` — targets obey all rules: what the program says, the rules of the
  sentinels, and that functions known outside are called from there.

## Main statements

* `respects_of_solution` — a graph that represents a solution of a program's
  constraints respects the program.
-/

namespace PointerChannels

/-- What values and memory nodes may point to. -/
structure Targets where
  /-- What a value may point to. -/
  value : ValueId → Set Nat
  /-- What a memory node may point to. -/
  memory : Nat → Set Nat

instance : LE Targets := ⟨fun T S => T.value ≤ S.value ∧ T.memory ≤ S.memory⟩

/-- The targets in a graph.  A value without a register node points to nothing. -/
def Graph.targets (g : Graph) : Targets where
  value v := {n | ∃ r, g.register? v = some r ∧ n ∈ g.targetsOf r}
  memory n := {m | (g.kindOf? n).any (·.isMemoryObject) = true ∧ m ∈ g.targetsOf n}

namespace Targets

variable (T : Targets) (program : Program) (g : Graph)

/-- A call is bound to one target of its callee.  If the target is a function, arguments flow
into parameters and returned values into results, position by position; if not, arguments
escape and results are external. -/
structure Binds (arguments results : List ValueId) (target : Nat) : Prop where
  passed : ∀ f ∈ program.functions.toList, g.memoryNode? (.function f.id) = some target →
    ∀ {i : Nat} {v w : ValueId}, arguments[i]? = some v → f.params[i]? = some w →
      program.IsPointer v → program.IsPointer w → T.value v ⊆ T.value w
  returned : ∀ f ∈ program.functions.toList, g.memoryNode? (.function f.id) = some target →
    ∀ {i : Nat} {v w : ValueId}, results[i]? = some v → f.results[i]? = some w →
      program.IsPointer v → program.IsPointer w → T.value w ⊆ T.value v
  escapes : g.kindOf? target ≠ some .allocator → ∀ v ∈ arguments, program.IsPointer v →
    T.value v ⊆ T.memory Graph.external
  external : g.kindOf? target ≠ some .allocator → ∀ v ∈ results, program.IsPointer v →
    T.memory Graph.external ⊆ T.value v

/-- The targets obey a statement of the program.  Functions hold no addresses. -/
def Meets : Fact → Prop
  | .object v kind origin => ∃ node, g.memoryNode? origin = some node ∧
      g.kindOf? node = Graph.Kind.ofEntity? kind ∧ node ∈ T.value v
  | .flow v w => T.value v ⊆ T.value w
  | .load v a => ∀ o ∈ T.value a, g.kindOf? o ≠ some .allocator → T.memory o ⊆ T.value v
  | .store a v => ∀ o ∈ T.value a, g.kindOf? o ≠ some .allocator → T.value v ⊆ T.memory o
  | .copy w v => ∀ o ∈ T.value v, g.kindOf? o ≠ some .allocator →
      ∀ o' ∈ T.value w, g.kindOf? o' ≠ some .allocator → T.memory o ⊆ T.memory o'
  | .call callee arguments results =>
    ∀ o ∈ T.value callee, T.Binds program g arguments results o
  | .external v => T.memory Graph.external ⊆ T.value v
  | .unknown v => T.memory Graph.unknown ⊆ T.value v
  | .escapes v => T.value v ⊆ T.memory Graph.external

/-- A sentinel points to itself, is loaded from and is stored through itself. -/
structure Sentinel (sentinel : Nat) : Prop where
  mem : sentinel ∈ T.memory sentinel
  loads : ∀ o ∈ T.memory sentinel, g.kindOf? o ≠ some .allocator →
    T.memory o ⊆ T.memory sentinel
  stores : ∀ o ∈ T.memory sentinel, g.kindOf? o ≠ some .allocator →
    T.memory sentinel ⊆ T.memory o

/-- The targets obey every rule of the program. -/
structure Respects : Prop where
  facts : ∀ fact, program.Says fact → T.Meets program g fact
  unknown : T.Sentinel g Graph.unknown
  external : T.Sentinel g Graph.external
  called : ∀ f ∈ program.functions.toList, ∀ o, g.memoryNode? (.function f.id) = some o →
    o ∈ T.memory Graph.external → ∀ v ∈ f.params, program.IsPointer v →
      T.memory Graph.external ⊆ T.value v
  answered : ∀ f ∈ program.functions.toList, ∀ o, g.memoryNode? (.function f.id) = some o →
    o ∈ T.memory Graph.external → ∀ v ∈ f.results, program.IsPointer v →
      T.value v ⊆ T.memory Graph.external

end Targets

namespace Graph.Depicts

variable {g : Graph} {p : Pool} {T : Family} {node : Nat → Nat} {v : ValueId} {o n : Nat}

/-- The targets of a value are the nodes of what its register points to. -/
theorem value_eq (h : Depicts g p T node) {r : Handle} (hr : p.RegisterOf v r) :
    g.targets.value v = node '' T r.index := by
  obtain ⟨k, hk, hmem⟩ := h.register hr.1
  ext m
  constructor
  · rintro ⟨k', hk', hm⟩
    obtain rfl := Option.some_injective _ (hk.symm.trans hk')
    exact hmem.1 hm
  · intro hm
    exact ⟨k, hk, hmem.2 hm⟩

theorem kindOf?_eq (h : Depicts g p T node) (ho : p.IsObject o) :
    g.kindOf? (node o) = some (Kind.ofEntity (p.kindOf o)) := by
  obtain ⟨origin, hm⟩ := Pool.exists_made ho.1
  exact (h.shows hm ho.2).kindOf?

theorem closed (h : Depicts g p T node) : g.Closed := by
  intro k m hm
  obtain ⟨x, hx, rfl⟩ := h.pointed hm
  exact lt_size_of_kindOf? (h.kindOf?_eq hx)

/-- The targets of a memory node are the nodes of what its object points to. -/
theorem memory_eq (h : Depicts g p T node) (ho : p.IsObject o) :
    g.targets.memory (node o) = node '' T o := by
  have hkind : (g.kindOf? (node o)).any (·.isMemoryObject) = true := by
    rw [h.kindOf?_eq ho, Option.any_some, Kind.isMemoryObject_ofEntity]
    exact ho.2
  ext m
  constructor
  · rintro ⟨-, hm⟩
    exact (h.targets ho).1 hm
  · intro hm
    exact ⟨hkind, (h.targets ho).2 hm⟩

theorem isFunction_iff (h : Depicts g p T node) (ho : p.IsObject o) :
    g.kindOf? (node o) = some .allocator ↔ p.kindOf o = .functionObject := by
  rw [h.kindOf?_eq ho]
  cases p.kindOf o <;> decide

end Graph.Depicts

/-! ## Solutions respect the program -/

section

variable {program : Program} {d : Generation.Draft} {g : Graph} {T : Family} {node : Nat → Nat}

open Generation

/-- A function is the object of its node, and its object has its signature. -/
theorem function_of_memoryNode? (hg : g.Represents d.pool T node) (hd : Generated program d)
    {f : FunctionDef} (hf : f ∈ program.functions.toList) {o : Nat}
    (ho : d.pool.IsObject o) (hnode : g.memoryNode? (.function f.id) = some (node o)) :
    d.pool.kindOf o = .functionObject ∧
      ∃ signature, d.pool.signature? o = some signature ∧
        d.pool.Signs program f signature := by
  obtain ⟨o', hm, hsigned⟩ := hd.exists_embodies hf
  have heq := Option.some_injective _ (hnode.symm.trans (hg.found hm rfl (by simp)))
  obtain rfl := hg.injective ho ⟨hm.lt_size, by rw [hm.kindOf]; rfl⟩ heq
  exact ⟨hm.kindOf, hsigned⟩

/-- A call is bound to the node of each object that its callee points to. -/
theorem binds_of_solution (hd : Generated program d)
    (hg : g.Represents d.pool T node) {values values' : List ValueId}
    {arguments results : List (Option Handle)}
    (ha : d.pool.RegistersOf program values arguments)
    (hr : d.pool.RegistersOf program values' results) {o : Nat} (ho : d.pool.IsObject o)
    (hbinds : T.Binds ⟨arguments, results⟩ (d.pool.calleeSignature? o)) :
    g.targets.Binds program g values values' (node o) := by
  have hexternal := hg.memory_eq hd.tidy.pool.fresh.external_object
  rw [hg.external] at hexternal
  constructor
  case passed =>
    intro f hf hnode i v w hv hw hpv hpw
    obtain ⟨hk, signature, hs, hsigns⟩ := function_of_memoryNode? hg hd hf ho hnode
    rw [Pool.calleeSignature?, if_pos hk, hs] at hbinds
    obtain ⟨rv, hiv, hrv⟩ := ha.exists_register hv hpv
    obtain ⟨rw, hiw, hrw⟩ := hsigns.1.exists_register hw hpw
    rw [hg.value_eq hrv, hg.value_eq hrw]
    exact Set.image_mono (hbinds.1 i rv rw hiv hiw)
  case returned =>
    intro f hf hnode i v w hv hw hpv hpw
    obtain ⟨hk, signature, hs, hsigns⟩ := function_of_memoryNode? hg hd hf ho hnode
    rw [Pool.calleeSignature?, if_pos hk, hs] at hbinds
    obtain ⟨rv, hiv, hrv⟩ := hr.exists_register hv hpv
    obtain ⟨rw, hiw, hrw⟩ := hsigns.2.exists_register hw hpw
    rw [hg.value_eq hrv, hg.value_eq hrw]
    exact Set.image_mono (hbinds.2 i rv rw hiv hiw)
  all_goals
    intro hnot v hv hpv
    have hk : d.pool.kindOf o ≠ .functionObject := fun hk => hnot ((hg.isFunction_iff ho).2 hk)
    rw [Pool.calleeSignature?, if_neg hk] at hbinds
    obtain ⟨i, hi⟩ := List.mem_iff_getElem?.1 hv
  case escapes =>
    obtain ⟨r, hir, hr⟩ := ha.exists_register hi hpv
    rw [hg.value_eq hr, hexternal]
    exact Set.image_mono (hbinds.1 r (List.mem_of_getElem? hir))
  case external =>
    obtain ⟨r, hir, hr⟩ := hr.exists_register hi hpv
    rw [hg.value_eq hr, hexternal]
    exact Set.image_mono (hbinds.2 r (List.mem_of_getElem? hir))

theorem meets_of_solution (hd : Generated program d)
    (hg : g.Represents d.pool T node) (hT : Solution d.pool d.constraints T)
    (hobject : ∀ e, ∀ o ∈ T e, d.pool.IsObject o) {fact : Fact} (hsay : program.Says fact) :
    g.targets.Meets program g fact := by
  have hunknown := hg.memory_eq hd.tidy.pool.fresh.unknown_object
  rw [hg.unknown] at hunknown
  have hexternal := hg.memory_eq hd.tidy.pool.fresh.external_object
  rw [hg.external] at hexternal
  have hfunction : ∀ {e x}, x ∈ T e → g.kindOf? (node x) ≠ some .allocator →
      d.pool.kindOf x ≠ .functionObject :=
    fun hx hnot hk => hnot ((hg.isFunction_iff (hobject _ _ hx)).2 hk)
  cases hd.covers fact hsay with
  | shared hv hw =>
      show g.targets.value _ ⊆ g.targets.value _
      rw [hg.value_eq hv, hg.value_eq hw]
  | copied hv hw hload hstore =>
      intro o ho hnot o' ho' hnot'
      rw [hg.value_eq hv] at ho
      rw [hg.value_eq hw] at ho'
      obtain ⟨x, hx, rfl⟩ := ho
      obtain ⟨x', hx', rfl⟩ := ho'
      rw [hg.memory_eq (hobject _ _ hx), hg.memory_eq (hobject _ _ hx')]
      exact Set.image_mono ((hT.meets _ hload x hx (hfunction hx hnot)).trans
        (hT.meets _ hstore x' hx' (hfunction hx' hnot')))
  | stated hmem hstates =>
      have hmeets := hT.meets _ hmem
      cases hstates with
      | object hr ho hm hk =>
          obtain ⟨hmemory, hsentinel, horigin⟩ := hsay.object
          refine ⟨_, hg.found hm hk horigin, ?_, ?_⟩
          · rw [(hg.shows hm hk).kindOf?, eq_comm, Graph.Kind.ofEntity?_eq_some]
            exact ⟨rfl, hmemory, hsentinel⟩
          · rw [hg.value_eq hr]
            exact ⟨_, hmeets, rfl⟩
      | flow hv hw =>
          show g.targets.value _ ⊆ g.targets.value _
          rw [hg.value_eq hv, hg.value_eq hw]
          exact Set.image_mono hmeets
      | load hv ha =>
          intro o ho hnot
          rw [hg.value_eq ha] at ho
          obtain ⟨x, hx, rfl⟩ := ho
          rw [hg.memory_eq (hobject _ _ hx), hg.value_eq hv]
          exact Set.image_mono (hmeets x hx (hfunction hx hnot))
      | store ha hv =>
          intro o ho hnot
          rw [hg.value_eq ha] at ho
          obtain ⟨x, hx, rfl⟩ := ho
          rw [hg.memory_eq (hobject _ _ hx), hg.value_eq hv]
          exact Set.image_mono (hmeets x hx (hfunction hx hnot))
      | call hc ha hr =>
          intro o ho
          rw [hg.value_eq hc] at ho
          obtain ⟨x, hx, rfl⟩ := ho
          exact binds_of_solution hd hg ha hr (hobject _ _ hx) (hmeets x hx)
      | external hr =>
          show g.targets.memory _ ⊆ g.targets.value _
          rw [hexternal, hg.value_eq hr]
          exact Set.image_mono hmeets
      | unknown hr =>
          show g.targets.memory _ ⊆ g.targets.value _
          rw [hunknown, hg.value_eq hr]
          exact Set.image_mono hmeets
      | escapes hr =>
          show g.targets.value _ ⊆ g.targets.memory _
          rw [hexternal, hg.value_eq hr]
          exact Set.image_mono hmeets

/-- **A graph that represents a solution of a program's constraints respects the program.** -/
theorem respects_of_solution (hd : Generated program d)
    (hg : g.Represents d.pool T node) (hT : Solution d.pool d.constraints T)
    (hobject : ∀ e, ∀ o ∈ T e, d.pool.IsObject o) : g.targets.Respects program g := by
  have hexternal := hg.memory_eq hd.tidy.pool.fresh.external_object
  rw [hg.external] at hexternal
  have hsentinel : ∀ {s}, d.pool.IsObject s → T.Sentinel d.pool s →
      g.targets.Sentinel g (node s) := by
    intro s hs hT
    have hmemory := hg.memory_eq hs
    refine ⟨hmemory ▸ ⟨s, hT.mem, rfl⟩, ?_, ?_⟩
    all_goals
      intro o ho hnot
      rw [hmemory] at ho ⊢
      obtain ⟨x, hx, rfl⟩ := ho
      have hk : d.pool.kindOf x ≠ .functionObject :=
        fun hk => hnot ((hg.isFunction_iff (hobject _ _ hx)).2 hk)
      rw [hg.memory_eq (hobject _ _ hx)]
    · exact Set.image_mono (hT.loads x hx hk)
    · exact Set.image_mono (hT.stores x hx hk)
  -- a function known outside is exposed
  have hexposed :
      ∀ f ∈ program.functions.toList, ∀ o, g.memoryNode? (.function f.id) = some o →
      o ∈ g.targets.memory Graph.external → ∃ signature, d.pool.Signs program f signature ∧
        T.Exposes signature := by
    intro f hf o hnode ho
    rw [hexternal] at ho
    obtain ⟨x, hx, rfl⟩ := ho
    obtain ⟨hk, signature, hs, hsigns⟩ :=
      function_of_memoryNode? hg hd hf (hobject _ _ hx) hnode
    exact ⟨signature, hsigns, hT.exposes x hx hk signature hs⟩
  refine ⟨fun fact hsay => meets_of_solution hd hg hT hobject hsay,
    hg.unknown ▸ hsentinel hd.tidy.pool.fresh.unknown_object hT.unknown,
    hg.external ▸ hsentinel hd.tidy.pool.fresh.external_object hT.external, ?_, ?_⟩
  · intro f hf o hnode ho v hv hpv
    obtain ⟨signature, hsigns, hexposes⟩ := hexposed f hf o hnode ho
    obtain ⟨i, hi⟩ := List.mem_iff_getElem?.1 hv
    obtain ⟨r, hir, hr⟩ := hsigns.1.exists_register hi hpv
    rw [hexternal, hg.value_eq hr]
    exact Set.image_mono (hexposes.1 r (List.mem_of_getElem? hir))
  · intro f hf o hnode ho v hv hpv
    obtain ⟨signature, hsigns, hexposes⟩ := hexposed f hf o hnode ho
    obtain ⟨i, hi⟩ := List.mem_iff_getElem?.1 hv
    obtain ⟨r, hir, hr⟩ := hsigns.2.exists_register hi hpv
    rw [hexternal, hg.value_eq hr]
    exact Set.image_mono (hexposes.2 r (List.mem_of_getElem? hir))

end

end PointerChannels
