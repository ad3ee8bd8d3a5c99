import PointerChannels.Proofs.Encoding.Reach
import PointerChannels.Proofs.Encoding.Written

/-!
# Channels of operations

A graph that serves a program lets every look-up of the encoding succeed.  Here is what they
find: an address always has a channel, and the channels of a call apart from its callees are
none exactly for an idle call.

## Main statements

* `View.access_ok` — a memory operation other than a call touches a channel.
* `View.call_ok` — the callees and the channels of a call.
-/

namespace PointerChannels

/-! ## Policies -/

theorem Graph.mem_memoryNodes {g : Graph} {n : Nat} : n ∈ g.memoryNodes ↔ g.IsMemory n := by
  rw [memoryNodes, List.mem_filter, dumpOrder, List.mem_flatMap, Option.any_eq_true]
  constructor
  · rintro ⟨-, kind, hkind, hmemory⟩
    exact ⟨kind, hkind, hmemory⟩
  · rintro ⟨kind, hkind, hmemory⟩
    exact ⟨⟨kind, by cases kind <;> decide, mem_nodesOfKind.2 hkind⟩, kind, hkind, hmemory⟩

namespace Channel

theorem Numbering.ordinal_ok {g : Graph} {n : Nat} (h : g.IsMemory n) :
    ∃ i, (Numbering.of g).ordinal n = .ok i := by
  have hmem : n ∈ (Numbering.of g).nodes := Graph.mem_memoryNodes.2 h
  rw [ordinal]
  split
  · exact ⟨_, rfl⟩
  · next hnone => exact absurd hmem (List.idxOf?_eq_none_iff.1 hnone)

/-- The number of a node is its place. -/
theorem Numbering.getElem?_ordinal {numbering : Numbering} {n i : Nat}
    (h : numbering.ordinal n = .ok i) : numbering.nodes[i]? = some n := by
  unfold ordinal at h
  split at h
  · next j hj =>
      obtain rfl := Except.ok.inj h
      obtain ⟨hlt, hget, -⟩ := List.idxOf?_eq_some_iff.1 hj
      rw [List.getElem?_eq_getElem hlt, hget]
  · exact absurd h (by simp)

theorem Numbering.ordinal_lt {numbering : Numbering} {n i : Nat}
    (h : numbering.ordinal n = .ok i) : i < numbering.nodes.length :=
  (List.getElem?_eq_some_iff.1 (getElem?_ordinal h)).1

/-- Every memory node has a channel. -/
theorem Policy.channelOf_ok {kind : PolicyKind} {g : Graph} {limit : Nat} {policy : Policy}
    (h : create kind g limit = .ok policy) {n : Nat} (hn : g.IsMemory n) :
    ∃ channel, policy.channelOf n = .ok channel := by
  obtain ⟨i, hi⟩ := Numbering.ordinal_ok hn
  cases kind with
  | single =>
      obtain rfl := Except.ok.inj h
      exact ⟨0, rfl⟩
  | perObject =>
      obtain rfl := Except.ok.inj h
      exact ⟨i, hi⟩
  | bounded =>
      unfold create at h
      split_ifs at h
      obtain rfl := Except.ok.inj h
      exact ⟨i % limit, by rw [channelOf, hi]; rfl⟩

/-- Channels are numbered below their count. -/
theorem Policy.channelOf_lt {kind : PolicyKind} {g : Graph} {limit : Nat} {policy : Policy}
    (h : create kind g limit = .ok policy) {n : Nat} {x : Channel}
    (hx : policy.channelOf n = .ok x) : x < policy.channelCount := by
  cases kind with
  | single =>
      obtain rfl := Except.ok.inj h
      obtain rfl := Except.ok.inj hx
      exact Nat.one_pos
  | perObject =>
      obtain rfl := Except.ok.inj h
      exact Numbering.ordinal_lt hx
  | bounded =>
      unfold create at h
      split_ifs at h with hzero
      obtain rfl := Except.ok.inj h
      obtain ⟨i, hi, rfl⟩ := map_eq_ok.1 hx
      have hlt : i % limit < limit := Nat.mod_lt i (Nat.pos_of_ne_zero hzero)
      have hle : i % limit ≤ i := Nat.mod_le i limit
      exact Nat.lt_min.2 ⟨Nat.lt_of_le_of_lt hle (Numbering.ordinal_lt hi), hlt⟩

/-- With a channel per object, a channel is that of one node. -/
theorem Policy.channelOf_inj {g : Graph} {limit : Nat} {policy : Policy}
    (h : create .perObject g limit = .ok policy) {m n : Nat} {x : Channel}
    (hm : policy.channelOf m = .ok x) (hn : policy.channelOf n = .ok x) : m = n := by
  obtain rfl := Except.ok.inj h
  have hm := Numbering.getElem?_ordinal hm
  have hn := Numbering.getElem?_ordinal hn
  exact Option.some_injective _ (hm.symm.trans hn)

end Channel

namespace Encoding

/-- A view in which the encoding of a program finds all it looks up. -/
structure View.Ready (v : View) (program : Program) : Prop where
  serves : v.graph.Serves program
  channel : ∀ {n}, v.graph.IsMemory n → ∃ channel, v.policy.channelOf n = .ok channel

namespace View

variable {v : View} {program : Program} {value : ValueId} {r : Nat}

theorem register_ok (h : v.graph.register? value = some r) : v.register value = .ok r := by
  rw [register, h]

theorem register_eq_ok : v.register value = .ok r ↔ v.graph.register? value = some r := by
  refine ⟨fun h => ?_, register_ok⟩
  unfold register at h
  split at h
  · next hr => rw [hr, Except.ok.inj h]
  · exact absurd h (by simp)

theorem mem_targets_value {n : Nat} (h : v.graph.register? value = some r) :
    n ∈ v.graph.targets.value value ↔ n ∈ v.graph.targetsOf r := by
  constructor
  · rintro ⟨r', hr', hn⟩
    obtain rfl := Option.some_injective _ (h.symm.trans hr')
    exact hn
  · exact fun hn => ⟨r, h, hn⟩

theorem mem_channels {nodes : List Nat} {found : IndexSet} {x : Channel}
    (h : v.channels nodes = .ok found) :
    x ∈ found ↔ ∃ n ∈ nodes, v.policy.channelOf n = .ok x := by
  obtain ⟨channels, hchannels, h⟩ := bind_eq_ok.1 h
  obtain rfl := pure_eq_ok.1 h
  rw [IndexSet.mem_ofList, mem_of_mapM hchannels]

namespace Ready

/-! ## Channels of nodes -/

/-- Memory nodes have the channels that the policy gives them, so none
only if there are none. -/
theorem channels_ok (hv : v.Ready program) (nodes : List Nat)
    (h : ∀ n ∈ nodes, v.graph.IsMemory n) : ∃ found, v.channels nodes = .ok found ∧
      (∀ x, x ∈ found ↔ ∃ n ∈ nodes, v.policy.channelOf n = .ok x) ∧
      ((∃ x, x ∈ found) ↔ ∃ n, n ∈ nodes) := by
  obtain ⟨found, hfound⟩ := mapM_ok fun n hn => hv.channel (h n hn)
  have hok : v.channels nodes = .ok (.ofList found) := by rw [channels, hfound]; rfl
  have hmem : ∀ x, x ∈ IndexSet.ofList found ↔ ∃ n ∈ nodes, v.policy.channelOf n = .ok x :=
    fun _ => mem_channels hok
  refine ⟨.ofList found, hok, hmem, ?_⟩
  constructor
  · rintro ⟨x, hx⟩
    obtain ⟨n, hn, -⟩ := (hmem x).1 hx
    exact ⟨n, hn⟩
  · rintro ⟨n, hn⟩
    obtain ⟨x, hx⟩ := hv.channel (h n hn)
    exact ⟨x, (hmem x).2 ⟨n, hn, hx⟩⟩

theorem targets_ok (hv : v.Ready program) (h : v.graph.register? value = some r) :
    v.targets value = .ok (v.graph.targetsOf r) :=
  targets_eq_ok.2 ⟨r, register_ok h, hv.serves.register_lt h, rfl⟩

theorem walkFrom_ok (hv : v.Ready program) {start : List Nat}
    (hstart : ∀ n ∈ start, v.graph.IsMemory n) :
    v.graph.walkFrom start = .ok (v.graph.reachableFrom start) :=
  hv.serves.closed.walkFrom_ok fun n hn => (hstart n hn).lt_size

/-- An address always has a channel; that of unknown memory stands in. -/
theorem address_ok (hv : v.Ready program) (h : v.graph.register? value = some r) :
    ∃ found fallbacks, v.address value = .ok (found, fallbacks) ∧ ∃ x, x ∈ found := by
  simp only [address, hv.targets_ok h, bind, Except.bind]
  split
  · obtain ⟨found, hfound, -, hsome⟩ := hv.channels_ok [Graph.unknown] (by
      simpa using hv.serves.unknown)
    exact ⟨found, 1, by rw [hfound]; rfl, hsome.2 ⟨Graph.unknown, by simp⟩⟩
  · next hempty =>
      obtain ⟨found, hfound, -, hsome⟩ := hv.channels_ok _ fun n hn => hv.serves.pointed hn
      refine ⟨found, 0, by rw [hfound]; rfl, hsome.2 ?_⟩
      simpa [IndexSet.isEmpty_iff] using hempty

theorem isMemory_of_reachableFrom (hv : v.Ready program) {start : List Nat}
    (hstart : ∀ n ∈ start, v.graph.IsMemory n) {n : Nat} :
    n ∈ v.graph.reachableFrom start → v.graph.IsMemory n := by
  rw [Graph.reachableFrom, mem_visit_iff (fun x hx => (hstart x hx).lt_size) hv.serves.closed]
  rintro ⟨x, hx, hpath⟩
  cases hpath with
  | refl => exact hstart n hx
  | tail _ hstep => exact hv.serves.pointed hstep

theorem exists_reachableFrom (hv : v.Ready program) {start : List Nat}
    (hstart : ∀ n ∈ start, v.graph.IsMemory n) :
    (∃ n, n ∈ v.graph.reachableFrom start) ↔ ∃ n, n ∈ start := by
  simp only [Graph.reachableFrom,
    mem_visit_iff (fun x hx => (hstart x hx).lt_size) hv.serves.closed]
  constructor
  · rintro ⟨-, n, hn, -⟩
    exact ⟨n, hn⟩
  · rintro ⟨n, hn⟩
    exact ⟨n, n, hn, .refl⟩

/-- An address leads to no channel exactly if it refers to nothing. -/
theorem reachable_ok (hv : v.Ready program) (h : v.graph.register? value = some r) :
    ∃ found, v.reachable value = .ok found ∧
      ((∃ x, x ∈ found) ↔ (v.graph.targets.value value).Nonempty) := by
  have hstart : ∀ n ∈ (v.graph.targetsOf r).toList, v.graph.IsMemory n :=
    fun n hn => hv.serves.pointed hn
  obtain ⟨found, hfound, -, hsome⟩ :=
    hv.channels_ok _ fun n => hv.isMemory_of_reachableFrom hstart
  refine ⟨found, ?_, ?_⟩
  · simp only [reachable, hv.targets_ok h, hv.walkFrom_ok hstart, bind, Except.bind]
    exact hfound
  rw [hsome, hv.exists_reachableFrom hstart]
  exact exists_congr fun n => (mem_targets_value h).symm

/-- Code outside always touches a channel. -/
theorem outside_ok (hv : v.Ready program) :
    ∃ found, v.outside = .ok found ∧ ∃ x, x ∈ found := by
  have hmemory : ∀ n ∈ Graph.unknown :: Graph.external :: v.graph.escaped.toList,
      v.graph.IsMemory n := by
    intro n hn
    rcases List.mem_cons.1 hn with rfl | hn
    · exact hv.serves.unknown
    rcases List.mem_cons.1 hn with rfl | hn
    · exact hv.serves.external
    rw [IndexSet.mem_toList, Graph.escaped, IndexSet.mem_ofList, List.mem_filter] at hn
    exact hv.isMemory_of_reachableFrom (fun n hn => hv.serves.pointed hn) hn.1
  have hwalk := hv.walkFrom_ok (List.forall_mem_singleton.2 hv.serves.external)
  obtain ⟨found, hfound, -, hsome⟩ := hv.channels_ok _ hmemory
  refine ⟨found, ?_, hsome.2 ⟨Graph.unknown, by simp⟩⟩
  simp only [outside, hwalk, bind, Except.bind]
  exact hfound

/-! ## Operations -/

/-- **A memory operation other than a call touches a channel.** -/
theorem access_ok (hv : v.Ready program) {op : Operation} (hop : op ∈ program.operations)
    (hmemory : op.kind.touchesMemory = true) (hcall : op.kind ≠ .call) :
    ∃ a, v.access op = .ok a ∧ a.operation = op.id ∧ ∃ x, x ∈ a.uses.union a.defs := by
  have hserves := hv.serves.operation hop
  unfold Graph.ServesOperation at hserves
  unfold access
  cases hk : op.kind <;> simp only [hk] at hserves hcall hmemory ⊢
  case alloca | malloc =>
    obtain ⟨n, hn, hshows⟩ := hserves
    have hnode : v.graph.IsMemory n := ⟨_, ((hshows n).2 rfl).kindOf?, rfl⟩
    obtain ⟨found, hfound, -, hsome⟩ := hv.channels_ok [n] (List.forall_mem_singleton.2 hnode)
    obtain ⟨x, hx⟩ := hsome.2 ⟨n, by simp⟩
    refine ⟨⟨op.id, .empty, found, 0⟩, ?_, rfl, x, IndexSet.mem_union.2 (.inr hx)⟩
    simp only [allocation, hn, hfound]
    rfl
  case load =>
    obtain ⟨address, r, haddress, hr⟩ := hserves
    obtain ⟨found, fallbacks, hfound, x, hx⟩ := hv.address_ok hr
    refine ⟨⟨op.id, found, .empty, fallbacks⟩, ?_, rfl, x, IndexSet.mem_union.2 (.inl hx)⟩
    simp only [operandAt_eq_ok.2 haddress, hfound, bind, Except.bind]
    rfl
  case store | free =>
    obtain ⟨address, r, haddress, hr⟩ := hserves
    obtain ⟨found, fallbacks, hfound, x, hx⟩ := hv.address_ok hr
    refine ⟨⟨op.id, found, found, fallbacks⟩, ?_, rfl, x, IndexSet.mem_union.2 (.inl hx)⟩
    simp only [operandAt_eq_ok.2 haddress, hfound, bind, Except.bind]
    rfl
  case memcpy =>
    obtain ⟨target, source, r, s, htarget, hr, hsource, hs⟩ := hserves
    obtain ⟨into, first, hinto, x, hx⟩ := hv.address_ok hr
    obtain ⟨taken, second, htaken, -⟩ := hv.address_ok hs
    refine ⟨⟨op.id, taken.union into, into, first + second⟩, ?_, rfl, x,
      IndexSet.mem_union.2 (.inr hx)⟩
    simp only [operandAt_eq_ok.2 htarget, operandAt_eq_ok.2 hsource, hinto, htaken, bind,
      Except.bind]
    rfl
  all_goals simp_all [Operation.Kind.touchesMemory]

end Ready

/-! ## Calls -/

/-- A target is a function exactly if its node shows one. -/
theorem function?_eq_some {n : Nat} {f : FunctionId} :
    v.function? n = some f ↔ v.graph.Shows n .allocator (.function f) := by
  unfold function? Graph.Shows
  split
  · next heq => simp [heq]
  · next hne =>
      constructor
      · intro h
        exact absurd h (by simp)
      · intro h
        obtain ⟨⟨kind, label, origin, targets, sources⟩, hx, heq⟩ := Option.map_eq_some_iff.1 h
        obtain ⟨rfl, rfl⟩ := Prod.mk.inj heq
        exact absurd hx (hne label f targets sources)

/-- A call is widened unless it has targets and all of them are functions. -/
theorem widened_iff_function? (h : v.graph.register? value = some r) :
    ((v.graph.targetsOf r).toList.isEmpty || decide (((v.graph.targetsOf r).toList.filterMap
      v.function?).length < (v.graph.targetsOf r).toList.length)) = true ↔
      ¬ ((v.graph.targets.value value).Nonempty ∧
        ∀ n ∈ v.graph.targets.value value, ∃ f, v.function? n = some f) := by
  rw [Bool.or_eq_true, decide_eq_true_iff, List.length_filterMap_lt_length_iff_exists,
    List.isEmpty_iff, List.eq_nil_iff_forall_not_mem, not_and_or, Set.Nonempty]
  simp only [mem_targets_value h, IndexSet.mem_toList, not_exists, not_forall, exists_prop,
    Option.eq_none_iff_forall_ne_some, ne_eq]

namespace Ready

theorem exists_function? (hv : v.Ready program) {n : Nat} :
    (∃ f, v.function? n = some f) ↔ v.graph.kindOf? n = some .allocator := by
  constructor
  · rintro ⟨f, hf⟩
    exact (function?_eq_some.1 hf).kindOf?
  · intro hn
    obtain ⟨f, -, hshows, -⟩ := hv.serves.function hn
    exact ⟨f.id, function?_eq_some.2 hshows⟩

/-- A target is a function exactly if it is the function's node. -/
theorem function?_eq_id (hv : v.Ready program) {f : FunctionDef}
    (hf : f ∈ program.functions.toList) {n : Nat} :
    v.function? n = some f.id ↔ v.graph.memoryNode? (.function f.id) = some n := by
  rw [function?_eq_some]
  constructor
  · intro hshows
    obtain ⟨f', -, hshows', hnode⟩ := hv.serves.function hshows.kindOf?
    have heq := Option.some_injective _ (hshows.symm.trans hshows')
    rwa [← (Origin.function.inj (Prod.mk.inj heq).2)] at hnode
  · exact hv.serves.found hf

/-- Several values lead to no channel exactly if none of their addresses refers to anything. -/
theorem reachableAll_ok (hv : v.Ready program) {values : List ValueId}
    (h : ∀ w ∈ values, v.graph.Knows program w) :
    ∃ found, v.reachableAll program values = .ok found ∧
      ((∃ x, x ∈ found) ↔
        ∃ w ∈ values, program.IsPointer w ∧ (v.graph.targets.value w).Nonempty) := by
  have hfold := foldlM_ok (l := values) (s := IndexSet.empty)
    (f := fun channels value => do
      let found ← program.value value
      if found.isPointer then
        return channels.union (← v.reachable value)
      else
        return channels)
    (G := fun s => (∃ x, x ∈ s) →
      ∃ w ∈ values, program.IsPointer w ∧ (v.graph.targets.value w).Nonempty)
    (R := fun s t => ∀ x, x ∈ s → x ∈ t)
    (D := fun w t => program.IsPointer w → (v.graph.targets.value w).Nonempty → ∃ x, x ∈ t)
    (fun _ _ hx => hx) (fun hst htu x hx => htu x (hst x hx))
    (fun hdone hst hpointer hsome => (hdone hpointer hsome).imp hst) ?_ (by simp)
  · obtain ⟨found, hfound, hupper, -, hlower⟩ := hfold
    refine ⟨found, hfound, hupper, ?_⟩
    rintro ⟨w, hw, hpointer, hsome⟩
    exact hlower w hw hpointer hsome
  · intro s w hw hs
    rcases h w hw with ⟨hpointer, r, hr⟩ | hscalar
    · obtain ⟨found, hfound, hsome⟩ := hv.reachable_ok hr
      obtain ⟨y, hy, hp⟩ := Option.map_eq_some_iff.1 hpointer
      refine ⟨s.union found, ?_, ?_, ?_, ?_⟩
      · simp only [Program.value, entryAt_eq_ok.2 hy, bind, Except.bind, hp, hfound]
        rfl
      · rintro ⟨x, hx⟩
        rcases IndexSet.mem_union.1 hx with hx | hx
        · exact hs ⟨x, hx⟩
        · exact ⟨w, hw, hpointer, hsome.1 ⟨x, hx⟩⟩
      · exact fun x hx => IndexSet.mem_union.2 (.inl hx)
      · intro _ htargets
        obtain ⟨x, hx⟩ := hsome.2 htargets
        exact ⟨x, IndexSet.mem_union.2 (.inr hx)⟩
    · obtain ⟨y, hy, hp⟩ := Option.map_eq_some_iff.1 hscalar
      refine ⟨s, ?_, hs, fun x hx => hx, fun hpointer => absurd hscalar hpointer.not_isScalar⟩
      simp only [Program.value, entryAt_eq_ok.2 hy, bind, Except.bind, hp]
      rfl

theorem widened_iff (hv : v.Ready program) (h : v.graph.register? value = some r) :
    ((v.graph.targetsOf r).toList.isEmpty || decide (((v.graph.targetsOf r).toList.filterMap
      v.function?).length < (v.graph.targetsOf r).toList.length)) = true ↔
      ¬ ((v.graph.targets.value value).Nonempty ∧
        ∀ n ∈ v.graph.targets.value value, v.graph.kindOf? n = some .allocator) := by
  simp only [widened_iff_function? h, hv.exists_function?]

theorem mem_callees (hv : v.Ready program) {op : Operation} (hcallee : op.callee? = some value)
    (h : v.graph.register? value = some r) {id : FunctionId} :
    id ∈ (v.graph.targetsOf r).toList.filterMap v.function? ↔
      ∃ f ∈ program.functions.toList, f.id = id ∧ v.graph.Calls op f := by
  rw [List.mem_filterMap]
  constructor
  · rintro ⟨n, hn, hid⟩
    obtain ⟨f, hf, hshows, hnode⟩ := hv.serves.function (hv.exists_function?.1 ⟨id, hid⟩)
    obtain rfl := Option.some_injective _ ((function?_eq_some.2 hshows).symm.trans hid)
    exact ⟨f, hf, rfl, value, n, hcallee, (mem_targets_value h).2 hn, hnode⟩
  · rintro ⟨f, hf, rfl, callee, n, hcallee', hn, hnode⟩
    obtain rfl := Option.some_injective _ (hcallee.symm.trans hcallee')
    exact ⟨n, (mem_targets_value h).1 hn, (hv.function?_eq_id hf).2 hnode⟩

/-- **The callees of a call are the functions it may call, and it has no channels apart from
theirs exactly if it is idle.** -/
theorem call_ok (hv : v.Ready program) {op : Operation} (hop : op ∈ program.operations)
    (hcall : op.kind = .call) (caller : FunctionId) : ∃ c, v.call program caller op = .ok c ∧
      c.operation = op.id ∧ c.caller = caller ∧
      (∀ id, id ∈ c.callees ↔ ∃ f ∈ program.functions.toList, f.id = id ∧ v.graph.Calls op f) ∧
      ((∃ x, x ∈ c.locals) ↔ ¬ program.Idle v.graph op) := by
  have hserves := hv.serves.operation hop
  simp only [Graph.ServesOperation, hcall] at hserves
  obtain ⟨callee, r, hcallee, hr, hknown⟩ := hserves
  obtain ⟨passed, hpassed, hsome⟩ := hv.reachableAll_ok hknown
  have hidle : program.Idle v.graph op ↔ ((v.graph.targets.value callee).Nonempty ∧
      ∀ n ∈ v.graph.targets.value callee, v.graph.kindOf? n = some .allocator) ∧
      ¬ ∃ x, x ∈ passed := by
    rw [hsome]
    constructor
    · rintro ⟨⟨callee', hcallee', hknown⟩, hdangling⟩
      obtain rfl := Option.some_injective _ (hcallee.symm.trans hcallee')
      refine ⟨hknown, ?_⟩
      rintro ⟨w, hw, hpointer, htargets⟩
      exact htargets.ne_empty (hdangling w hw hpointer)
    · rintro ⟨hknown, hnone⟩
      refine ⟨⟨callee, hcallee, hknown⟩, fun w hw hpointer => ?_⟩
      by_contra htargets
      exact hnone ⟨w, hw, hpointer, Set.nonempty_iff_ne_empty.2 htargets⟩
  have hwidened := hv.widened_iff hr
  have hchecks : (v.graph.targetsOf r).toList.forM (checkIndex v.graph.nodes) = .ok () :=
    forM_eq_ok.2 fun n hn => checkIndex_of_lt (hv.serves.closed r n hn)
  simp only [call, hcallee, hv.targets_ok hr, hchecks, hpassed, bind, Except.bind]
  split
  · next hwide =>
      obtain ⟨found, hfound, x, hx⟩ := hv.outside_ok
      refine ⟨⟨op.id, caller, _, _, passed.union found⟩, by rw [hfound]; rfl, rfl, rfl,
        fun id => hv.mem_callees hcallee hr, ?_⟩
      simp only [hidle, hwidened.1 hwide, false_and, not_false_eq_true, iff_true]
      exact ⟨x, IndexSet.mem_union.2 (.inr hx)⟩
  · next hwide =>
      refine ⟨⟨op.id, caller, _, _, passed⟩, rfl, rfl, rfl,
        fun id => hv.mem_callees hcallee hr, ?_⟩
      rw [hidle, and_iff_right (not_not.1 fun h => hwide (hwidened.2 h)), not_not]

end Ready
end View
end Encoding
end PointerChannels
