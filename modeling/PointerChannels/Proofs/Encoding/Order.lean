import PointerChannels.Proofs.Encoding.States

/-!
# Channels and memory dependencies

An operation reads and writes nodes of the points-to graph.  Two operations conflict when one
writes a node that the other reads or writes, and must then keep their order.  Channels see to
that: an access uses exactly the channels of the nodes it reads and defines exactly those of
the nodes it writes, so whatever conflicts has a channel in common.  Where every node has its
own channel nothing else is ordered.

## Main definitions

* `Graph.Reads`, `Graph.WritesTo` — the nodes an operation reads and writes.
* `Graph.Conflicts` — one operation writes what another reads or writes.

## Main statements

* `View.Ready.traces_access` — the channels of an access are those of the
  nodes it reads and writes.
* `encode_orders_conflicts` — what conflicts is ordered, and per object nothing else is.
-/

namespace PointerChannels

/-! ## Nodes that operations read and write -/

namespace Graph

variable {g : Graph}

/-- The nodes that an address stands for: its targets, or unknown memory
alone when it has none. -/
def standsFor (g : Graph) (value : ValueId) : Set Nat :=
  {n | n ∈ g.targets.value value ∨ g.targets.value value = ∅ ∧ n = Graph.unknown}

/-- The nodes that an operation reads. -/
def Reads (g : Graph) (op : Operation) (n : Nat) : Prop :=
  match op.kind with
  | .load | .store | .free => ∃ address, op.inputs[0]? = some address ∧ n ∈ g.standsFor address
  | .memcpy => ∃ target source, op.inputs[0]? = some target ∧ op.inputs[1]? = some source ∧
      (n ∈ g.standsFor source ∨ n ∈ g.standsFor target)
  | _ => False

/-- The nodes that an operation writes; an allocation writes the node that was made for it. -/
def WritesTo (g : Graph) (op : Operation) (n : Nat) : Prop :=
  match op.kind with
  | .store | .free => ∃ address, op.inputs[0]? = some address ∧ n ∈ g.standsFor address
  | .memcpy => ∃ target, op.inputs[0]? = some target ∧ n ∈ g.standsFor target
  | .alloca => g.Shows n .alloca (.operation op.id)
  | .malloc => g.Shows n .malloc (.operation op.id)
  | _ => False

/-- The first operation writes a node that the second reads or writes. -/
def Conflicts (g : Graph) (x y : Operation) : Prop :=
  ∃ n, g.WritesTo x n ∧ (g.Reads y n ∨ g.WritesTo y n)

/-- Addresses that may alias have a target in common. -/
theorem mayAlias_iff {a b : ValueId} : g.mayAlias a b = true ↔
    ∃ n, n ∈ g.targets.value a ∧ n ∈ g.targets.value b := by
  simp only [mayAlias, targets, Set.mem_ofPred_eq]
  split
  · next r s hr hs =>
      simp [hr, hs, ← Bool.not_eq_true, IndexSet.disjoint_iff]
  · next hnone =>
      simp only [Bool.false_eq_true, false_iff]
      rintro ⟨n, ⟨r, hr, -⟩, s, hs, -⟩
      exact hnone r s hr hs

/-- A load, a store and a release read what their address refers to. -/
theorem reads_of_address? {op : Operation} {a : ValueId} (h : op.address? = some a) {n : Nat}
    (hn : n ∈ g.targets.value a) : g.Reads op n := by
  unfold Operation.address? at h
  unfold Reads
  cases hk : op.kind <;> simp only [hk] at h ⊢
  case load | store | free => exact ⟨a, by rw [← List.head?_eq_getElem?, h], .inl hn⟩
  all_goals exact absurd h (by simp)

end Graph

namespace Encoding

variable {v : View} {program : Program} {op : Operation} {x : Channel}

/-! ## Channels of accesses -/

/-- The channels of an address are those of the nodes it stands for. -/
theorem View.mem_address {value : ValueId} {found : IndexSet} {fallbacks : Nat}
    (h : v.address value = .ok (found, fallbacks)) :
    x ∈ found ↔ ∃ n ∈ v.graph.standsFor value, v.policy.channelOf n = .ok x := by
  simp only [View.address, bind_eq_ok, View.targets_eq_ok] at h
  obtain ⟨_, ⟨r, hr, -, rfl⟩, h⟩ := h
  have htargets : ∀ n, n ∈ v.graph.targets.value value ↔ n ∈ v.graph.targetsOf r :=
    fun n => mem_targets_value (register_eq_ok.1 hr)
  split at h
  · next hempty =>
      obtain ⟨channels, hchannels, h⟩ := bind_eq_ok.1 h
      obtain ⟨rfl, -⟩ := Prod.mk.inj (pure_eq_ok.1 h)
      have hnone : v.graph.targets.value value = ∅ := by
        refine Set.eq_empty_of_forall_notMem fun n hn => ?_
        exact IndexSet.isEmpty_iff.1 hempty n ((htargets n).1 hn)
      rw [View.mem_channels hchannels]
      simp [Graph.standsFor, hnone]
  · next hempty =>
      obtain ⟨channels, hchannels, h⟩ := bind_eq_ok.1 h
      obtain ⟨rfl, -⟩ := Prod.mk.inj (pure_eq_ok.1 h)
      rw [IndexSet.isEmpty_iff, not_forall_not] at hempty
      obtain ⟨m, hm⟩ := hempty
      have hsome : v.graph.targets.value value ≠ ∅ :=
        Set.nonempty_iff_ne_empty.1 ⟨m, (htargets m).2 hm⟩
      rw [View.mem_channels hchannels]
      simp [Graph.standsFor, hsome, htargets]

/-- An access uses the channels of the nodes that its operation reads and defines those of the
nodes that it writes. -/
structure View.Traces (v : View) (op : Operation) (a : Access) : Prop where
  uses : ∀ {x}, x ∈ a.uses ↔ ∃ n, v.graph.Reads op n ∧ v.policy.channelOf n = .ok x
  defs : ∀ {x}, x ∈ a.defs ↔ ∃ n, v.graph.WritesTo op n ∧ v.policy.channelOf n = .ok x

/-- **Every access has the channels of what its operation reads and writes.** -/
theorem View.Ready.traces_access (hv : v.Ready program)
    (hop : op ∈ program.operations) {a : Access} (hmemory : op.kind.touchesMemory = true)
    (hcall : op.kind ≠ .call) (h : v.access op = .ok a) : v.Traces op a := by
  suffices hmem : (∀ x, x ∈ a.uses ↔ ∃ n, v.graph.Reads op n ∧ v.policy.channelOf n = .ok x) ∧
      ∀ x, x ∈ a.defs ↔ ∃ n, v.graph.WritesTo op n ∧ v.policy.channelOf n = .ok x from
    ⟨hmem.1 _, hmem.2 _⟩
  have hserves := hv.serves.operation hop
  unfold View.access at h
  unfold Graph.ServesOperation at hserves
  unfold Graph.Reads Graph.WritesTo
  cases hk : op.kind <;> simp only [hk] at h hserves hmemory hcall ⊢
  case alloca | malloc =>
    obtain ⟨node, hnode, hshows⟩ := hserves
    simp only [View.allocation, hnode, bind_eq_ok, pure_eq_ok] at h
    obtain ⟨found, hfound, rfl⟩ := h
    simp [View.mem_channels hfound, hshows]
  case load =>
    simp only [bind_eq_ok, pure_eq_ok, Prod.exists, operandAt_eq_ok] at h
    obtain ⟨address, haddress, found, fallbacks, hfound, rfl⟩ := h
    simp [View.mem_address hfound, haddress]
  case store | free =>
    simp only [bind_eq_ok, pure_eq_ok, Prod.exists, operandAt_eq_ok] at h
    obtain ⟨address, haddress, found, fallbacks, hfound, rfl⟩ := h
    simp [View.mem_address hfound, haddress]
  case memcpy =>
    simp only [bind_eq_ok, pure_eq_ok, Prod.exists, operandAt_eq_ok] at h
    obtain ⟨target, htarget, into, first, hinto, source, hsource, taken, second,
      htaken, rfl⟩ := h
    simp [View.mem_address hinto, View.mem_address htaken, htarget, hsource, or_and_right,
      exists_or]
  case call => exact absurd rfl hcall
  all_goals exact absurd hmemory (by decide)

theorem View.Ready.isMemory_of_standsFor (hv : v.Ready program) {value : ValueId} {n : Nat}
    (hn : n ∈ v.graph.standsFor value) : v.graph.IsMemory n := by
  rcases hn with ⟨r, -, hn⟩ | ⟨-, rfl⟩
  · exact hv.serves.pointed hn
  · exact hv.serves.unknown

/-- What is written is memory. -/
theorem View.Ready.isMemory_of_writesTo (hv : v.Ready program) {n : Nat}
    (hn : v.graph.WritesTo op n) : v.graph.IsMemory n := by
  unfold Graph.WritesTo at hn
  cases hk : op.kind <;> simp only [hk] at hn
  case alloca | malloc => exact ⟨_, hn.kindOf?, rfl⟩
  case store | free =>
    obtain ⟨address, -, hn⟩ := hn
    exact hv.isMemory_of_standsFor hn
  case memcpy =>
    obtain ⟨target, -, hn⟩ := hn
    exact hv.isMemory_of_standsFor hn

/-! ## Order -/

section Order

variable {x y : Operation} {a b : Access}

/-- What conflicts has a channel in common, which the first operation defines. -/
theorem View.Ready.exists_channel (hv : v.Ready program) (ha : v.Traces x a)
    (hb : v.Traces y b) (h : v.graph.Conflicts x y) :
    ∃ c, c ∈ a.defs ∧ c ∈ b.uses.union b.defs := by
  obtain ⟨n, hwrites, hn⟩ := h
  obtain ⟨c, hc⟩ := hv.channel (hv.isMemory_of_writesTo hwrites)
  refine ⟨c, ha.defs.2 ⟨n, hwrites, hc⟩, IndexSet.mem_union.2 ?_⟩
  exact hn.imp (fun hn => hb.uses.2 ⟨n, hn, hc⟩) fun hn => hb.defs.2 ⟨n, hn, hc⟩

/-- Where a channel is that of one node, only what conflicts has such a channel in common. -/
theorem View.Traces.conflicts
    (hinj : ∀ {m n c}, v.policy.channelOf m = .ok c → v.policy.channelOf n = .ok c → m = n)
    (ha : v.Traces x a) (hb : v.Traces y b) {c : Channel} (hc : c ∈ a.defs)
    (hc' : c ∈ b.uses.union b.defs) : v.graph.Conflicts x y := by
  obtain ⟨n, hwrites, hn⟩ := ha.defs.1 hc
  rcases IndexSet.mem_union.1 hc' with hc' | hc'
  · obtain ⟨m, hreads, hm⟩ := hb.uses.1 hc'
    obtain rfl := hinj hm hn
    exact ⟨m, hwrites, .inl hreads⟩
  · obtain ⟨m, hwrites', hm⟩ := hb.defs.1 hc'
    obtain rfl := hinj hm hn
    exact ⟨m, hwrites, .inr hwrites'⟩

/-- Operations through addresses that may alias have a channel in common. -/
theorem View.Ready.exists_channel_of_mayAlias (hv : v.Ready program) (ha : v.Traces x a)
    (hb : v.Traces y b) {p q : ValueId} (hp : x.address? = some p) (hq : y.address? = some q)
    (h : v.graph.mayAlias p q = true) :
    ∃ c, c ∈ a.uses.union a.defs ∧ c ∈ b.uses.union b.defs := by
  obtain ⟨n, hn, hn'⟩ := Graph.mayAlias_iff.1 h
  obtain ⟨c, hc⟩ := hv.channel (hv.isMemory_of_standsFor (.inl hn))
  have huses : c ∈ a.uses := ha.uses.2 ⟨n, Graph.reads_of_address? hp hn, hc⟩
  have huses' : c ∈ b.uses := hb.uses.2 ⟨n, Graph.reads_of_address? hq hn', hc⟩
  exact ⟨c, IndexSet.mem_union.2 (.inl huses), IndexSet.mem_union.2 (.inl huses')⟩

end Order

/-- **What conflicts is ordered, and per object nothing else is.**  For every program built by
commands and the graph that an analysis gives for it, encoding goes through under every policy.
When a memory operation other than a call writes a node that another one reads or writes, it
defines a channel that the other uses or defines.  With a channel per object the converse holds
too, so two operations are unordered on every channel exactly if neither conflicts with the
other.  And operations through addresses that may alias always have a channel in common. -/
theorem encode_orders_conflicts {commands : List Command} {config : Config.Analysis}
    {order : Inclusion.SetOrder} {result : Analysis.Result}
    {kind : Channel.PolicyKind} {limit : Nat} {policy : Channel.Policy}
    (hbuild : Program.build? commands = .ok program)
    (hok : Analysis.analyze config program order = .ok result)
    (hpolicy : Channel.Policy.create kind result.graph limit = .ok policy) :
    ∃ stats encoded, encode policy result.graph program = .ok (stats, encoded) ∧
      ∀ x ∈ program.operations, ∀ y ∈ program.operations,
        x.kind.touchesMemory = true → x.kind ≠ .call →
        y.kind.touchesMemory = true → y.kind ≠ .call →
        ∃ uses defs uses' defs', encoded.HasState x (.encoded uses defs) ∧
          encoded.HasState y (.encoded uses' defs') ∧
          (result.graph.Conflicts x y → ∃ c, c ∈ defs ∧ c ∈ uses'.union defs') ∧
          (kind = .perObject →
            (∃ c, c ∈ defs ∧ c ∈ uses'.union defs') → result.graph.Conflicts x y) ∧
          (kind = .perObject →
            ((∀ c, ¬ (c ∈ defs ∧ c ∈ uses'.union defs') ∧
              ¬ (c ∈ defs' ∧ c ∈ uses.union defs)) ↔
              ¬ result.graph.Conflicts x y ∧ ¬ result.graph.Conflicts y x)) ∧
          ∀ a b, x.address? = some a → y.address? = some b → result.graph.mayAlias a b = true →
            ∃ c, c ∈ uses.union defs ∧ c ∈ uses'.union defs' := by
  have hp := Program.coherent_of_build? hbuild
  have hv := ready_of_analyze hp hok hpolicy
  obtain ⟨stats, encoded, hencode, hstates⟩ := encode_states hp hv
  refine ⟨stats, encoded, hencode, fun x hx y hy hxm hxc hym hyc => ?_⟩
  obtain ⟨a, ha, hxstate⟩ := hstates.access x hx hxm hxc
  obtain ⟨b, hb, hystate⟩ := hstates.access y hy hym hyc
  have htraces := hv.traces_access hx hxm hxc ha
  have htraces' := hv.traces_access hy hym hyc hb
  have hinj (hkind : kind = .perObject) : ∀ {m n c}, policy.channelOf m = .ok c →
      policy.channelOf n = .ok c → m = n := by
    obtain rfl := hkind
    exact Channel.Policy.channelOf_inj hpolicy
  refine ⟨a.uses, a.defs, b.uses, b.defs, hxstate, hystate, hv.exists_channel htraces htraces',
    ?_, ?_, fun p q => hv.exists_channel_of_mayAlias htraces htraces'⟩
  · rintro hkind ⟨c, hc, hc'⟩
    exact htraces.conflicts (hinj hkind) htraces' hc hc'
  · refine fun hkind => ⟨fun hfree => ⟨fun h => ?_, fun h => ?_⟩, fun hfree c => ⟨?_, ?_⟩⟩
    · obtain ⟨c, hc⟩ := hv.exists_channel htraces htraces' h
      exact (hfree c).1 hc
    · obtain ⟨c, hc⟩ := hv.exists_channel htraces' htraces h
      exact (hfree c).2 hc
    · rintro ⟨hc, hc'⟩
      exact hfree.1 (htraces.conflicts (hinj hkind) htraces' hc hc')
    · rintro ⟨hc, hc'⟩
      exact hfree.2 (htraces'.conflicts (hinj hkind) htraces hc hc')

/-- Two slots, one written and both read. -/
def readCommands : List Command :=
  [.declareFunction "main" [], .alloca 0 "a", .alloca 0 "b", .store 0 1 2, .load 0 1 .pointer,
    .load 0 2 .pointer]

/-- The store conflicts with the load from its slot, and not with the other load. -/
theorem encode_orders_conflicts_readCommands : ∃ program result policy stats encoded,
    Program.build? readCommands = .ok program ∧
    Analysis.analyze .default program = .ok result ∧
    Channel.Policy.create .perObject result.graph 0 = .ok policy ∧
    encode policy result.graph program = .ok (stats, encoded) ∧
    ∃ x ∈ program.operations, ∃ y ∈ program.operations, ∃ z ∈ program.operations,
      x.kind = .store ∧ y.kind = .load ∧ z.kind = .load ∧
      result.graph.Conflicts x y ∧ ¬ result.graph.Conflicts x z ∧
      encoded.HasState x (.encoded (.singleton 0) (.singleton 0)) ∧
      encoded.HasState y (.encoded (.singleton 0) .empty) ∧
      encoded.HasState z (.encoded (.singleton 1) .empty) := by
  have hrun : (do
      let program ← (Program.build? readCommands).toOption
      let result ← (Analysis.analyze .default program).toOption
      let policy ← (Channel.Policy.create .perObject result.graph 0).toOption
      let run ← (encode policy result.graph program).toOption
      return decide (∃ x ∈ program.operations, ∃ y ∈ program.operations,
        ∃ z ∈ program.operations, x.kind = .store ∧ y.kind = .load ∧ z.kind = .load ∧
        run.2.HasState x (.encoded (.singleton 0) (.singleton 0)) ∧
        run.2.HasState y (.encoded (.singleton 0) .empty) ∧
        run.2.HasState z (.encoded (.singleton 1) .empty))) = some true := by decide +kernel
  simp only [Option.bind_eq_bind, Option.bind_eq_some_iff, toOption_eq_some, Option.pure_def,
    Option.some.injEq, decide_eq_true_eq, Prod.exists] at hrun
  obtain ⟨program, hbuild, result, hok, policy, hpolicy, stats, encoded, hencode, x,
    hx, y, hy, z, hz, hxk, hyk, hzk, hxs, hys, hzs⟩ := hrun
  obtain ⟨_, _, hencode', horders⟩ := encode_orders_conflicts hbuild hok hpolicy
  obtain ⟨-, rfl⟩ := Prod.mk.inj (Except.ok.inj (hencode.symm.trans hencode'))
  have hxy := horders x hx y hy (by rw [hxk]; rfl) (by rw [hxk]; decide) (by rw [hyk]; rfl)
    (by rw [hyk]; decide)
  have hxz := horders x hx z hz (by rw [hxk]; rfl) (by rw [hxk]; decide) (by rw [hzk]; rfl)
    (by rw [hzk]; decide)
  obtain ⟨uses, defs, uses', defs', hs, hs', -, honly, -⟩ := hxy
  obtain ⟨rfl, rfl⟩ := MemoryState.encoded.inj (hxs.unique hs)
  obtain ⟨rfl, rfl⟩ := MemoryState.encoded.inj (hys.unique hs')
  have hconflicts := honly rfl ⟨0, by decide, by decide⟩
  obtain ⟨uses, defs, uses', defs', hs, hs', hordered, -⟩ := hxz
  obtain ⟨rfl, rfl⟩ := MemoryState.encoded.inj (hxs.unique hs)
  obtain ⟨rfl, rfl⟩ := MemoryState.encoded.inj (hzs.unique hs')
  have hfree : ¬ result.graph.Conflicts x z := by
    intro h
    obtain ⟨c, hc, hc'⟩ := hordered h
    obtain rfl := IndexSet.mem_singleton.1 hc
    exact absurd hc' (by decide)
  exact ⟨program, result, policy, stats, encoded, hbuild, hok, hpolicy, hencode, x,
    hx, y, hy, z, hz, hxk, hyk, hzk, hconflicts, hfree, hxs, hys, hzs⟩

end Encoding
end PointerChannels
