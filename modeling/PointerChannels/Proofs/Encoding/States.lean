import PointerChannels.Proofs.Analysis.Analyze
import PointerChannels.Proofs.Encoding.Depends
import PointerChannels.Proofs.Program.State

/-!
# The states of an encoding

With a graph that serves the program, encoding goes through.  A memory operation other than a
call has the channels of its access, a call has the channels it depends on, and an operation
that does not touch memory keeps its state.  The graph of an analysis serves its program.

## Main statements

* `encode_states` — encoding goes through, and these are the states it leaves.
* `ready_of_analyze` — the graph of an analysis serves its program.
-/

namespace PointerChannels.Encoding

variable {v : View} {program : Program} {op : Operation} {x : Channel}

/-! ## Written states -/

/-- A gathered access is that of an operation. -/
theorem Gathered.access_eq {d : Draft} (hv : v.Ready program)
    (hd : Gathered v program (entries program) d) {a : Access} (ha : a ∈ d.accesses) :
    ∃ op ∈ program.operations, op.id = a.operation ∧ op.kind.touchesMemory = true ∧
      op.kind ≠ .call ∧ v.access op = .ok a := by
  obtain ⟨⟨id, op⟩, he, hmemory, hcall, hok⟩ := hd.accesses.1 ha
  obtain ⟨f, hf, -, hop⟩ := mem_entries.1 he
  have hop : op ∈ program.operations := List.mem_flatMap.2 ⟨f, hf, hop⟩
  obtain ⟨a', hok', hid, -⟩ := hv.access_ok hop hmemory hcall
  obtain rfl := Except.ok.inj (hok.symm.trans hok')
  exact ⟨op, hop, hid.symm, hmemory, hcall, hok⟩

/-- The state that a call is given. -/
def liveState (v : View) (summaries : Array IndexSet) (c : Call) : MemoryState :=
  match liveSet v summaries c with
  | .ok (live, _) => .encoded live live
  | .error _ => .none

/-- Writing the accesses gives every memory operation other than a call its state, and leaves
operations that do not touch memory alone. -/
theorem Gathered.writeAccesses_ok {d : Draft} (hp : program.Coherent) (hv : v.Ready program)
    (hd : Gathered v program (entries program) d) :
    ∃ q, writeAccesses program d.accesses = .ok q ∧ program.Restates q ∧
      (∀ op ∈ program.operations, op.kind.touchesMemory = true → op.kind ≠ .call →
        ∀ a, v.access op = .ok a → q.HasState op (.encoded a.uses a.defs)) ∧
      ∀ op ∈ program.operations, op.kind.touchesMemory = false → q.HasState op op.state := by
  obtain ⟨q, hok, hrestates, hwritten⟩ :=
    Program.foldlM_setState hp (fun q => q) Access.operation
      (fun a => .encoded a.uses a.defs) (l := d.accesses)
      (f := fun p a => p.setState a.operation (.encoded a.uses a.defs)) (fun a ha => by
        obtain ⟨op, hop, hid, -⟩ := hd.access_eq hv ha
        exact ⟨op, hop, hid⟩)
      (fun _ q _ _ hset => ⟨q, hset, rfl⟩) (Program.restates_self hp)
  refine ⟨q, hok, hrestates, fun op hop hmemory hcall a ha => ?_, fun op hop hmemory => ?_⟩
  · obtain ⟨a', ha', hid, -⟩ := hv.access_ok hop hmemory hcall
    obtain rfl := Except.ok.inj (ha.symm.trans ha')
    obtain ⟨f, hf, hbody⟩ := List.mem_flatMap.1 hop
    have hmem :=
      hd.accesses.2 ⟨(f.id, op), mem_entries.2 ⟨f, hf, rfl, hbody⟩, hmemory, hcall, ha⟩
    refine hwritten op hop _ (fun b hb hid' => ?_) (.inr ⟨a, hmem, hid⟩)
    -- accesses of one operation are the same
    obtain ⟨op', hop', hid'', -, -, hb'⟩ := hd.access_eq hv hb
    obtain rfl := hp.eq_of_id hop' hop (hid''.trans hid')
    obtain rfl := Except.ok.inj (ha.symm.trans hb')
    rfl
  · refine hwritten op hop _ (fun b hb hid => ?_) (.inl (Program.hasState_self hp hop))
    obtain ⟨op', hop', hid', hmemory', -⟩ := hd.access_eq hv hb
    obtain rfl := hp.eq_of_id hop' hop (hid'.trans hid)
    exact absurd (hmemory.symm.trans hmemory') (by simp)

/-- Writing the calls gives every call the channels it depends on, and leaves the
other operations alone. -/
theorem Gathered.writeCalls_ok {d : Draft} (hp : program.Coherent) (hv : v.Ready program)
    (hd : Gathered v program (entries program) d) {summaries : Array IndexSet}
    (hclosed : d.ClosedBy summaries) {q : Program} (hq : program.Restates q) :
    ∃ written encoded, writeCalls v summaries q d.calls = .ok (written, encoded) ∧
      (∀ op ∈ program.operations, op.kind = .call → ∃ live,
        encoded.HasState op (.encoded live live) ∧ ∀ x, x ∈ live ↔ v.Depends program op x ∨
          program.Mute v.graph op ∧ v.policy.channelOf Graph.unknown = .ok x) ∧
      ∀ op ∈ program.operations, op.kind ≠ .call → ∀ state, q.HasState op state →
        encoded.HasState op state := by
  have hfold :=
    Program.foldlM_setState hp (fun s : List Access × Program => s.2) Call.operation
      (liveState v summaries) (s := ([], q)) (l := d.calls)
      (f := fun s call => do
        let live ← liveSet v summaries call
        let p ← s.2.setState call.operation (.encoded live.1 live.1)
        return (s.1 ++ [⟨call.operation, live.1, live.1, live.2⟩], p)) (fun c hc => by
          obtain ⟨op, hop, hid, -⟩ := hd.call_eq hv hc
          exact ⟨op, hop, hid⟩) ?_ hq
  · obtain ⟨⟨written, encoded⟩, hok, -, hwritten⟩ := hfold
    refine ⟨written, encoded, hok, fun op hop hcall => ?_, fun op hop hcall state hstate => ?_⟩
    · obtain ⟨f, hf, hbody⟩ := List.mem_flatMap.1 hop
      obtain ⟨c, hc, hid, -⟩ := hv.call_ok hop hcall f.id
      have hmem := hd.calls.2 ⟨(f.id, op), mem_entries.2 ⟨f, hf, rfl, hbody⟩, hcall, hc⟩
      obtain ⟨live, -, -, hlive⟩ := hd.liveSet_ok hp hv hclosed hmem hop hid
      refine ⟨live, hwritten op hop _ (fun c' hc' hid' => ?_) (.inr ⟨c, hmem, hid⟩), hlive⟩
      -- calls of one operation have one live set
      obtain ⟨live', fallbacks', hok', hlive'⟩ := hd.liveSet_ok hp hv hclosed hc' hop hid'
      obtain rfl : live = live' := IndexSet.ext_mem fun x => (hlive x).trans (hlive' x).symm
      simp only [liveState, hok']
    · refine hwritten op hop state (fun c hc hid => ?_) (.inl hstate)
      obtain ⟨op', hop', hid', hcall', -⟩ := hd.call_eq hv hc
      obtain rfl := hp.eq_of_id hop' hop (hid'.trans hid)
      exact absurd hcall' hcall
  · intro s q c hc hset
    obtain ⟨op, hop, hid, -⟩ := hd.call_eq hv hc
    obtain ⟨live, fallbacks, hlive, -⟩ := hd.liveSet_ok hp hv hclosed hc hop hid.symm
    simp only [liveState, hlive] at hset
    exact ⟨_, by simp only [hlive, hset, bind, Except.bind]; rfl, rfl⟩

/-! ## The encoding -/

theorem encode_eq_ok {d : Draft} {rounds : Nat} {summaries : Array IndexSet}
    {q encoded : Program} {written : List Access} (hgather : gatherAll v program = .ok d)
    (hclose : closeSummaries d.callEdges d.summaries = .ok (rounds, summaries))
    (haccesses : writeAccesses program d.accesses = .ok q)
    (hcalls : writeCalls v summaries q d.calls = .ok (written, encoded)) :
    ∃ stats, encode v.policy v.graph program = .ok (stats, encoded) := by
  rw [Draft.callEdges] at hclose
  exact ⟨_, by simp only [encode, hgather, hclose, haccesses, hcalls, bind, Except.bind]; rfl⟩

/-- The states that an encoding leaves. -/
structure States (v : View) (program encoded : Program) : Prop where
  access : ∀ op ∈ program.operations, op.kind.touchesMemory = true → op.kind ≠ .call →
    ∃ a, v.access op = .ok a ∧ encoded.HasState op (.encoded a.uses a.defs)
  call : ∀ op ∈ program.operations, op.kind = .call → ∃ live,
    encoded.HasState op (.encoded live live) ∧ ∀ x, x ∈ live ↔ v.Depends program op x ∨
      program.Mute v.graph op ∧ v.policy.channelOf Graph.unknown = .ok x
  other : ∀ op ∈ program.operations, op.kind.touchesMemory = false →
    encoded.HasState op op.state

/-- **Encoding goes through**, and gives every memory operation its state. -/
theorem encode_states (hp : program.Coherent) (hv : v.Ready program) :
    ∃ stats encoded, encode v.policy v.graph program = .ok (stats, encoded) ∧
      States v program encoded := by
  obtain ⟨d, hgather, hd⟩ := gatherAll_ok hp hv
  obtain ⟨rounds, summaries, hclose, hsize, hclosed⟩ :=
    closeSummaries_ok (s := d.summaries) (by
    intro i j hedge
    obtain ⟨f, hf, rfl, -, -, f', hf', rfl, -⟩ := (hd.edge_iff hv).1 hedge
    rw [hd.size_eq]
    exact ⟨hp.id_lt_size hf, hp.id_lt_size hf'⟩)
  obtain ⟨q, hq, hrestates, haccess, hother⟩ := hd.writeAccesses_ok hp hv
  obtain ⟨written, encoded, hencoded, hcalls, hothers⟩ :=
    hd.writeCalls_ok hp hv ⟨hsize, hclosed⟩ hrestates
  obtain ⟨stats, hencode⟩ := encode_eq_ok hgather hclose hq hencoded
  refine ⟨stats, encoded, hencode, fun op hop hmemory hcall => ?_, hcalls,
    fun op hop hmemory => ?_⟩
  · obtain ⟨a, hok, -⟩ := hv.access_ok hop hmemory hcall
    exact ⟨a, hok, hothers op hop hcall _ (haccess op hop hmemory hcall a hok)⟩
  · refine hothers op hop (fun hcall => ?_) _ (hother op hop hmemory)
    rw [hcall] at hmemory
    exact absurd hmemory (by decide)

theorem ready_of_analyze {config : Config.Analysis} {result : Analysis.Result}
    {kind : Channel.PolicyKind} {limit : Nat} {policy : Channel.Policy} (hp : program.Coherent)
    {order : Inclusion.SetOrder} (hok : Analysis.analyze config program order = .ok result)
    (hpolicy : Channel.Policy.create kind result.graph limit = .ok policy) :
    View.Ready ⟨result.graph, policy⟩ program := by
  obtain ⟨d, T, node, hd, hg, -⟩ := Analysis.represents_of_analyze hp hok
  exact ⟨Graph.serves_of_represents hg hd, Channel.Policy.channelOf_ok hpolicy⟩

end PointerChannels.Encoding
