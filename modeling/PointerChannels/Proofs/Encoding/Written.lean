import PointerChannels.Proofs.Encoding.Summary
import PointerChannels.Proofs.Program.State
import Mathlib.Data.List.Perm.Basic

/-!
# An encoding as a list of writes

An encoding that goes through has made one access for every memory operation and has written
them one after the other.  Nothing is assumed of the program here: its numbers need not fit
together, several operations may have one number, and an operation may have no place.

## Main definitions

* `Encodes` — the parts of an encoding that went through.

## Main statements

* `encode_eq_ok_iff` — an encoding and its parts.
* `gatherAll_collected` — one access or call for every memory operation.
-/

namespace PointerChannels.Encoding

variable {v : View} {program : Program} {d : Draft} {op : Operation}

/-! ## Parts of an encoding -/

/-- The calls of a draft, as their callers and callees. -/
def Draft.callEdges (d : Draft) : List (FunctionId × List FunctionId) :=
  d.calls.map fun c => (c.caller, c.callees)

/-- The access of a call, once the summaries are closed. -/
def liveAccess (v : View) (summaries : Array IndexSet) (c : Call) : Except Fault Access :=
  (liveSet v summaries c).map fun live => ⟨c.operation, live.1, live.1, live.2⟩

/-- Writing calls is making their accesses and writing those. -/
theorem writeCalls_eq_ok {summaries : Array IndexSet} {q encoded : Program} {calls : List Call}
    {written : List Access} : writeCalls v summaries q calls = .ok (written, encoded) ↔
      calls.mapM (liveAccess v summaries) = .ok written ∧
        writeAccesses q written = .ok encoded := by
  -- what has been written so far is carried along, so the induction is for any start
  have hfrom : ∀ (calls : List Call) (before : List Access) (q : Program),
      calls.foldlM (fun (s : List Access × Program) call => do
        let live ← liveSet v summaries call
        let p ← s.2.setState call.operation (.encoded live.1 live.1)
        return (s.1 ++ [Access.mk call.operation live.1 live.1 live.2], p)) (before, q) =
          .ok (written, encoded) ↔
      ∃ after, calls.mapM (liveAccess v summaries) = .ok after ∧ written = before ++ after ∧
        writeAccesses q after = .ok encoded := by
    intro calls
    induction calls with
    | nil =>
        intro before q
        simp only [List.foldlM_nil, List.mapM_nil, pure_eq_ok, Prod.mk.injEq, writeAccesses]
        constructor
        · rintro ⟨rfl, rfl⟩
          exact ⟨[], rfl, (List.append_nil _).symm, rfl⟩
        · rintro ⟨_, rfl, rfl, hwritten⟩
          exact ⟨(List.append_nil _).symm, pure_eq_ok.1 hwritten⟩
    | cons c calls ih =>
        intro before q
        simp only [List.foldlM_cons, bind_eq_ok, pure_eq_ok, List.mapM_cons,
          liveAccess, map_eq_ok]
        constructor
        · rintro ⟨s, ⟨live, hlive, p, hset, rfl⟩, hrest⟩
          obtain ⟨after, hafter, rfl, hwritten⟩ := (ih _ p).1 hrest
          refine ⟨⟨c.operation, live.1, live.1, live.2⟩ :: after,
            ⟨_, ⟨live, hlive, rfl⟩, after, hafter, rfl⟩, by simp, ?_⟩
          rw [writeAccesses, List.foldlM_cons, hset]
          exact hwritten
        · rintro ⟨_, ⟨_, ⟨live, hlive, rfl⟩, after, hafter, rfl⟩, rfl, hwritten⟩
          rw [writeAccesses, List.foldlM_cons, bind_eq_ok] at hwritten
          obtain ⟨p, hset, hwritten⟩ := hwritten
          exact ⟨_, ⟨live, hlive, p, hset, rfl⟩,
            (ih _ p).2 ⟨after, hafter, by simp, hwritten⟩⟩
  have h := hfrom calls [] q
  simp only [List.nil_append] at h
  constructor
  · intro hok
    obtain ⟨after, hafter, rfl, hwritten⟩ := h.1 hok
    exact ⟨hafter, hwritten⟩
  · rintro ⟨hafter, hwritten⟩
    exact h.2 ⟨written, hafter, rfl, hwritten⟩

/-- The parts of an encoding that went through: what was gathered, the closed summaries, the
accesses of the calls, and the program with all accesses written. -/
structure Encodes (v : View) (program : Program) (d : Draft) (rounds : Nat)
    (summaries : Array IndexSet) (live : List Access) (encoded : Program) : Prop where
  gathered : gatherAll v program = .ok d
  closed : closeSummaries d.callEdges d.summaries = .ok (rounds, summaries)
  calls : d.calls.mapM (liveAccess v summaries) = .ok live
  written : writeAccesses program (d.accesses ++ live) = .ok encoded

/-- What the parts of an encoding tell about it. -/
def statsOf (policy : Channel.Policy) (program : Program) (d : Draft) (rounds : Nat)
    (written : List Access) (encoded : Program) : Stats where
  policy := policy.name
  channelCount := policy.channelCount
  operations := written.length
  loads := countKind program .load
  stores := countKind program .store
  allocations := countKind program .alloca + countKind program .malloc
  frees := countKind program .free
  memcpys := countKind program .memcpy
  calls := countKind program .call
  callsWidened := d.calls.countP (·.widened)
  unknownFallbacks := written.foldl (fun total a => total + a.fallbacks) 0
  channelsUsed := (channelsIn encoded).size
  maxWidth := (written.map fun a => (a.uses.union a.defs).size).foldl Nat.max 0
  summaryRounds := rounds

/-- **An encoding goes through exactly if its parts do.** -/
theorem encode_eq_ok_iff {stats : Stats} {encoded : Program} :
    encode v.policy v.graph program = .ok (stats, encoded) ↔
      ∃ d rounds summaries live, Encodes v program d rounds summaries live encoded ∧
        stats = statsOf v.policy program d rounds (d.accesses ++ live) encoded := by
  simp only [encode, bind_eq_ok, pure_eq_ok, Prod.exists, Prod.mk.injEq]
  constructor
  · rintro ⟨d, hgather, rounds, summaries, hclose, q, hq, live, encoded', hcalls, rfl, rfl⟩
    obtain ⟨hlive, hwritten⟩ := writeCalls_eq_ok.1 hcalls
    refine ⟨d, rounds, summaries, live, ⟨hgather, hclose, hlive, ?_⟩, rfl⟩
    rw [writeAccesses, List.foldlM_append]
    exact bind_eq_ok.2 ⟨q, hq, hwritten⟩
  · rintro ⟨d, rounds, summaries, live, h, rfl⟩
    have hwritten := h.written
    rw [writeAccesses, List.foldlM_append, bind_eq_ok] at hwritten
    obtain ⟨q, hq, hwritten⟩ := hwritten
    exact ⟨d, h.gathered, rounds, summaries, h.closed, q, hq, live, encoded,
      writeCalls_eq_ok.2 ⟨h.calls, hwritten⟩, rfl, rfl⟩

/-! ## What is gathered -/

/-- Nodes have channels, if there are any. -/
theorem View.exists_mem_channels {nodes : List Nat} {found : IndexSet} {n : Nat}
    (hn : n ∈ nodes) (h : v.channels nodes = .ok found) : ∃ x, x ∈ found := by
  obtain ⟨channels, hchannels, h⟩ := bind_eq_ok.1 h
  obtain rfl := pure_eq_ok.1 h
  cases nodes with
  | nil => simp at hn
  | cons m nodes =>
      rw [List.mapM_cons, bind_eq_ok] at hchannels
      obtain ⟨x, -, hchannels⟩ := hchannels
      obtain ⟨rest, -, hrest⟩ := bind_eq_ok.1 hchannels
      obtain rfl := pure_eq_ok.1 hrest
      exact ⟨x, IndexSet.mem_ofList.2 List.mem_cons_self⟩

/-- What is known of a value with a register node is where that node points. -/
theorem View.targets_eq_ok {value : ValueId} {set : IndexSet} : v.targets value = .ok set ↔
    ∃ r, v.register value = .ok r ∧ r < v.graph.size ∧ v.graph.targetsOf r = set := by
  simp only [View.targets, bind_eq_ok, pure_eq_ok, checkIndex_eq_ok, exists_const]
  exact Iff.rfl

theorem View.exists_mem_address {value : ValueId} {found : IndexSet} {fallbacks : Nat}
    (h : v.address value = .ok (found, fallbacks)) : ∃ x, x ∈ found := by
  simp only [View.address, bind_eq_ok] at h
  obtain ⟨r, -, h⟩ := h
  split at h
  · obtain ⟨channels, hchannels, h⟩ := bind_eq_ok.1 h
    obtain ⟨rfl, -⟩ := Prod.mk.inj (pure_eq_ok.1 h)
    exact exists_mem_channels List.mem_cons_self hchannels
  · next hempty =>
      obtain ⟨channels, hchannels, h⟩ := bind_eq_ok.1 h
      obtain ⟨rfl, -⟩ := Prod.mk.inj (pure_eq_ok.1 h)
      rw [IndexSet.isEmpty_iff, not_forall_not] at hempty
      obtain ⟨n, hn⟩ := hempty
      exact exists_mem_channels (IndexSet.mem_toList.2 hn) hchannels

theorem View.exists_mem_allocation {a : Access} (h : v.allocation op = .ok a) :
    a.operation = op.id ∧ ∃ x, x ∈ a.uses ∨ x ∈ a.defs := by
  unfold View.allocation at h
  split at h
  · simp only [bind_eq_ok, pure_eq_ok] at h
    obtain ⟨_, hchannels, rfl⟩ := h
    exact ⟨rfl, (exists_mem_channels List.mem_cons_self hchannels).imp fun _ => .inr⟩
  · exact absurd h (by simp)

/-- An access is that of its operation, and has a channel. -/
theorem View.access_eq_ok {a : Access} (h : v.access op = .ok a) :
    a.operation = op.id ∧ ∃ x, x ∈ a.uses.union a.defs := by
  unfold View.access at h
  simp only [IndexSet.mem_union]
  split at h
  · simp only [bind_eq_ok, pure_eq_ok, Prod.exists] at h
    obtain ⟨_, -, _, _, haddress, rfl⟩ := h
    exact ⟨rfl, (exists_mem_address haddress).imp fun _ => .inl⟩
  · simp only [bind_eq_ok, pure_eq_ok, Prod.exists] at h
    obtain ⟨_, -, _, _, haddress, rfl⟩ := h
    exact ⟨rfl, (exists_mem_address haddress).imp fun _ => .inl⟩
  · simp only [bind_eq_ok, pure_eq_ok, Prod.exists] at h
    obtain ⟨_, -, _, _, haddress, rfl⟩ := h
    exact ⟨rfl, (exists_mem_address haddress).imp fun _ => .inl⟩
  · simp only [bind_eq_ok, pure_eq_ok, Prod.exists] at h
    obtain ⟨_, -, _, _, haddress, _, -, _, _, -, rfl⟩ := h
    exact ⟨rfl, (exists_mem_address haddress).imp fun _ => .inr⟩
  · exact exists_mem_allocation h
  · exact exists_mem_allocation h
  · exact absurd h (by simp)

/-- What a call is made of. -/
structure View.CallOf (v : View) (program : Program) (caller : FunctionId) (op : Operation)
    (c : Call) (callee : ValueId) (r : Nat) (passed : IndexSet) : Prop where
  callee?_eq : op.callee? = some callee
  register_eq : v.register callee = .ok r
  register_lt : r < v.graph.size
  targets_lt : ∀ m ∈ v.graph.targetsOf r, m < v.graph.size
  passed_eq : v.reachableAll program (op.arguments ++ op.outputs) = .ok passed
  operation_eq : c.operation = op.id
  caller_eq : c.caller = caller
  callees_eq : c.callees = (v.graph.targetsOf r).toList.filterMap v.function?
  widened_eq : c.widened = ((v.graph.targetsOf r).toList.isEmpty ||
    decide (((v.graph.targetsOf r).toList.filterMap v.function?).length <
      (v.graph.targetsOf r).toList.length))
  widened : c.widened = true → ∃ outside, v.outside = .ok outside ∧
    c.locals = passed.union outside
  exact : c.widened = false → c.locals = passed

theorem View.call_eq_ok {caller : FunctionId} {c : Call} : v.call program caller op = .ok c ↔
    ∃ callee r passed, v.CallOf program caller op c callee r passed := by
  unfold View.call
  constructor
  · intro h
    split at h
    · exact absurd h (by simp)
    next callee hcallee =>
    simp only [bind_eq_ok, targets_eq_ok, forM_eq_ok, checkIndex_eq_ok] at h
    obtain ⟨-, ⟨r, hr, hlt, rfl⟩, -, htargets, passed, hpassed, h⟩ := h
    have htargets : ∀ m ∈ v.graph.targetsOf r, m < v.graph.size :=
      fun m hm => htargets m (IndexSet.mem_toList.2 hm)
    split at h
    · next hwide =>
        simp only [bind_eq_ok, pure_eq_ok] at h
        obtain ⟨locals, hlocals, rfl⟩ := h
        obtain ⟨outside, houtside, rfl⟩ := map_eq_ok.1 hlocals
        exact ⟨callee, r, passed, hcallee, hr, hlt, htargets, hpassed, rfl, rfl, rfl, rfl,
          fun _ => ⟨outside, houtside, rfl⟩, fun h => absurd (hwide.symm.trans h) (by simp)⟩
    · next hwide =>
        simp only [pure_bind, pure_eq_ok] at h
        obtain rfl := h
        exact ⟨callee, r, passed, hcallee, hr, hlt, htargets, hpassed, rfl, rfl, rfl, rfl,
          fun h => absurd h hwide, fun _ => rfl⟩
  · rintro ⟨callee, r, passed, h⟩
    obtain ⟨operation, caller, callees, widened, locals⟩ := c
    obtain ⟨hcallee, hr, hlt, htargets, hpassed, rfl, rfl, rfl, rfl, hwidened, hexact⟩ := h
    simp only [hcallee, bind_eq_ok, targets_eq_ok, forM_eq_ok, checkIndex_eq_ok]
    refine ⟨_, ⟨r, hr, hlt, rfl⟩, (), fun m hm => htargets m (IndexSet.mem_toList.1 hm),
      passed, hpassed, ?_⟩
    split
    · next hwide =>
        obtain ⟨outside, houtside, rfl⟩ := hwidened hwide
        rw [houtside]
        rfl
    · next hwide =>
        obtain rfl := hexact (Bool.eq_false_iff.2 hwide)
        rfl

theorem Draft.summarize_eq_ok {d' : Draft} {f : FunctionId} {channels : IndexSet}
    (h : d.summarize f channels = .ok d') : f < d.summaries.size ∧
      d' = { d with summaries := d.summaries.modify f (·.union channels) } := by
  simp only [Draft.summarize, bind_eq_ok, pure_eq_ok, entryAt_eq_ok] at h
  obtain ⟨_, hentry, rfl⟩ := h
  exact ⟨(Array.getElem?_eq_some_iff.1 hentry).1, rfl⟩

/-- What has been gathered of some operations: one access or call for
each that touches memory. -/
structure Collected (done : List Operation) (d : Draft) : Prop where
  operations : (d.accesses.map Access.operation ++ d.calls.map Call.operation).Perm
    ((done.filter (·.kind.touchesMemory)).map Operation.id)
  touched : ∀ a ∈ d.accesses, ∃ x, x ∈ a.uses.union a.defs
  caller_lt : ∀ c ∈ d.calls, c.caller < d.summaries.size

theorem Collected.gather {done : List Operation} {d' : Draft} {f : FunctionId}
    (hd : Collected done d) (h : gather v program f d op = .ok d') :
    Collected (done ++ [op]) d' := by
  unfold Encoding.gather at h
  split at h
  · next hmemory =>
      obtain rfl := Except.ok.inj h
      have hmemory : op.kind.touchesMemory = false := by simpa using hmemory
      refine ⟨?_, hd.touched, hd.caller_lt⟩
      simpa [List.filter_append, hmemory] using hd.operations
  next hmemory =>
  have hmemory : op.kind.touchesMemory = true := by simpa using hmemory
  have hlast : ((done ++ [op]).filter (·.kind.touchesMemory)).map Operation.id =
      (done.filter (·.kind.touchesMemory)).map Operation.id ++ [op.id] := by
    simp [List.filter_append, hmemory]
  split at h
  · simp only [bind_eq_ok, pure_eq_ok] at h
    obtain ⟨c, hc, d₁, hd₁, rfl⟩ := h
    obtain ⟨callee, r, passed, hcall⟩ := View.call_eq_ok.1 hc
    obtain ⟨hf, rfl⟩ := Draft.summarize_eq_ok hd₁
    refine ⟨?_, hd.touched, fun c' hc' => ?_⟩
    · rw [hlast, List.map_append, ← List.append_assoc]
      exact hd.operations.append (by simp [hcall.operation_eq])
    · rw [Array.size_modify]
      rcases List.mem_append.1 hc' with hc' | hc'
      · exact hd.caller_lt c' hc'
      · rw [List.mem_singleton.1 hc', hcall.caller_eq]
        exact hf
  · simp only [bind_eq_ok, pure_eq_ok] at h
    obtain ⟨a, ha, d₁, hd₁, rfl⟩ := h
    obtain ⟨hid, hchannel⟩ := View.access_eq_ok ha
    obtain ⟨hf, rfl⟩ := Draft.summarize_eq_ok hd₁
    refine ⟨?_, fun a' ha' => ?_, fun c hc => ?_⟩
    · rw [hlast, List.map_append, List.append_assoc]
      refine (List.perm_append_comm.append_left _).trans ?_
      rw [← List.append_assoc]
      exact hd.operations.append (by simp [hid])
    · rcases List.mem_append.1 ha' with ha' | ha'
      · exact hd.touched a' ha'
      · rw [List.mem_singleton.1 ha']
        exact hchannel
    · rw [Array.size_modify]
      exact hd.caller_lt c hc

/-- **Gathering makes one access or call for every memory operation.** -/
theorem gatherAll_collected (h : gatherAll v program = .ok d) :
    Collected program.operations d := by
  have hnone : Collected (([] : List FunctionDef).flatMap (·.body.toList))
      ⟨[], [], Array.replicate program.functions.size .empty⟩ := ⟨by simp, by simp, by simp⟩
  refine foldlM_prefix
    (I := fun fs : List FunctionDef => Collected (fs.flatMap (·.body.toList)))
    (fun done d f d' hd hbody => ?_) hnone h
  rw [List.flatMap_append, List.flatMap_singleton]
  exact foldlM_prefix (I := Collected) (fun _ _ _ _ hd hgather => hd.gather hgather) hd hbody

theorem liveAccess_eq_ok {summaries : Array IndexSet} {c : Call} {a : Access}
    (h : liveAccess v summaries c = .ok a) :
    a.operation = c.operation ∧ ∃ x, x ∈ a.uses.union a.defs := by
  obtain ⟨⟨live, fallbacks⟩, hlive, rfl⟩ := map_eq_ok.1 h
  simp only [liveSet, bind_eq_ok] at hlive
  obtain ⟨found, -, hlive⟩ := hlive
  refine ⟨rfl, ?_⟩
  simp only [IndexSet.mem_union, or_self]
  split at hlive
  · obtain ⟨channels, hchannels, h⟩ := bind_eq_ok.1 hlive
    obtain ⟨rfl, -⟩ := Prod.mk.inj (pure_eq_ok.1 h)
    exact View.exists_mem_channels List.mem_cons_self hchannels
  · next hempty =>
      obtain ⟨rfl, -⟩ := Prod.mk.inj (pure_eq_ok.1 hlive)
      rwa [IndexSet.isEmpty_iff, not_forall_not] at hempty

/-- Who calls has a summary. -/
theorem Collected.lt_size_of_edge {done : List Operation} (hd : Collected done d)
    {i j : FunctionId} (h : Edge d.callEdges i j) : i < d.summaries.size := by
  obtain ⟨callees, hmem, -⟩ := h
  obtain ⟨c, hc, heq⟩ := List.mem_map.1 hmem
  rw [← (Prod.mk.inj heq).1]
  exact hd.caller_lt c hc

namespace Encodes

variable {rounds : Nat} {summaries : Array IndexSet} {live : List Access} {encoded : Program}
  (h : Encodes v program d rounds summaries live encoded)

include h

theorem operations_perm : ((d.accesses ++ live).map Access.operation).Perm
    ((program.operations.filter (·.kind.touchesMemory)).map Operation.id) := by
  have hlive : live.map Access.operation = d.calls.map Call.operation := by
    have hids :=
      mapM_map_ok (g := fun c => .ok (ε := Fault) c.operation) (φ := Access.operation)
        (fun c _ a ha => by rw [(liveAccess_eq_ok ha).1]) h.calls
    have hpure : ∀ calls : List Call,
        calls.mapM (fun c => Except.ok (ε := Fault) c.operation) =
          .ok (calls.map Call.operation) :=
      fun calls => List.mapM_pure
    exact Except.ok.inj (hids.symm.trans (hpure d.calls))
  rw [List.map_append, hlive]
  exact (gatherAll_collected h.gathered).operations

/-- Every access that is written has a channel. -/
theorem touched {a : Access} (ha : a ∈ d.accesses ++ live) : ∃ x, x ∈ a.uses.union a.defs := by
  rcases List.mem_append.1 ha with ha | ha
  · exact (gatherAll_collected h.gathered).touched a ha
  · obtain ⟨c, -, hc⟩ := (mem_of_mapM h.calls).1 ha
    exact (liveAccess_eq_ok hc).2

/-- **There is one access for every memory operation.** -/
theorem length_eq : (d.accesses ++ live).length = program.numMemoryOperations := by
  rw [← List.length_map (f := Access.operation), h.operations_perm.length_eq, List.length_map,
    Program.numMemoryOperations, List.countP_eq_length_filter]

end Encodes
end PointerChannels.Encoding
