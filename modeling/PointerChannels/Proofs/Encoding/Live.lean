import PointerChannels.Proofs.Encoding.Callback
import PointerChannels.Proofs.Graph.History

/-!
# The live sets of calls

An encoding that goes through gives every call exactly its live set, whatever graph and
whatever policy it was made with.  The live set has the channels of the call itself, and
those of all functions that the call may go to: there what each function has of its own is
counted once, however the calls run in circles.  Nothing is asked of the graph but that
its edges lead to nodes; it need not know the functions of the program, and may take
several nodes for one of them.

## Main definitions

* `Graph.Enters`, `Graph.FullyKnown` — the functions a call may go to,
  and whether they are all.
* `Program.Local`, `Program.Leads` — the nodes of a call itself, and the
  calls between functions.
* `View.LiveChannel` — the live set of a call.

## Main statements

* `encode_live_sets` — every call has its live set, and the widened calls are counted.
-/

namespace PointerChannels

/-! ## Where calls go -/

namespace Graph

variable (g : Graph) (op : Operation)

/-- The operation is a call, and the function is among the targets of its callee. -/
def Enters (f : FunctionId) : Prop :=
  ∃ callee n, op.callee? = some callee ∧ n ∈ g.targets.value callee ∧
    g.Shows n .allocator (.function f)

/-- The operation is a call whose callee has targets, all of them functions. -/
def FullyKnown : Prop :=
  ∃ callee, op.callee? = some callee ∧ (g.targets.value callee).Nonempty ∧
    ∀ n ∈ g.targets.value callee, ∃ f, g.Shows n .allocator (.function f)

instance : Decidable (g.FullyKnown op) :=
  decidable_of_iff (op.callee?.any (fun callee => (g.register? callee).any fun r =>
      !(g.targetsOf r).isEmpty && (g.targetsOf r).toList.all fun n =>
        ((Encoding.View.mk g .single).function? n).isSome) = true) <| by
    simp only [Option.any_eq_true, FullyKnown]
    refine exists_congr fun callee => and_congr_right fun _ => ?_
    cases hr : g.register? callee with
    | none => simp [targets, hr, Set.Nonempty]
    | some r =>
        simp [targets, hr, Set.Nonempty, ← Bool.not_eq_true, IndexSet.isEmpty_iff,
          List.all_eq_true, Option.isSome_iff_exists, Encoding.View.function?_eq_some]

/-- Memory, sentinels apart, that external memory leads to by one or more edges. -/
def Escapes (n : Nat) : Prop :=
  (∃ m ∈ g.targetsOf external, g.Reaches m n) ∧
    ∃ kind, g.kindOf? n = some kind ∧ kind.isSentinel = false

variable {g op}

theorem Enters.kind_eq {f : FunctionId} (h : g.Enters op f) : op.kind = .call := by
  obtain ⟨callee, -, hcallee, -⟩ := h
  exact Operation.kind_eq_of_callee? hcallee

theorem Closed.mem_escaped_iff_escapes (hg : g.Closed) {n : Nat} :
    n ∈ g.escaped ↔ g.Escapes n := by
  rw [hg.mem_escaped, Option.any_eq_true, Escapes]
  simp only [Bool.not_eq_true']

end Graph

namespace Program

variable (program : Program) (g : Graph)

/-- The nodes that a call gets at apart from its callees: those it hands over and, unless its
callees are fully known, unknown memory, external memory and what escapes. -/
def Local (c : Operation) (n : Nat) : Prop :=
  program.Hands g c n ∨
    ¬ g.FullyKnown c ∧ (n = Graph.unknown ∨ n = Graph.external ∨ g.Escapes n)

/-- A call in the body of the first function may go to the second one. -/
def Leads (f f' : FunctionId) : Prop :=
  ∃ caller ∈ program.functions.toList, caller.id = f ∧ ∃ m ∈ caller.body.toList, g.Enters m f'

end Program

namespace Encoding

variable {v : View} {program encoded : Program} {d : Draft} {op : Operation} {x : Channel}

namespace View

/-- The channels of a call apart from its callees. -/
def LocalChannel (v : View) (program : Program) (c : Operation) (x : Channel) : Prop :=
  ∃ n, program.Local v.graph c n ∧ v.policy.channelOf n = .ok x

/-- What a function has of its own: what its memory operations other than calls use and define,
and the channels of its calls apart from their callees. -/
def BaseChannel (v : View) (program encoded : Program) (f : FunctionId) (x : Channel) : Prop :=
  ∃ fn ∈ program.functions.toList, fn.id = f ∧ ∃ m ∈ fn.body.toList,
    (m.kind.touchesMemory = true ∧ m.kind ≠ .call ∧
      ∃ uses defs, encoded.HasState m (.encoded uses defs) ∧ x ∈ uses.union defs) ∨
    m.kind = .call ∧ v.LocalChannel program m x

/-- The live set of a call: its own channels, and what the functions that it
leads to have of theirs. -/
def LiveChannel (v : View) (program encoded : Program) (c : Operation) (x : Channel) : Prop :=
  v.LocalChannel program c x ∨
    ∃ f f', v.graph.Enters c f ∧ Relation.ReflTransGen (program.Leads v.graph) f f' ∧
      v.BaseChannel program encoded f' x

/-! ## Calls that were looked up -/

variable {caller : FunctionId} {c : Call}

theorem mem_callees_iff (h : v.call program caller op = .ok c) {f : FunctionId} :
    f ∈ c.callees ↔ v.graph.Enters op f := by
  obtain ⟨callee, r, passed, hof⟩ := call_eq_ok.1 h
  have hr := register_eq_ok.1 hof.register_eq
  simp only [hof.callees_eq, List.mem_filterMap, function?_eq_some, Graph.Enters]
  constructor
  · rintro ⟨n, hn, hshows⟩
    exact ⟨callee, n, hof.callee?_eq, (mem_targets_value hr).2 hn, hshows⟩
  · rintro ⟨callee', n, hcallee', hn, hshows⟩
    obtain rfl := Option.some_injective _ (hof.callee?_eq.symm.trans hcallee')
    exact ⟨n, (mem_targets_value hr).1 hn, hshows⟩

theorem widened_iff_not_fullyKnown (h : v.call program caller op = .ok c) :
    c.widened = true ↔ ¬ v.graph.FullyKnown op := by
  obtain ⟨callee, r, passed, hof⟩ := call_eq_ok.1 h
  rw [hof.widened_eq, widened_iff_function? (register_eq_ok.1 hof.register_eq)]
  simp only [function?_eq_some, Graph.FullyKnown, hof.callee?_eq, Option.some.injEq,
    exists_eq_left']

theorem mem_locals_iff (hg : v.graph.Closed) (hcall : op.kind = .call)
    (h : v.call program caller op = .ok c) : x ∈ c.locals ↔ v.LocalChannel program op x := by
  obtain ⟨callee, r, passed, hof⟩ := call_eq_ok.1 h
  have hknown := widened_iff_not_fullyKnown h
  simp only [LocalChannel, Program.Local, or_and_right,
    exists_or, ← mem_passed hg hcall hof.passed_eq]
  cases hwide : c.widened with
  | false =>
      have hfully : v.graph.FullyKnown op := by simpa [hwide] using hknown
      rw [hof.exact hwide]
      simp [hfully]
  | true =>
      obtain ⟨outside, houtside, hlocals⟩ := hof.widened hwide
      rw [hlocals, IndexSet.mem_union, mem_outside houtside]
      simp only [hknown.1 hwide, Graph.Open, hg.mem_escaped_iff_escapes,
        not_false_eq_true, true_and]

end View

/-! ## The parts of an encoding -/

/-- The calls that were gathered are those between functions. -/
theorem Gathered.edge_iff_leads (hd : Gathered v program (entries program) d)
    {i j : FunctionId} :
    Edge d.callEdges i j ↔ program.Leads v.graph i j := by
  constructor
  · rintro ⟨callees, hmem, hj⟩
    obtain ⟨c, hc, heq⟩ := List.mem_map.1 hmem
    obtain ⟨rfl, rfl⟩ := Prod.mk.inj heq
    obtain ⟨⟨id, m⟩, he, -, hok⟩ := hd.calls.1 hc
    obtain ⟨f, hf, hid, hm⟩ := mem_entries.1 he
    obtain ⟨callee, r, passed, hof⟩ := View.call_eq_ok.1 hok
    exact ⟨f, hf, hid.trans hof.caller_eq.symm, m, hm, (View.mem_callees_iff hok).1 hj⟩
  · rintro ⟨f, hf, rfl, m, hm, henters⟩
    have he : (f.id, m) ∈ entries program := mem_entries.2 ⟨f, hf, rfl, hm⟩
    obtain ⟨c, hok⟩ := hd.called _ he henters.kind_eq
    obtain ⟨callee, r, passed, hof⟩ := View.call_eq_ok.1 hok
    have hc : c ∈ d.calls := hd.calls.2 ⟨_, he, henters.kind_eq, hok⟩
    exact ⟨c.callees, List.mem_map.2 ⟨c, hc, by rw [hof.caller_eq]⟩,
      (View.mem_callees_iff hok).2 henters⟩

/-- One gathered operation adds to the widened calls if it is a call
that is not fully known. -/
theorem countP_widened_gather {f : FunctionId} {d' : Draft}
    (h : gather v program f d op = .ok d') :
    d'.calls.countP (·.widened) =
      d.calls.countP (·.widened) +
        if op.kind = .call ∧ ¬ v.graph.FullyKnown op then 1 else 0 := by
  unfold gather at h
  split at h
  · next hmemory =>
      obtain rfl := Except.ok.inj h
      have hcall : op.kind ≠ .call :=
        fun hcall => by simp [hcall, Operation.Kind.touchesMemory] at hmemory
      simp [hcall]
  split at h
  · next hcall =>
      simp only [bind_eq_ok, pure_eq_ok] at h
      obtain ⟨c, hc, d₁, hd₁, rfl⟩ := h
      obtain ⟨-, rfl⟩ := Draft.summarize_eq_ok hd₁
      simp [List.countP_append, List.countP_singleton,
        View.widened_iff_not_fullyKnown hc, hcall]
  · next hcall =>
      simp only [bind_eq_ok, pure_eq_ok] at h
      obtain ⟨a, -, d₁, hd₁, rfl⟩ := h
      obtain ⟨-, rfl⟩ := Draft.summarize_eq_ok hd₁
      simp [hcall]

/-- The widened calls are those that are not fully known. -/
theorem countP_widened_gatherAll (h : gatherAll v program = .ok d) :
    d.calls.countP (·.widened) =
    program.operations.countP fun op => op.kind = .call ∧ ¬ v.graph.FullyKnown op := by
  have hbody : ∀ (done ops : List Operation) (d d' : Draft) (f : FunctionId),
      d.calls.countP (·.widened) =
        done.countP (fun op => op.kind = .call ∧ ¬ v.graph.FullyKnown op) →
      ops.foldlM (gather v program f) d = .ok d' → d'.calls.countP (·.widened) =
        (done ++ ops).countP fun op => op.kind = .call ∧ ¬ v.graph.FullyKnown op :=
    fun done ops d d' f hd hok => foldlM_prefix (k := done)
      (I := fun done (d : Draft) => d.calls.countP (·.widened) =
        done.countP fun op => op.kind = .call ∧ ¬ v.graph.FullyKnown op)
      (fun done d op d' hd hok => by
        rw [countP_widened_gather hok, hd, List.countP_append, List.countP_singleton]
        simp only [decide_eq_true_eq]) hd hok
  refine foldlM_prefix (k := []) (I := fun (fs : List FunctionDef) (d : Draft) =>
      d.calls.countP (·.widened) = (fs.flatMap (·.body.toList)).countP fun op =>
        op.kind = .call ∧ ¬ v.graph.FullyKnown op)
    (fun fs d f d' hd hok => ?_) (by simp) h
  rw [List.flatMap_append, List.flatMap_singleton]
  exact hbody _ _ _ _ _ hd hok

namespace Encodes

variable {rounds : Nat} {summaries : Array IndexSet} {live : List Access}
  (h : Encodes v program d rounds summaries live encoded)

include h

/-- An access that was written is the state of its operation. -/
theorem hasState (hp : program.Coherent) {a : Access} (ha : a ∈ d.accesses ++ live)
    (hop : op ∈ program.operations) (hid : a.operation = op.id) :
    encoded.HasState op (.encoded a.uses a.defs) := by
  have hnodup : ((d.accesses ++ live).map Access.operation).Nodup :=
    h.operations_perm.nodup_iff.2
      (hp.nodup_operations.sublist ((List.filter_sublist ..).map Operation.id))
  obtain ⟨q, hok, -, hwritten⟩ := Program.foldlM_setState hp (fun q => q) Access.operation
    (fun a => .encoded a.uses a.defs) (l := d.accesses ++ live)
    (f := fun p a => p.setState a.operation (.encoded a.uses a.defs)) (fun a ha => by
      have hmem := h.operations_perm.subset (List.mem_map_of_mem ha)
      obtain ⟨op, hop, hid⟩ := List.mem_map.1 hmem
      exact ⟨op, List.mem_of_mem_filter hop, hid⟩)
    (fun _ q _ _ hset => ⟨q, hset, rfl⟩) (Program.restates_self hp)
  obtain rfl := Except.ok.inj (h.written.symm.trans hok)
  refine hwritten op hop _ (fun b hb hid' => ?_) (.inr ⟨a, ha, hid⟩)
  -- an operation is written once
  rw [List.inj_on_of_nodup_map hnodup hb ha (hid'.trans hid.symm)]

/-- A memory operation other than a call has the state of its access. -/
theorem hasState_access (hp : program.Coherent) (hop : op ∈ program.operations)
    (hmemory : op.kind.touchesMemory = true) (hcall : op.kind ≠ .call) :
    ∃ a, v.access op = .ok a ∧ encoded.HasState op (.encoded a.uses a.defs) := by
  have hd := gatherAll_gathered h.gathered
  obtain ⟨f, hf, hbody⟩ := List.mem_flatMap.1 hop
  have he : (f.id, op) ∈ entries program := mem_entries.2 ⟨f, hf, rfl, hbody⟩
  obtain ⟨a, ha⟩ := hd.accessed _ he hmemory hcall
  have hmem : a ∈ d.accesses := hd.accesses.2 ⟨_, he, hmemory, hcall, ha⟩
  exact ⟨a, ha, h.hasState hp (List.mem_append_left _ hmem) hop (View.access_eq_ok ha).1⟩

/-- What operations of a function touch themselves is what the function has of its own. -/
theorem baseChannel_iff (hp : program.Coherent) (hg : v.graph.Closed) {f : FunctionId} :
    v.BaseChannel program encoded f x ↔ f ∈ holders d.summaries x := by
  have hd := gatherAll_gathered h.gathered
  rw [hd.summaries]
  constructor
  · rintro ⟨fn, hfn, rfl, m, hm, hx⟩
    have he : (fn.id, m) ∈ entries program := mem_entries.2 ⟨fn, hfn, rfl, hm⟩
    refine ⟨_, he, rfl, ?_⟩
    rcases hx with ⟨hmemory, hcall, uses, defs, hstate, hx⟩ | ⟨hcall, hx⟩
    · obtain ⟨a, ha, hstate'⟩ :=
        h.hasState_access hp (List.mem_flatMap.2 ⟨fn, hfn, hm⟩) hmemory hcall
      obtain ⟨rfl, rfl⟩ := MemoryState.encoded.inj (hstate.unique hstate')
      exact (View.touches_access hmemory hcall ha).2 hx
    · obtain ⟨c, hc⟩ := hd.called _ he hcall
      exact (View.touches_call hcall hc).2 ((View.mem_locals_iff hg hcall hc).2 hx)
  · rintro ⟨⟨_, m⟩, he, rfl, htouches⟩
    obtain ⟨fn, hfn, hid, hm⟩ := mem_entries.1 he
    refine ⟨fn, hfn, hid, m, hm, ?_⟩
    rcases htouches with ⟨hmemory, hcall, a, ha, hx⟩ | ⟨hcall, caller, c, hc, hx⟩
    · obtain ⟨a', ha', hstate⟩ :=
        h.hasState_access hp (List.mem_flatMap.2 ⟨fn, hfn, hm⟩) hmemory hcall
      obtain rfl := Except.ok.inj (ha.symm.trans ha')
      exact .inl ⟨hmemory, hcall, _, _, hstate, hx⟩
    · exact .inr ⟨hcall, (View.mem_locals_iff hg hcall hc).1 hx⟩

/-- What a call has of its own and of the closed summaries is its live set. -/
theorem liveChannel_iff (hp : program.Coherent) (hg : v.graph.Closed) (hcall : op.kind = .call)
    {caller : FunctionId} {c : Call} (hc : v.call program caller op = .ok c) :
    v.LiveChannel program encoded op x ↔
      x ∈ c.locals ∨ ∃ f ∈ c.callees, f ∈ holders summaries x := by
  have hd := gatherAll_gathered h.gathered
  obtain ⟨-, hclosed⟩ :=
    mem_of_closeSummaries (gatherAll_collected h.gathered).lt_size_of_edge h.closed
  have hedges : Edge d.callEdges = program.Leads v.graph := by
    funext i j
    exact propext hd.edge_iff_leads
  rw [View.LiveChannel, View.mem_locals_iff hg hcall hc]
  simp only [View.mem_callees_iff hc, hclosed, hedges, h.baseChannel_iff hp hg,
    exists_and_left]

/-- A call has its live set, or the channel of unknown memory if that is empty. -/
theorem hasState_call (hp : program.Coherent) (hg : v.graph.Closed)
    (hop : op ∈ program.operations) (hcall : op.kind = .call) :
    ∃ found, encoded.HasState op (.encoded found found) ∧
      (((∃ y, v.LiveChannel program encoded op y) ∧
          ∀ x, x ∈ found ↔ v.LiveChannel program encoded op x) ∨
        (¬ ∃ y, v.LiveChannel program encoded op y) ∧
          ∃ x, v.policy.channelOf Graph.unknown = .ok x ∧ found = .singleton x) := by
  have hd := gatherAll_gathered h.gathered
  obtain ⟨f, hf, hbody⟩ := List.mem_flatMap.1 hop
  have he : (f.id, op) ∈ entries program := mem_entries.2 ⟨f, hf, rfl, hbody⟩
  obtain ⟨c, hc⟩ := hd.called _ he hcall
  have hmem : c ∈ d.calls := hd.calls.2 ⟨_, he, hcall, hc⟩
  obtain ⟨callee, r, passed, hof⟩ := View.call_eq_ok.1 hc
  obtain ⟨a, ha⟩ : ∃ a, liveAccess v summaries c = .ok a := exists_of_mapM h.calls hmem
  have hstate :=
    h.hasState hp (List.mem_append_right _ ((mem_of_mapM h.calls).2 ⟨c, hmem, ha⟩)) hop
      ((liveAccess_eq_ok ha).1.trans hof.operation_eq)
  obtain ⟨⟨found, fallbacks⟩, hlive, rfl⟩ := map_eq_ok.1 ha
  obtain ⟨⟨y, hy⟩, hfound⟩ := mem_of_liveSet hlive
  simp only [← h.liveChannel_iff hp hg hcall hc] at hfound
  refine ⟨found, hstate, ?_⟩
  by_cases hsome : ∃ y, v.LiveChannel program encoded op y
  · refine .inl ⟨hsome, fun x => ?_⟩
    simp [hfound, hsome]
  · have hunknown : ∀ x, x ∈ found ↔ v.policy.channelOf Graph.unknown = .ok x := by
      intro x
      rw [hfound, and_iff_right hsome]
      exact or_iff_right fun hx => hsome ⟨x, hx⟩
    refine .inr ⟨hsome, y, (hunknown y).1 hy, IndexSet.ext_mem fun x => ?_⟩
    rw [hunknown, (hunknown y).1 hy, IndexSet.mem_singleton, Except.ok.injEq, eq_comm]

end Encodes

/-- **An encoding that goes through gives every call exactly its live set**, and counts the
calls that are not fully known.  A live set that would be empty is that of unknown memory. -/
theorem encode_live_sets {commands : List Command} {policy : Channel.Policy} {graph : Graph}
    {stats : Stats} (hbuild : Program.build? commands = .ok program) (hgraph : graph.Closed)
    (hok : encode policy graph program = .ok (stats, encoded)) :
    (∀ m ∈ program.operations, m.kind.touchesMemory = true → m.kind ≠ .call →
      ∃ uses defs, encoded.HasState m (.encoded uses defs)) ∧
    (∀ c ∈ program.operations, c.kind = .call →
      ∃ live, encoded.HasState c (.encoded live live) ∧
      (((∃ y, View.LiveChannel ⟨graph, policy⟩ program encoded c y) ∧
          ∀ x, x ∈ live ↔ View.LiveChannel ⟨graph, policy⟩ program encoded c x) ∨
        (¬ ∃ y, View.LiveChannel ⟨graph, policy⟩ program encoded c y) ∧
          ∃ x, policy.channelOf Graph.unknown = .ok x ∧ live = .singleton x)) ∧
    stats.callsWidened =
      program.operations.countP fun c => c.kind = .call ∧ ¬ graph.FullyKnown c := by
  have hp := Program.coherent_of_build? hbuild
  obtain ⟨d, rounds, summaries, live, h, rfl⟩ :=
    (encode_eq_ok_iff (v := ⟨graph, policy⟩)).1 hok
  refine ⟨fun m hm hmemory hcall => ?_, fun c hc hcall => h.hasState_call hp hgraph hc hcall,
    countP_widened_gatherAll h.gathered⟩
  obtain ⟨a, -, hstate⟩ := h.hasState_access hp hm hmemory hcall
  exact ⟨_, _, hstate⟩

/-- Two functions that call each other, one that does nothing, and calls of the first one, of
the last one and of what is no function. -/
def parityCommands : List Command :=
  [.declareFunction "even" [.pointer], .declareFunction "odd" [.pointer],
    .declareFunction "main" [], .declareFunction "idle" [], .store 0 1 1, .call 0 2 [1] [],
    .load 1 3 .pointer, .call 1 0 [] [], .alloca 2 "slot", .call 2 0 [7] [], .call 2 7 [] [],
    .call 2 5 [] []]

/-- A graph for them, in which one object points to itself and another one escapes. -/
def parityEdits : List Graph.Edit :=
  [.addRegister 0 "even", .addRegister 1 "even.0", .addRegister 2 "odd",
    .addRegister 3 "odd.0", .addRegister 5 "idle", .addRegister 7 "slot",
    .addMemory .allocator "even" (.function 0), .addMemory .allocator "odd" (.function 1),
    .addMemory .allocator "idle" (.function 3), .addMemory .alloca "slot" (.operation 4),
    .addMemory .malloc "a" .synthetic, .addMemory .malloc "b" .synthetic,
    .addEdge ⟨0, 2⟩ ⟨0, 8⟩, .addEdge ⟨0, 4⟩ ⟨0, 9⟩, .addEdge ⟨0, 6⟩ ⟨0, 10⟩,
    .addEdge ⟨0, 7⟩ ⟨0, 11⟩, .addEdge ⟨0, 3⟩ ⟨0, 12⟩, .addEdge ⟨0, 5⟩ ⟨0, 13⟩,
    .addEdge ⟨0, 12⟩ ⟨0, 12⟩, .addEdge ⟨0, 1⟩ ⟨0, 13⟩]

/-- The call of the first function has its own slot and the objects of both functions; the call
of what is no function has the sentinels and what escapes. -/
theorem encode_live_sets_parityCommands : ∃ program graph policy stats encoded,
    Program.build? parityCommands = .ok program ∧ (Graph.new 0).edit parityEdits = .ok graph ∧
    Channel.Policy.create .perObject graph 0 = .ok policy ∧
    encode policy graph program = .ok (stats, encoded) ∧
    (∃ c ∈ program.operations, c.kind = .call ∧ graph.FullyKnown c ∧ ∀ x,
      View.LiveChannel ⟨graph, policy⟩ program encoded c x ↔ x ∈ IndexSet.ofList [0, 1, 2]) ∧
    (∃ c ∈ program.operations, c.kind = .call ∧ ¬ graph.FullyKnown c ∧ ∀ x,
      View.LiveChannel ⟨graph, policy⟩ program encoded c x ↔ x ∈ IndexSet.ofList [2, 6, 7]) ∧
    (program.operations.countP fun c => c.kind = .call ∧ ¬ graph.FullyKnown c) = 1 := by
  have hrun : (do
      let program ← (Program.build? parityCommands).toOption
      let graph ← ((Graph.new 0).edit parityEdits).toOption
      let policy ← (Channel.Policy.create .perObject graph 0).toOption
      let run ← (encode policy graph program).toOption
      return decide ((∃ c ∈ program.operations, c.kind = .call ∧ graph.FullyKnown c ∧
          run.2.HasState c (.encoded (.ofList [0, 1, 2]) (.ofList [0, 1, 2]))) ∧
        (∃ c ∈ program.operations, c.kind = .call ∧ ¬ graph.FullyKnown c ∧
          run.2.HasState c (.encoded (.ofList [2, 6, 7]) (.ofList [2, 6, 7]))) ∧
        run.1.callsWidened = 1)) = some true := by decide +kernel
  simp only [Option.bind_eq_bind, Option.bind_eq_some_iff, toOption_eq_some, Option.pure_def,
    Option.some.injEq, decide_eq_true_eq, Prod.exists] at hrun
  obtain ⟨program, hbuild, graph, hgraph, policy, hpolicy, stats, encoded, hencode,
    ⟨c, hc, hcall, hknown, hstate⟩, ⟨c', hc', hcall', hknown', hstate'⟩, hwidened⟩ := hrun
  obtain ⟨-, hlive, hcount⟩ :=
    encode_live_sets hbuild (Graph.consistent_of_edit hgraph).closed hencode
  -- a live set of several channels is not that of unknown memory
  have hexact : ∀ {c : Operation} {found : IndexSet}, c ∈ program.operations → c.kind = .call →
      encoded.HasState c (.encoded found found) → (∀ x, found ≠ .singleton x) →
      ∀ x, View.LiveChannel ⟨graph, policy⟩ program encoded c x ↔ x ∈ found := by
    intro c found hc hcall hstate hne x
    obtain ⟨live, hstate', ⟨-, hmem⟩ | ⟨-, y, -, hsingle⟩⟩ := hlive c hc hcall
    all_goals obtain ⟨rfl, -⟩ := MemoryState.encoded.inj (hstate.unique hstate')
    · exact (hmem x).symm
    · exact absurd hsingle (hne y)
  have hne :
      ∀ (a b : Nat) (rest : List Nat) (found : IndexSet), found.toList = a :: b :: rest →
      ∀ x, found ≠ .singleton x := by
    intro a b rest found hfound x hsingle
    rw [hsingle] at hfound
    simp [IndexSet.singleton] at hfound
  exact ⟨program, graph, policy, stats, encoded, hbuild, hgraph, hpolicy, hencode,
    ⟨c, hc, hcall, hknown, hexact hc hcall hstate (hne 0 1 [2] _ rfl)⟩,
    ⟨c', hc', hcall', hknown', hexact hc' hcall' hstate' (hne 2 6 [7] _ rfl)⟩,
    hcount ▸ hwidened⟩

end Encoding
end PointerChannels
