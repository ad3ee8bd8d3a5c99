import PointerChannels.Proofs.Analysis.Escape
import PointerChannels.Proofs.Encoding.Cover
import PointerChannels.Proofs.Encoding.Order

/-!
# Calls out of the unit

A call whose callees are not fully known may run code outside the unit, and that code may call
back into the unit.  Such a call has the channels of all memory that outside code can get at:
unknown memory, external memory and what has escaped.  So a callback is ordered against the
call in all memory that is open to the outside.  What a callback touches of memory that has not
escaped the call need not have: for that it takes a way of its own, through its arguments and
results or through the functions it is known to lead to.

## Main definitions

* `Graph.Open` — memory that code outside can get at.
* `Graph.CallsOut` — a call that may leave the unit.
* `Program.Accesses`, `Program.Involves` — the nodes an operation gets at,
  itself or through calls.

## Main statements

* `View.Ready.touches_iff`, `View.Ready.depends_iff` — channels are
  those of the nodes involved.
* `encode_covers_callbacks` — when a call out of the unit has the
  channels of another operation.
-/

namespace PointerChannels

/-! ## Nodes that operations get at -/

namespace Graph

variable {g : Graph} {op : Operation} {n : Nat}

/-- Memory that code outside the unit can get at. -/
def Open (g : Graph) (n : Nat) : Prop := n = unknown ∨ n = external ∨ n ∈ g.escaped

/-- The operation is a call whose callee refers to nothing, or to something that is no
function of the unit. -/
def CallsOut (g : Graph) (op : Operation) : Prop :=
  ∃ callee, op.callee? = some callee ∧ ¬ ((g.targets.value callee).Nonempty ∧
    ∀ n ∈ g.targets.value callee, g.kindOf? n = some .allocator)

instance (g : Graph) (op : Operation) : Decidable (g.CallsOut op) :=
  decidable_of_iff (op.callee?.any (fun callee => !(g.register? callee).any fun r =>
      !(g.targetsOf r).isEmpty && (g.targetsOf r).toList.all fun n =>
        decide (g.kindOf? n = some .allocator)) = true) <| by
    simp only [Option.any_eq_true, CallsOut, Bool.not_eq_true', ← Bool.not_eq_true]
    refine exists_congr fun callee => and_congr_right fun _ => not_congr ?_
    cases hr : g.register? callee with
    | none => simp [targets, hr, Set.Nonempty]
    | some r =>
        simp [targets, hr, Set.Nonempty, ← Bool.not_eq_true, IndexSet.isEmpty_iff,
          List.all_eq_true]

theorem CallsOut.kind_eq (h : g.CallsOut op) : op.kind = .call := by
  obtain ⟨callee, hcallee, -⟩ := h
  exact Operation.kind_eq_of_callee? hcallee

end Graph

namespace Program

variable (program : Program) (g : Graph) (op : Operation)

/-- Memory that a call hands over: the addresses it passes or returns lead to it. -/
def Hands (n : Nat) : Prop :=
  op.kind = .call ∧ ∃ w ∈ op.arguments ++ op.outputs, program.IsPointer w ∧
    ∃ m ∈ g.targets.value w, g.Reaches m n

/-- The nodes that an operation gets at itself: those it reads or writes, and for a call those
it hands over and, if it may leave the unit, all open memory. -/
def Accesses (n : Nat) : Prop :=
  (g.Reads op n ∨ g.WritesTo op n) ∨ program.Hands g op n ∨ g.CallsOut op ∧ g.Open n

/-- The nodes that an operation gets at itself or through the functions that it leads to. -/
def Involves (n : Nat) : Prop :=
  program.Accesses g op n ∨
    ∃ f, program.Reaches g op f ∧ ∃ m ∈ f.body.toList, program.Accesses g m n

end Program

namespace Encoding

variable {v : View} {program : Program} {op : Operation} {x : Channel}

/-! ## Channels of calls -/

/-- An address leads to the channels of the nodes that its targets lead to. -/
theorem View.mem_reachable (hg : v.graph.Closed) {value : ValueId} {found : IndexSet}
    (h : v.reachable value = .ok found) : x ∈ found ↔
      ∃ n, (∃ m ∈ v.graph.targets.value value, v.graph.Reaches m n) ∧
        v.policy.channelOf n = .ok x := by
  simp only [reachable, bind_eq_ok, targets_eq_ok] at h
  obtain ⟨_, ⟨r, hr, -, rfl⟩, _, hwalk, hfound⟩ := h
  obtain rfl := Graph.walkFrom_eq_ok hwalk
  simp only [mem_channels hfound, hg.mem_reachableFrom,
    mem_targets_value (register_eq_ok.1 hr)]

/-- Several values lead to the channels that those of them that hold addresses lead to. -/
theorem View.mem_reachableAll {values : List ValueId} {found : IndexSet}
    (h : v.reachableAll program values = .ok found) :
    (∀ w ∈ values, program.IsPointer w → ∃ led, v.reachable w = .ok led) ∧
      (x ∈ found ↔ ∃ w ∈ values, program.IsPointer w ∧ ∃ led, v.reachable w = .ok led ∧
        x ∈ led) := by
  -- the channels found so far are carried along, so the induction is for any start
  have hfrom : ∀ (values : List ValueId) (s : IndexSet),
      values.foldlM (fun channels value => do
        let found ← program.value value
        if found.isPointer then
          return channels.union (← v.reachable value)
        else
          return channels) s = .ok found →
      (∀ w ∈ values, program.IsPointer w → ∃ led, v.reachable w = .ok led) ∧
        (x ∈ found ↔ x ∈ s ∨
          ∃ w ∈ values, program.IsPointer w ∧ ∃ led, v.reachable w = .ok led ∧ x ∈ led) := by
    intro values
    induction values with
    | nil =>
        intro s h
        obtain rfl := pure_eq_ok.1 h
        simp
    | cons w values ih =>
        intro s h
        rw [List.foldlM_cons, bind_eq_ok] at h
        obtain ⟨t, ht, h⟩ := h
        obtain ⟨y, hy, ht⟩ := bind_eq_ok.1 ht
        obtain ⟨hled, hmem⟩ := ih t h
        have hpointer : program.IsPointer w ↔ y.isPointer = true := by
          rw [Program.IsPointer, entryAt_eq_ok.1 hy, Option.map_some, Option.some.injEq]
        rw [List.forall_mem_cons]
        simp only [hmem, List.mem_cons, or_and_right, exists_or,
          exists_eq_left, ← or_assoc, hpointer]
        split at ht
        · next hp =>
            obtain ⟨led, hreachable, ht⟩ := bind_eq_ok.1 ht
            obtain rfl := pure_eq_ok.1 ht
            exact ⟨⟨fun _ => ⟨led, hreachable⟩, hled⟩,
              or_congr_left (by simp [hp, hreachable])⟩
        · next hp =>
            obtain rfl := pure_eq_ok.1 ht
            exact ⟨⟨fun h => absurd h hp, hled⟩, or_congr_left (by simp [hp])⟩
  simpa using hfrom values .empty h

/-- Code outside has the channels of open memory. -/
theorem View.mem_outside {found : IndexSet} (h : v.outside = .ok found) :
    x ∈ found ↔ ∃ n, v.graph.Open n ∧ v.policy.channelOf n = .ok x := by
  obtain ⟨-, -, h⟩ := bind_eq_ok.1 h
  simp only [mem_channels h, List.mem_cons, IndexSet.mem_toList, Graph.Open]

/-! ## Channels and nodes -/

/-- What the addresses of a call lead to is what it hands over. -/
theorem View.mem_passed (hg : v.graph.Closed) (hcall : op.kind = .call) {passed : IndexSet}
    (h : v.reachableAll program (op.arguments ++ op.outputs) = .ok passed) :
    x ∈ passed ↔ ∃ n, program.Hands v.graph op n ∧ v.policy.channelOf n = .ok x := by
  obtain ⟨hfound, hmem⟩ := mem_reachableAll (x := x) h
  rw [hmem]
  constructor
  · rintro ⟨w, hw, hpointer, led, hled, hx⟩
    obtain ⟨n, hn, hchannel⟩ := (mem_reachable hg hled).1 hx
    exact ⟨n, ⟨hcall, w, hw, hpointer, hn⟩, hchannel⟩
  · rintro ⟨n, ⟨-, w, hw, hpointer, hn⟩, hchannel⟩
    obtain ⟨led, hled⟩ := hfound w hw hpointer
    exact ⟨w, hw, hpointer, led, hled, (mem_reachable hg hled).2 ⟨n, hn, hchannel⟩⟩

/-- The calls that are widened are those that may leave the unit. -/
theorem View.Ready.widened_iff_callsOut (hv : v.Ready program) {caller : FunctionId} {c : Call}
    {callee : ValueId} {r : Nat} {passed : IndexSet}
    (h : v.CallOf program caller op c callee r passed) :
    c.widened = true ↔ v.graph.CallsOut op := by
  rw [h.widened_eq, hv.widened_iff (register_eq_ok.1 h.register_eq)]
  constructor
  · exact fun hunknown => ⟨callee, h.callee?_eq, hunknown⟩
  · rintro ⟨callee', hcallee', hunknown⟩
    rwa [Option.some_injective _ (h.callee?_eq.symm.trans hcallee')]

/-- A call touches what it hands over and, if it may leave the unit, what is open. -/
theorem View.Ready.touches_call_iff (hv : v.Ready program) (hop : op ∈ program.operations)
    (hcall : op.kind = .call) : v.Touches program op x ↔
      ∃ n, program.Accesses v.graph op n ∧ v.policy.channelOf n = .ok x := by
  obtain ⟨c, hc, -⟩ := hv.call_ok hop hcall 0
  obtain ⟨callee, r, passed, hof⟩ := call_eq_ok.1 hc
  have haccess : ∀ n, program.Accesses v.graph op n ↔
      program.Hands v.graph op n ∨ v.graph.CallsOut op ∧ v.graph.Open n := by
    intro n
    simp [Program.Accesses, Graph.Reads, Graph.WritesTo, hcall]
  simp only [touches_call hcall hc, haccess, or_and_right, exists_or,
    ← mem_passed hv.serves.closed hcall hof.passed_eq]
  cases hwide : c.widened with
  | false =>
      have hout : ¬ v.graph.CallsOut op := by simp [← hv.widened_iff_callsOut hof, hwide]
      rw [hof.exact hwide]
      simp [hout]
  | true =>
      obtain ⟨outside, houtside, hlocals⟩ := hof.widened hwide
      rw [hlocals, IndexSet.mem_union, mem_outside houtside]
      simp [(hv.widened_iff_callsOut hof).1 hwide]

/-- Only memory operations get at memory. -/
theorem touchesMemory_of_accesses {g : Graph} {n : Nat} (h : program.Accesses g op n) :
    op.kind.touchesMemory = true := by
  rcases h with (hreads | hwrites) | ⟨hcall, -⟩ | ⟨hout, -⟩
  · unfold Graph.Reads at hreads
    cases hk : op.kind <;> simp_all [Operation.Kind.touchesMemory]
  · unfold Graph.WritesTo at hwrites
    cases hk : op.kind <;> simp_all [Operation.Kind.touchesMemory]
  · rw [hcall]
    rfl
  · rw [hout.kind_eq]
    rfl

/-- **An operation touches the channels of the nodes that it gets at.** -/
theorem View.Ready.touches_iff (hv : v.Ready program) (hop : op ∈ program.operations) :
    v.Touches program op x ↔
      ∃ n, program.Accesses v.graph op n ∧ v.policy.channelOf n = .ok x := by
  by_cases hmemory : op.kind.touchesMemory = true
  · by_cases hcall : op.kind = .call
    · exact hv.touches_call_iff hop hcall
    · obtain ⟨a, ha, -⟩ := hv.access_ok hop hmemory hcall
      have htraces := hv.traces_access hop hmemory hcall ha
      have hout : ¬ v.graph.CallsOut op := fun h => hcall h.kind_eq
      rw [touches_access hmemory hcall ha, IndexSet.mem_union, htraces.uses, htraces.defs]
      simp [Program.Accesses, Program.Hands, hcall, hout, or_and_right, exists_or]
  · constructor
    · exact fun h => absurd h.touchesMemory hmemory
    · rintro ⟨n, hn, -⟩
      exact absurd (touchesMemory_of_accesses hn) hmemory

/-- **An operation depends on the channels of the nodes that it involves.** -/
theorem View.Ready.depends_iff (hv : v.Ready program) (hop : op ∈ program.operations) :
    v.Depends program op x ↔
      ∃ n, program.Involves v.graph op n ∧ v.policy.channelOf n = .ok x := by
  have hbelow : ∀ {f m}, program.Reaches v.graph op f → m ∈ f.body.toList →
      m ∈ program.operations := fun hf hm => List.mem_flatMap.2 ⟨_, hf.mem_functions, hm⟩
  rw [View.Depends, hv.touches_iff hop]
  constructor
  · rintro (⟨n, hn, hx⟩ | ⟨f, hf, m, hm, hx⟩)
    · exact ⟨n, .inl hn, hx⟩
    · obtain ⟨n, hn, hx⟩ := (hv.touches_iff (hbelow hf hm)).1 hx
      exact ⟨n, .inr ⟨f, hf, m, hm, hn⟩, hx⟩
  · rintro ⟨n, hn | ⟨f, hf, m, hm, hn⟩, hx⟩
    · exact .inl ⟨n, hn, hx⟩
    · exact .inr ⟨f, hf, m, hm, (hv.touches_iff (hbelow hf hm)).2 ⟨n, hn, hx⟩⟩

/-! ## Nodes are memory -/

/-- What leads on from memory is memory. -/
theorem View.Ready.isMemory_of_reaches (hv : v.Ready program) {m n : Nat}
    (hm : v.graph.IsMemory m) (h : v.graph.Reaches m n) : v.graph.IsMemory n := by
  cases h with
  | refl => exact hm
  | tail _ hstep => exact hv.serves.pointed hstep

theorem View.Ready.isMemory_of_open (hv : v.Ready program) {n : Nat} (h : v.graph.Open n) :
    v.graph.IsMemory n := by
  rcases h with rfl | rfl | h
  · exact hv.serves.unknown
  · exact hv.serves.external
  · obtain ⟨⟨m, hm, hpath⟩, -⟩ := hv.serves.closed.mem_escaped.1 h
    exact hv.isMemory_of_reaches (hv.serves.pointed hm) hpath

/-- What is read is memory. -/
theorem View.Ready.isMemory_of_reads (hv : v.Ready program) {n : Nat}
    (hn : v.graph.Reads op n) : v.graph.IsMemory n := by
  unfold Graph.Reads at hn
  cases hk : op.kind <;> simp only [hk] at hn
  case load | store | free =>
    obtain ⟨address, -, hn⟩ := hn
    exact hv.isMemory_of_standsFor hn
  case memcpy =>
    obtain ⟨target, source, -, -, hn⟩ := hn
    exact hn.elim hv.isMemory_of_standsFor hv.isMemory_of_standsFor

/-- What an operation involves is memory. -/
theorem View.Ready.isMemory_of_involves (hv : v.Ready program) (hop : op ∈ program.operations)
    {n : Nat} (h : program.Involves v.graph op n) : v.graph.IsMemory n := by
  have haccess : ∀ op ∈ program.operations, program.Accesses v.graph op n →
      v.graph.IsMemory n := by
    rintro op hop ((hreads | hwrites) | ⟨-, w, -, -, m, ⟨r, -, hm⟩, hpath⟩ | ⟨-, hopen⟩)
    · exact hv.isMemory_of_reads hreads
    · exact hv.isMemory_of_writesTo hwrites
    · exact hv.isMemory_of_reaches (hv.serves.pointed hm) hpath
    · exact hv.isMemory_of_open hopen
  rcases h with h | ⟨f, hf, m, hm, h⟩
  · exact haccess op hop h
  · exact haccess m (List.mem_flatMap.2 ⟨f, hf.mem_functions, hm⟩) h

/-! ## Callbacks -/

/-- **What a call out of the unit has of another operation.**  A call that may leave the
unit uses and defines the channels of the nodes that it involves, all open memory among
them.  So for any memory operation, such as one of a function that code outside may call
back, it has the channels of all open memory that the operation involves; and it has all
channels of the operation if it involves every node that the operation does.  With a channel
per object it has them only then. -/
theorem encode_covers_callbacks {commands : List Command} {config : Config.Analysis}
    {order : Inclusion.SetOrder} {result : Analysis.Result}
    {kind : Channel.PolicyKind} {limit : Nat} {policy : Channel.Policy}
    (hbuild : Program.build? commands = .ok program)
    (hok : Analysis.analyze config program order = .ok result)
    (hpolicy : Channel.Policy.create kind result.graph limit = .ok policy) :
    ∃ stats encoded, encode policy result.graph program = .ok (stats, encoded) ∧
      ∀ c ∈ program.operations, result.graph.CallsOut c → ∃ live,
        encoded.HasState c (.encoded live live) ∧
        (∀ x, x ∈ live ↔
          ∃ n, program.Involves result.graph c n ∧ policy.channelOf n = .ok x) ∧
        ∀ g ∈ program.functions.toList, ∀ m ∈ g.body.toList, m.kind.touchesMemory = true →
          ∃ uses defs, encoded.HasState m (.encoded uses defs) ∧
          (∀ n, program.Involves result.graph m n → result.graph.Open n →
            ∃ x, policy.channelOf n = .ok x ∧ x ∈ uses.union defs ∧ x ∈ live) ∧
          ((∀ n, program.Involves result.graph m n → program.Involves result.graph c n) →
            ∀ x ∈ uses.union defs, x ∈ live) ∧
          (kind = .perObject → (∀ x ∈ uses.union defs, x ∈ live) →
            ∀ n, program.Involves result.graph m n → program.Involves result.graph c n) := by
  have hp := Program.coherent_of_build? hbuild
  have hv := ready_of_analyze hp hok hpolicy
  obtain ⟨stats, encoded, hencode, hstates⟩ := encode_ok hp hv
  refine ⟨stats, encoded, hencode, fun c hc hout => ?_⟩
  obtain ⟨live, defs, hstate, hmem, heq⟩ := hstates c hc (by rw [hout.kind_eq]; rfl)
  obtain rfl := heq hout.kind_eq
  -- a call that may leave the unit is not mute
  have hmute : ¬ program.Mute result.graph c := by
    intro hmute
    obtain ⟨callee, hcallee, hunknown⟩ := hout
    obtain ⟨callee', hcallee', hknown⟩ := hmute.idle.known
    obtain rfl := Option.some_injective _ (hcallee.symm.trans hcallee')
    exact hunknown hknown
  have hlive : ∀ x, x ∈ live ↔
      ∃ n, program.Involves result.graph c n ∧ policy.channelOf n = .ok x := by
    intro x
    have hx := hmem x
    rw [IndexSet.mem_union, or_self, hv.depends_iff hc] at hx
    rw [hx]
    exact or_iff_left fun h => hmute h.1
  have hopen : ∀ n, result.graph.Open n → program.Involves result.graph c n :=
    fun n hn => .inl (.inr (.inr ⟨hout, hn⟩))
  refine ⟨live, hstate, hlive, fun g hg m hm hmemory => ?_⟩
  have hm : m ∈ program.operations := List.mem_flatMap.2 ⟨g, hg, hm⟩
  obtain ⟨uses, defs, hstate', hmem', -⟩ := hstates m hm hmemory
  refine ⟨uses, defs, hstate', fun n hn hnopen => ?_, fun hall x hx => ?_, ?_⟩
  · obtain ⟨x, hx⟩ := hv.channel (hv.isMemory_of_involves hm hn)
    exact ⟨x, hx, (hmem' x).2 (.inl ((hv.depends_iff hm).2 ⟨n, hn, hx⟩)),
      (hlive x).2 ⟨n, hopen n hnopen, hx⟩⟩
  · rcases (hmem' x).1 hx with hx | ⟨-, hx⟩
    · obtain ⟨n, hn, hx⟩ := (hv.depends_iff hm).1 hx
      exact (hlive x).2 ⟨n, hall n hn, hx⟩
    · exact (hlive x).2 ⟨Graph.unknown, hopen _ (.inl rfl), hx⟩
  · rintro rfl hcovers n hn
    obtain ⟨x, hx⟩ := hv.channel (hv.isMemory_of_involves hm hn)
    obtain ⟨n', hn', hx'⟩ := (hlive x).1
      (hcovers x ((hmem' x).2 (.inl ((hv.depends_iff hm).2 ⟨n, hn, hx⟩))))
    rwa [Channel.Policy.channelOf_inj hpolicy hx hx']

/-- A handler that is exported, with a slot of its own and a store through its parameter, and a
call of an imported function that passes the address of a slot. -/
def callbackCommands : List Command :=
  [.declareImport "ext", .declareFunction "handler" [.pointer], .declareFunction "main" [],
    .exportFunction 0, .alloca 0 "local", .store 0 2 0, .alloca 1 "slot", .call 1 0 [5] []]

/-- The encoding of the handler and of the call, with a channel per object. -/
theorem callbackCommands_run : ∃ program result policy stats encoded,
    Program.build? callbackCommands = .ok program ∧
    Analysis.analyze .default program = .ok result ∧
    Channel.Policy.create .perObject result.graph 0 = .ok policy ∧
    encode policy result.graph program = .ok (stats, encoded) ∧
    ∃ c ∈ program.operations, result.graph.CallsOut c ∧
      ∃ g ∈ program.functions.toList, (∃ node ∈ result.graph.escaped.toList,
        result.graph.memoryNode? (.function g.id) = some node) ∧
      ∃ slot ∈ g.body.toList, ∃ store ∈ g.body.toList, slot.kind.touchesMemory = true ∧
        store.kind.touchesMemory = true ∧
        encoded.HasState c (.encoded (.ofList [1, 2, 4, 5, 6]) (.ofList [1, 2, 4, 5, 6])) ∧
        encoded.HasState slot (.encoded .empty (.singleton 0)) ∧
        encoded.HasState store (.encoded (.ofList [1, 2, 4, 6]) (.ofList [1, 2, 4, 6])) := by
  have hrun : (do
      let program ← (Program.build? callbackCommands).toOption
      let result ← (Analysis.analyze .default program).toOption
      let policy ← (Channel.Policy.create .perObject result.graph 0).toOption
      let run ← (encode policy result.graph program).toOption
      return decide (∃ c ∈ program.operations, result.graph.CallsOut c ∧
        ∃ g ∈ program.functions.toList, (∃ node ∈ result.graph.escaped.toList,
          result.graph.memoryNode? (.function g.id) = some node) ∧
        ∃ slot ∈ g.body.toList, ∃ store ∈ g.body.toList, slot.kind.touchesMemory = true ∧
          store.kind.touchesMemory = true ∧
          run.2.HasState c (.encoded (.ofList [1, 2, 4, 5, 6]) (.ofList [1, 2, 4, 5, 6])) ∧
          run.2.HasState slot (.encoded .empty (.singleton 0)) ∧
          run.2.HasState store (.encoded (.ofList [1, 2, 4, 6]) (.ofList [1, 2, 4, 6])))) =
      some true := by decide +kernel
  simp only [Option.bind_eq_bind, Option.bind_eq_some_iff, toOption_eq_some, Option.pure_def,
    Option.some.injEq, decide_eq_true_eq, Prod.exists] at hrun
  obtain ⟨program, hbuild, result, hok, policy, hpolicy, stats, encoded, hencode, hstates⟩ := hrun
  exact ⟨program, result, policy, stats, encoded, hbuild, hok, hpolicy, hencode, hstates⟩

/-- The call involves all that the store does, but not the slot. -/
theorem encode_covers_callbacks_callbackCommands : ∃ program result policy stats encoded,
    Program.build? callbackCommands = .ok program ∧
    Analysis.analyze .default program = .ok result ∧
    Channel.Policy.create .perObject result.graph 0 = .ok policy ∧
    encode policy result.graph program = .ok (stats, encoded) ∧
    ∃ c ∈ program.operations, result.graph.CallsOut c ∧
      ∃ g ∈ program.functions.toList, ∃ slot ∈ g.body.toList, ∃ store ∈ g.body.toList,
        (∀ n, program.Involves result.graph store n → program.Involves result.graph c n) ∧
        ¬ ∀ n, program.Involves result.graph slot n → program.Involves result.graph c n := by
  obtain ⟨program, result, policy, stats, encoded, hbuild, hok, hpolicy, hencode, c,
    hc, hout, g, hg, -, slot, hslot, store, hstore, hmemory, hmemory', hstate,
    hstate₁, hstate₂⟩ :=
    callbackCommands_run
  obtain ⟨_, _, hencode', hcovers⟩ := encode_covers_callbacks hbuild hok hpolicy
  obtain ⟨-, rfl⟩ := Prod.mk.inj (Except.ok.inj (hencode.symm.trans hencode'))
  obtain ⟨live, hs, -, hcallbacks⟩ := hcovers c hc hout
  obtain ⟨rfl, -⟩ := MemoryState.encoded.inj (hstate.unique hs)
  obtain ⟨uses, defs, hs₁, -, hall, -⟩ := hcallbacks g hg slot hslot hmemory
  obtain ⟨uses', defs', hs₂, -, -, honly⟩ := hcallbacks g hg store hstore hmemory'
  obtain ⟨rfl, rfl⟩ := MemoryState.encoded.inj (hstate₁.unique hs₁)
  obtain ⟨rfl, rfl⟩ := MemoryState.encoded.inj (hstate₂.unique hs₂)
  refine ⟨program, result, policy, stats, encoded, hbuild, hok, hpolicy, hencode, c,
    hc, hout, g, hg, slot, hslot, store, hstore, honly rfl ?_, fun h => ?_⟩
  · have hsub : ((IndexSet.ofList [1, 2, 4, 6]).union (.ofList [1, 2, 4, 6])).subset
        (.ofList [1, 2, 4, 5, 6]) = true := by decide
    exact fun x hx => IndexSet.subset_iff.1 hsub x hx
  · exact absurd (hall h 0 (by decide)) (by decide)

/-- A call out of the unit lacks the channel of a slot of an exported function. -/
theorem encode_misses_unescaped : ∃ program result policy stats encoded,
    Program.build? callbackCommands = .ok program ∧
    Analysis.analyze .default program = .ok result ∧
    Channel.Policy.create .perObject result.graph 0 = .ok policy ∧
    encode policy result.graph program = .ok (stats, encoded) ∧
    ∃ c ∈ program.operations, result.graph.CallsOut c ∧
      ∃ g ∈ program.functions.toList, (∃ node ∈ result.graph.escaped.toList,
        result.graph.memoryNode? (.function g.id) = some node) ∧
      ∃ m ∈ g.body.toList, ∃ live uses defs, encoded.HasState c (.encoded live live) ∧
        encoded.HasState m (.encoded uses defs) ∧ ∃ x ∈ uses.union defs, ¬ x ∈ live := by
  obtain ⟨program, result, policy, stats, encoded, hbuild, hok, hpolicy, hencode, c,
    hc, hout, g, hg, hescaped, slot, hslot, -, -, -, -, hstate, hstate', -⟩ :=
      callbackCommands_run
  exact ⟨program, result, policy, stats, encoded, hbuild, hok, hpolicy, hencode, c,
    hc, hout, g, hg, hescaped, slot, hslot, _, _, _, hstate, hstate', 0, by decide, by decide⟩

end Encoding
end PointerChannels
