import PointerChannels.Proofs.Pass
import PointerChannels.Proofs.Program.Bare

/-!
# The pass forgets earlier states

The analysis and the gathering of channels read a program without its memory states.  So
two programs that differ only in states have the same graph, and the same states are
written into both.  Every memory operation that has a place is written, so what an earlier
run wrote there does not matter.

Nothing is assumed of the program: its numbers need not fit together.

## Main statements

* `Analysis.analyze_bare`, `Encoding.gatherAll_bare` — what does not read states.
* `Encoding.Encodes.transport` — the same encoding of a program with other states.
* `Pass.run_forgets` — the pass rewrites states and forgets those it finds.
-/

namespace PointerChannels

/-! ## Generation -/

namespace Generation

variable {p : Program} {d : Draft}

theorem register_bare {value : ValueId} : d.register p.bare value = d.register p value := rfl

theorem isPointer_bare {value : ValueId} : isPointer p.bare value = isPointer p value := rfl

theorem pointerRegisters_bare {values : List ValueId} :
    d.pointerRegisters p.bare values = d.pointerRegisters p values := by
  induction values generalizing d with
  | nil => rfl
  | cons value rest ih => simp only [Draft.pointerRegisters, ih, register_bare, isPointer_bare]

theorem phiInputs_bare {register : Handle} {values : List ValueId} :
    d.phiInputs p.bare register values = d.phiInputs p register values := by
  induction values generalizing d with
  | nil => rfl
  | cons value rest ih => simp only [Draft.phiInputs, ih, register_bare, isPointer_bare]

theorem eachPointer_bare {constrain : Handle → List Constraint} {values : List ValueId} :
    d.eachPointer p.bare constrain values = d.eachPointer p constrain values := by
  induction values generalizing d with
  | nil => rfl
  | cons value rest ih => simp only [Draft.eachPointer, ih, register_bare, isPointer_bare]

theorem operation_bare {op : Operation} : d.operation p.bare op.bare = d.operation p op := by
  simp only [Draft.operation, pointerRegisters_bare, phiInputs_bare, eachPointer_bare]
  rfl

theorem functionHead_bare {f : FunctionDef} :
    d.functionHead p.bare f.bare = d.functionHead p f := by
  simp only [Draft.functionHead, pointerRegisters_bare]
  rfl

theorem functionHeads_bare {functions : List FunctionDef} :
    d.functionHeads p.bare (functions.map FunctionDef.bare) = d.functionHeads p functions := by
  induction functions generalizing d with
  | nil => rfl
  | cons f rest ih => simp only [Draft.functionHeads, List.map_cons, ih, functionHead_bare]

theorem signature_bare {f : FunctionDef} {head : Handle × List (Option Handle)} :
    d.signature p.bare (f.bare, head) = d.signature p (f, head) := by
  simp only [Draft.signature, pointerRegisters_bare]
  rfl

/-- Generation reads no states. -/
theorem generate_bare (p : Program) (limit : Option Nat) :
    generate p.bare limit = generate p limit := by
  have himports : Draft.importSymbol p.bare = Draft.importSymbol p := rfl
  have hfunctions : p.bare.functions.toList = p.functions.toList.map FunctionDef.bare := by
    rw [Program.bare, Array.toList_map]
  have hsignatures : ∀ heads d, ((p.functions.toList.map FunctionDef.bare).zip heads).foldlM
      (Draft.signature p.bare) d = (p.functions.toList.zip heads).foldlM
      (Draft.signature p) d := by
    intro heads d
    rw [List.zip_map_left, List.foldlM_map]
    simp only [Prod.map, id, signature_bare]
  simp only [generate, himports, hfunctions, functionHeads_bare, Program.operations_bare,
    List.foldlM_map, operation_bare, hsignatures, eachPointer_bare]
  rfl

end Generation

/-- The analysis reads no states. -/
theorem Analysis.analyze_bare (config : Config.Analysis) (p : Program)
    {order : Inclusion.SetOrder} : analyze config p.bare order = analyze config p order := by
  simp only [analyze, generated, Generation.generate_bare]
  rfl

/-! ## Encoding -/

namespace Encoding

variable {v : View} {p q : Program}

theorem gather_bare {f : FunctionId} {d : Draft} {op : Operation} :
    gather v p.bare f d op.bare = gather v p f d op := rfl

/-- Gathering reads no states. -/
theorem gatherAll_bare (v : View) (p : Program) : gatherAll v p.bare = gatherAll v p := by
  have hbody :
      ∀ (f : FunctionDef) (d : Draft), f.bare.body.toList.foldlM (gather v p.bare f.id) d =
      f.body.toList.foldlM (gather v p f.id) d := by
    intro f d
    simp only [FunctionDef.bare, Array.toList_map, List.foldlM_map, gather_bare]
  have hsize : p.bare.functions.size = p.functions.size := by rw [Program.bare, Array.size_map]
  have hfunctions : p.bare.functions.toList = p.functions.toList.map FunctionDef.bare := by
    rw [Program.bare, Array.toList_map]
  rw [gatherAll, gatherAll, hsize, hfunctions, List.foldlM_map]
  exact congrArg (fun step => p.functions.toList.foldlM step _)
    (funext fun d => funext fun f => hbody f d)

theorem countKind_bare (p : Program) (kind : Operation.Kind) :
    countKind p.bare kind = countKind p kind := by
  rw [countKind, countKind, Program.operations_bare, List.countP_map]
  rfl

/-- The state that an access writes. -/
def Access.write (a : Access) : OperationId × MemoryState :=
  (a.operation, .encoded a.uses a.defs)

theorem writeAccesses_eq (p : Program) (accesses : List Access) :
    writeAccesses p accesses = p.writeAll (accesses.map Access.write) := by
  rw [Program.writeAll, List.foldlM_map]
  rfl

end Encoding

/-- The places that an encoding writes to: those of the numbers of memory operations. -/
def Program.WrittenAt (p : Program) (i j : Nat) : Prop :=
  ∃ op ∈ p.operations, op.kind.touchesMemory = true ∧ p.locations[op.id]? = some (i, j)

theorem Program.writtenAt_bare {p : Program} {i j : Nat} :
    p.bare.WrittenAt i j ↔ p.WrittenAt i j := by
  simp only [WrittenAt, operations_bare, List.mem_map, exists_exists_and_eq_and]
  rfl

theorem Program.writtenAt_of_bare_eq {p q : Program} (h : p.bare = q.bare) {i j : Nat} :
    p.WrittenAt i j ↔ q.WrittenAt i j := by
  rw [← writtenAt_bare, h, writtenAt_bare]

namespace Encoding.Encodes

variable {v : View} {p q : Program} {d : Draft} {rounds : Nat} {summaries : Array IndexSet}
  {live : List Access} {encoded : Program}

/-- The writes of an encoding go to all memory operations and to nothing else. -/
theorem exists_write_iff (h : Encodes v p d rounds summaries live encoded) {i j : Nat} :
    (∃ write ∈ (d.accesses ++ live).map Access.write, p.locations[write.1]? = some (i, j)) ↔
      p.WrittenAt i j := by
  have hmem : ∀ o, o ∈ (d.accesses ++ live).map Access.operation ↔
      ∃ op ∈ p.operations, op.kind.touchesMemory = true ∧ op.id = o := by
    intro o
    simp only [h.operations_perm.mem_iff, List.mem_map, List.mem_filter, and_assoc]
  constructor
  · rintro ⟨write, hwrite, hplace⟩
    obtain ⟨a, ha, rfl⟩ := List.mem_map.1 hwrite
    obtain ⟨op, hop, hmemory, hid⟩ := (hmem a.operation).1 (List.mem_map.2 ⟨a, ha, rfl⟩)
    exact ⟨op, hop, hmemory, hid ▸ hplace⟩
  · rintro ⟨op, hop, hmemory, hplace⟩
    obtain ⟨a, ha, hid⟩ := List.mem_map.1 ((hmem op.id).2 ⟨op, hop, hmemory, rfl⟩)
    refine ⟨a.write, List.mem_map.2 ⟨a, ha, rfl⟩, ?_⟩
    rw [Access.write, hid]
    exact hplace

/-- **What an encoding changes**: the states at the places of memory operations. -/
theorem rewrites (h : Encodes v p d rounds summaries live encoded) : encoded.bare = p.bare ∧
    (∀ i j, ¬ p.WrittenAt i j → encoded.operationAt? i j = p.operationAt? i j) ∧
    ∀ i j op, p.WrittenAt i j → p.operationAt? i j = some op → ∃ uses defs,
      encoded.operationAt? i j = some { op with state := .encoded uses defs } := by
  have hwritten := h.written
  rw [writeAccesses_eq] at hwritten
  obtain ⟨hbare, hat⟩ := Program.writeAll_eq_ok hwritten
  refine ⟨hbare, fun i j hplace => ?_, fun i j op hplace hop => ?_⟩
  · have hnone : p.lastWritten i j ((d.accesses ++ live).map Access.write) = none :=
      Program.lastWritten_eq_none.2 fun write hwrite hthere =>
        hplace (h.exists_write_iff.1 ⟨write, hwrite, hthere⟩)
    rw [hat, hnone]
    exact Option.map_id'
  · obtain ⟨write, hwrite, hthere⟩ := h.exists_write_iff.2 hplace
    obtain ⟨state, hstate⟩ : ∃ state,
        p.lastWritten i j ((d.accesses ++ live).map Access.write) = some state := by
      rw [← Option.ne_none_iff_exists']
      exact fun hnone => Program.lastWritten_eq_none.1 hnone write hwrite hthere
    obtain ⟨write', hwrite', rfl⟩ := Program.mem_of_lastWritten hstate
    obtain ⟨a, -, rfl⟩ := List.mem_map.1 hwrite'
    exact ⟨a.uses, a.defs, by rw [hat, hop, hstate]; rfl⟩

/-- **A program with other states is encoded alike**, and has the same state wherever it had
the same state before or is written. -/
theorem transport (h : Encodes v p d rounds summaries live encoded) (hbare : p.bare = q.bare) :
    ∃ encoded', Encodes v q d rounds summaries live encoded' ∧ encoded.bare = encoded'.bare ∧
      ∀ i j, p.operationAt? i j = q.operationAt? i j ∨ p.WrittenAt i j →
        encoded.operationAt? i j = encoded'.operationAt? i j := by
  have hwritten := h.written
  rw [writeAccesses_eq] at hwritten
  obtain ⟨encoded', hwritten'⟩ := Program.writeAll_of_bare_eq hbare hwritten
  have hgathered : gatherAll v q = .ok d := by
    rw [← gatherAll_bare, ← hbare, gatherAll_bare, h.gathered]
  refine ⟨encoded', ⟨hgathered, h.closed, h.calls, ?_⟩, ?_, fun i j hplace => ?_⟩
  · rwa [writeAccesses_eq]
  · rw [(Program.writeAll_eq_ok hwritten).1, (Program.writeAll_eq_ok hwritten').1, hbare]
  · exact Program.writeAll_agree hbare hwritten hwritten'
      (hplace.imp_right h.exists_write_iff.2)

theorem statsOf_eq (hbare : p.bare = q.bare) (policy : Channel.Policy)
    (written : List Access) :
    statsOf policy p d rounds written encoded = statsOf policy q d rounds written encoded := by
  have hcount : countKind p = countKind q := by
    funext kind
    rw [← countKind_bare p, hbare, countKind_bare]
  simp only [statsOf, hcount]

end Encoding.Encodes

/-! ## The pass -/

namespace Pass

variable {config : Config} {p q program : Program} {out : Output} {order : Inclusion.SetOrder}

theorem analyzed_of_bare_eq (hbare : p.bare = q.bare) :
    analyzed order config p = analyzed order config q := by
  rw [analyzed, analyzed, ← Analysis.analyze_bare _ p, hbare, Analysis.analyze_bare]

/-- Programs that differ only in states that are written have the same run. -/
theorem run_of_agree (hbare : p.bare = q.bare)
    (hagree : ∀ i j, ¬ p.WrittenAt i j → p.operationAt? i j = q.operationAt? i j)
    (h : run config p order = .ok out) : run config q order = .ok out := by
  obtain ⟨hchecked, result, policy, stats, encoded, hresult, hpolicy, hencode, rfl⟩ :=
    run_parts.1 h
  obtain ⟨d, rounds, summaries, live, hencodes, rfl⟩ :=
    (Encoding.encode_eq_ok_iff (v := ⟨result.graph, policy⟩)).1 hencode
  obtain ⟨encoded', hencodes', hbare', hsame⟩ := hencodes.transport hbare
  obtain rfl : encoded = encoded' := Program.ext_bare hbare' fun i j =>
    hsame i j (or_iff_not_imp_right.2 (hagree i j))
  refine run_parts.2 ⟨hchecked, result, policy, _, encoded, ?_, hpolicy,
    (Encoding.encode_eq_ok_iff (v := ⟨result.graph, policy⟩)).2
      ⟨d, rounds, summaries, live, hencodes', rfl⟩, ?_⟩
  · rw [← analyzed_of_bare_eq hbare, hresult]
  · rw [Encoding.Encodes.statsOf_eq hbare]

/-- The order of sets plays no part in a run, the counters of the solver apart. -/
theorem run_order (h : run config program order = .ok out) (order' : Inclusion.SetOrder) :
    ∃ counters, run config program order' =
      .ok { out with analysis := out.analysis.recounted counters } := by
  obtain ⟨hchecked, result, policy, stats, encoded, hresult, hpolicy, hencode, rfl⟩ :=
    run_parts.1 h
  obtain ⟨counters, hanalyze⟩ := Analysis.analyze_order (analyzed_eq_ok.1 hresult) order'
  exact ⟨counters, run_parts.2 ⟨hchecked, _, policy, stats, encoded, analyzed_eq_ok.2 hanalyze,
    hpolicy, hencode, rfl⟩⟩

/-- **The pass rewrites states and forgets those it finds.**  A run that succeeds changes the
states at the places of memory operations and nothing else.  On a program with other states the
run succeeds as well, with the same graph and the same states at these places.  And a run under
any configuration after it is the same as that run alone.  In another order of sets only the
counters of the solver may differ. -/
theorem run_forgets (h : run config program order = .ok out) :
    out.program.bare = program.bare ∧
    (∀ i j, ¬ program.WrittenAt i j →
      out.program.operationAt? i j = program.operationAt? i j) ∧
    (∀ i j op, program.WrittenAt i j → program.operationAt? i j = some op → ∃ uses defs,
      out.program.operationAt? i j = some { op with state := .encoded uses defs }) ∧
    (∀ q, q.bare = program.bare → ∃ out', run config q order = .ok out' ∧
      out'.graph = out.graph ∧
      out'.analysis = out.analysis ∧ ∀ i j, program.WrittenAt i j →
        out'.program.operationAt? i j = out.program.operationAt? i j) ∧
    ∀ config' order' out', (run config' out.program order' = .ok out' ↔
        run config' program order' = .ok out') ∧
      (run config' out.program order' = .ok out' → ∀ order'', ∃ counters,
        run config' program order'' =
          .ok { out' with analysis := out'.analysis.recounted counters }) := by
  obtain ⟨hchecked, result, policy, stats, encoded, hresult, hpolicy, hencode, rfl⟩ :=
    run_parts.1 h
  obtain ⟨d, rounds, summaries, live, hencodes, rfl⟩ :=
    (Encoding.encode_eq_ok_iff (v := ⟨result.graph, policy⟩)).1 hencode
  obtain ⟨hbare, hkept, hwritten⟩ := hencodes.rewrites
  have hagain : ∀ {config' order' out'}, run config' encoded order' = .ok out' →
      run config' program order' = .ok out' := by
    intro config' order' out'
    exact run_of_agree hbare fun i j hplace =>
      hkept i j (mt (Program.writtenAt_of_bare_eq hbare).2 hplace)
  refine ⟨hbare, hkept, hwritten, fun q hq => ?_,
    fun config' order' out' => ⟨⟨hagain, ?_⟩, fun h => run_order (hagain h)⟩⟩
  · obtain ⟨encoded', hencodes', -, hsame⟩ := hencodes.transport hq.symm
    refine ⟨⟨⟨result.graph, result.stats, _⟩, encoded'⟩,
      run_parts.2 ⟨hchecked, result, policy, _,
      encoded', ?_, hpolicy, (Encoding.encode_eq_ok_iff (v := ⟨result.graph, policy⟩)).2
        ⟨d, rounds, summaries, live, hencodes', rfl⟩, rfl⟩, rfl, rfl, fun i j hplace => ?_⟩
    · rw [analyzed_of_bare_eq hq, hresult]
    · exact (hsame i j (.inr hplace)).symm
  · exact run_of_agree hbare.symm fun i j hplace => (hkept i j hplace).symm

/-- A program whose numbers do not fit together: a store and a load have one number, which is
placed at the load, and the store has a state that nothing of this program has. -/
def sharedProgram : Program where
  values := #[⟨0, "f", .pointer, .functionAddress 0⟩, ⟨1, "a", .pointer, .output 0 0⟩,
    ⟨2, "b", .pointer, .output 1 0⟩, ⟨3, "v", .scalar, .output 2 0⟩]
  functions :=
    #[⟨0, "f", 0, [], [], #[⟨0, .alloca, [], [1], .coarse⟩, ⟨1, .alloca, [], [2], .coarse⟩,
    ⟨2, .store, [1, 3], [], .encoded (.ofList [7]) .empty⟩, ⟨2, .load, [2], [3], .coarse⟩]⟩]
  imports := #[]
  exports := []
  locations := #[(0, 0), (0, 1), (0, 3)]

/-- The default configuration, but with one channel for all of memory. -/
def singleChannel : Config := Config.default.overrideEncoder ({ · with policy := .single })

/-- Two runs of which neither leaves a trace in the other; the store keeps its state. -/
theorem run_forgets_sharedProgram : ∃ fine coarse,
    run .default sharedProgram = .ok fine ∧ run singleChannel sharedProgram = .ok coarse ∧
    fine.program ≠ coarse.program ∧ fine.program.bare = sharedProgram.bare ∧
    fine.program.operationAt? 0 2 = sharedProgram.operationAt? 0 2 ∧
    run singleChannel fine.program = .ok coarse ∧ run .default fine.program = .ok fine := by
  have hrun : (do
      let fine ← (run .default sharedProgram).toOption
      let coarse ← (run singleChannel sharedProgram).toOption
      return decide (fine.program ≠ coarse.program)) = some true := by decide +kernel
  simp only [Option.bind_eq_bind, Option.bind_eq_some_iff, toOption_eq_some, Option.pure_def,
    Option.some.injEq, decide_eq_true_eq] at hrun
  obtain ⟨fine, hfine, coarse, hcoarse, hne⟩ := hrun
  obtain ⟨hbare, hkept, -, -, hagain⟩ := run_forgets hfine
  refine ⟨fine, coarse, hfine, hcoarse, hne, hbare, hkept 0 2 ?_, (hagain _ _ _).1.2 hcoarse,
    (hagain _ _ _).1.2 hfine⟩
  rintro ⟨op, hop, -, hplace⟩
  have hplaces : ∀ op ∈ sharedProgram.operations,
      sharedProgram.locations[op.id]? ≠ some (0, 2) := by decide
  exact hplaces op hop hplace

end Pass
end PointerChannels
