import PointerChannels.Proofs.Program.Coherent

/-!
# Writing states into a program

Writing the memory state of an operation changes that state and nothing else.  So after many
writes an operation has the state that was written to it, if all that were written to it agree.

## Main statements

* `Program.setState_ok` — one write.
* `Program.foldlM_setState` — many writes.
-/

namespace PointerChannels.Program

variable {program q : Program} {op : Operation} {state : MemoryState}

/-- The operation at a place, if the place is filled. -/
def operationAt? (q : Program) (i j : Nat) : Option Operation :=
  q.functions[i]?.bind (·.body[j]?)

theorem operationAt?_modifyAt {i j k l : Nat} {change : Operation → Operation} :
    (q.modifyAt i j change).operationAt? k l =
      if i = k ∧ j = l then (q.operationAt? k l).map change else q.operationAt? k l := by
  rw [operationAt?, operationAt?, modifyAt, Array.getElem?_modify]
  split
  · cases q.functions[k]? with
    | none => simp
    | some f =>
        simp only [Option.map_some, Option.bind_some, Array.getElem?_modify]
        split <;> simp_all
  · simp_all

/-- The program has the operation, with the given state. -/
def HasState (q : Program) (op : Operation) (state : MemoryState) : Prop :=
  q.operation? op.id = .ok (some { op with state })

instance (q : Program) (op : Operation) (state : MemoryState) :
    Decidable (q.HasState op state) :=
  inferInstanceAs (Decidable (_ = _))

theorem HasState.unique {state' : MemoryState} (h : q.HasState op state)
    (h' : q.HasState op state') : state = state' := by
  have heq := Option.some_injective _ (Except.ok.inj (h.symm.trans h'))
  exact congrArg Operation.state heq

/-- A program that differs from another one only in the states of its operations. -/
structure Restates (program q : Program) : Prop where
  locations_eq : q.locations = program.locations
  found : ∀ op ∈ program.operations, ∃ state, q.HasState op state

theorem hasState_iff {i j : Nat} (h : q.locations[op.id]? = some (i, j)) :
    q.HasState op state ↔ q.operationAt? i j = some { op with state } := by
  simp only [HasState, operation?, h, bind_eq_ok, function, entryAt_eq_ok, pure_eq_ok,
    operationAt?, Option.bind_eq_some_iff]

theorem hasState_self (hp : program.Coherent) (hop : op ∈ program.operations) :
    program.HasState op op.state := by
  obtain ⟨i, j, f, hi, hj⟩ := mem_operations.1 hop
  exact (hasState_iff ((hp.functions hi).located hj)).2 (by simp [operationAt?, hi, hj])

theorem restates_self (hp : program.Coherent) : program.Restates program :=
  ⟨rfl, fun op hop => ⟨op.state, hasState_self hp hop⟩⟩

/-- **A write gives an operation its state and leaves all others alone.** -/
theorem setState_ok (hp : program.Coherent) (hq : program.Restates q)
    (hop : op ∈ program.operations) (state : MemoryState) :
    ∃ q', q.setState op.id state = .ok q' ∧ program.Restates q' ∧
      q'.HasState op state ∧ ∀ op' ∈ program.operations, op' ≠ op → ∀ state',
        q.HasState op' state' → q'.HasState op' state' := by
  obtain ⟨i, j, f, hi, hj⟩ := mem_operations.1 hop
  have hplace : q.locations[op.id]? = some (i, j) := by
    rw [hq.locations_eq]
    exact (hp.functions hi).located hj
  obtain ⟨state₀, hstate₀⟩ := hq.found op hop
  rw [hasState_iff hplace] at hstate₀
  obtain ⟨f', hi', -⟩ := Option.bind_eq_some_iff.1 hstate₀
  refine ⟨q.modifyAt i j ({ · with state }), ?_, ?_⟩
  · simp only [setState, hplace, function, entryAt_eq_ok.2 hi']
    rfl
  have hlocations : (q.modifyAt i j ({ · with state })).locations = q.locations := rfl
  have hnew : (q.modifyAt i j ({ · with state })).HasState op state := by
    rw [hasState_iff (hlocations ▸ hplace), operationAt?_modifyAt, if_pos ⟨rfl, rfl⟩, hstate₀]
    rfl
  have hother : ∀ op' ∈ program.operations, op' ≠ op → ∀ state', q.HasState op' state' →
      (q.modifyAt i j ({ · with state })).HasState op' state' := by
    intro op' hop' hne state' hstate'
    obtain ⟨k, l, g, hk, hl⟩ := mem_operations.1 hop'
    have hplace' : q.locations[op'.id]? = some (k, l) := by
      rw [hq.locations_eq]
      exact (hp.functions hk).located hl
    rw [hasState_iff (hlocations ▸ hplace'), operationAt?_modifyAt, if_neg]
    · exact (hasState_iff hplace').1 hstate'
    · -- a place holds one operation
      rintro ⟨rfl, rfl⟩
      obtain rfl := Option.some_injective _ (hi.symm.trans hk)
      exact hne (Option.some_injective _ (hl.symm.trans hj))
  refine ⟨⟨hq.locations_eq, fun op' hop' => ?_⟩, hnew, hother⟩
  by_cases heq : op' = op
  · exact ⟨state, heq ▸ hnew⟩
  · obtain ⟨state', hstate'⟩ := hq.found op' hop'
    exact ⟨state', hother op' hop' heq state' hstate'⟩

/-- **Many writes.**  Every round of a fold writes the state of one operation.  An
operation then has the state that is written to it, or keeps the one it had, where all that
are written to it agree. -/
theorem foldlM_setState (hp : program.Coherent) {σ α : Type} {f : σ → α → Except Fault σ}
    (seen : σ → Program) (target : α → OperationId) (state : α → MemoryState)
    {l : List α} {s : σ} (hl : ∀ a ∈ l, ∃ op ∈ program.operations, op.id = target a)
    (hf : ∀ s q, ∀ a ∈ l, (seen s).setState (target a) (state a) = .ok q →
      ∃ t, f s a = .ok t ∧ seen t = q)
    (hs : program.Restates (seen s)) :
    ∃ t, l.foldlM f s = .ok t ∧ program.Restates (seen t) ∧
      ∀ op ∈ program.operations, ∀ written, (∀ a ∈ l, target a = op.id → state a = written) →
        ((seen s).HasState op written ∨ ∃ a ∈ l, target a = op.id) →
        (seen t).HasState op written := by
  induction l generalizing s with
  | nil =>
      refine ⟨s, rfl, hs, fun op hop written _ h => h.resolve_right ?_⟩
      simp
  | cons a l ih =>
      obtain ⟨op₀, hop₀, hid⟩ := hl a (by simp)
      obtain ⟨q, hset, hrestates, hnew, hother⟩ := setState_ok hp hs hop₀ (state a)
      obtain ⟨t, hround, rfl⟩ := hf s q a (by simp) (hid ▸ hset)
      obtain ⟨u, hfold, hrestates', hwritten⟩ :=
        ih (fun b hb => hl b (List.mem_cons_of_mem a hb))
          (fun s q b hb => hf s q b (List.mem_cons_of_mem a hb)) hrestates
      refine ⟨u, by rw [List.foldlM_cons, hround]; exact hfold, hrestates', ?_⟩
      intro op hop written hagree hstate
      refine hwritten op hop written (fun b hb => hagree b (List.mem_cons_of_mem a hb)) ?_
      by_cases heq : op = op₀
      · subst heq
        left
        rw [← hagree a (by simp) hid.symm]
        exact hnew
      · rcases hstate with hstate | ⟨b, hb, hid'⟩
        · exact .inl (hother op hop heq written hstate)
        · rcases List.mem_cons.1 hb with rfl | hb
          · exact absurd (hp.eq_of_id hop hop₀ (hid'.symm.trans hid.symm)) heq
          · exact .inr ⟨b, hb, hid'⟩

end PointerChannels.Program
