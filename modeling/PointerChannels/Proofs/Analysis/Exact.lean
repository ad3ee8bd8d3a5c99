import PointerChannels.Proofs.Analysis.Targets

/-!
# The least targets of a program

Any targets that respect a program give a solution of the program's constraints: a register
points to what the value it was made for points to.  A value that shares the register of
another was derived from it, so it points to at least as much.  Nothing else flows into a
derived value, since a value is the output of one operation only; without that, a shared
register would be too coarse.

So the least solution of the constraints gives the least targets.

## Main statements

* `solution_entities` — targets that respect a program give a solution.
* `targets_le` — a graph that represents the least solution has the least targets.
-/

namespace PointerChannels

/-! ## Derived values -/

section

variable {program : Program} {u v w : ValueId}

/-- The fact makes the value point to something. -/
def Fact.Receives : Fact → ValueId → Prop
  | .object v _ _, u => v = u
  | .load v _, u => v = u
  | .call _ _ results, u => u ∈ results
  | .external v, u => v = u
  | .unknown v, u => v = u
  | .flow _ _, _ | .store _ _, _ | .copy _ _, _ | .escapes _, _ => False

/-- Nothing is derived into a value. -/
def Program.Basic (program : Program) (v : ValueId) : Prop := ∀ u, ¬ program.Derives u v

namespace Program.Coherent

/-- A value that does not come from an operation is not derived. -/
theorem basic_of_defines (hp : program.Coherent) {definition : Definition}
    (h : program.Defines v definition) (hnot : ∀ op k, definition ≠ .output op k) :
    program.Basic v := by
  rintro u ⟨op, hop, -, -, hout, -⟩
  exact hnot op.id 0 (h.unique (hp.defines_output hop hout))

/-- An output of an operation that derives no address is not derived. -/
theorem basic_of_output (hp : program.Coherent) {op : Operation}
    (hop : op ∈ program.operations) {k : Nat} (hout : op.outputs[k]? = some v)
    (hkind : op.kind ≠ .elementPointer) (hkind' : op.kind ≠ .bitcast) : program.Basic v := by
  rintro u ⟨op', hop', hk, -, hout', -⟩
  rw [hp.eq_of_output hop' hop hout' hout] at hk
  exact hk.elim hkind hkind'

/-- A value is derived from one value only. -/
theorem derives_unique (hp : program.Coherent) (h : program.Derives u w)
    (h' : program.Derives v w) : u = v := by
  obtain ⟨op, hop, -, hin, hout, -⟩ := h
  obtain ⟨op', hop', -, hin', hout', -⟩ := h'
  obtain rfl := hp.eq_of_output hop hop' hout hout'
  exact Option.some_injective _ (hin.symm.trans hin')

/-- What a function takes is not derived. -/
theorem basic_param (hp : program.Coherent) {f : FunctionDef}
    (hf : f ∈ program.functions.toList) (hv : v ∈ f.params) : program.Basic v := by
  obtain ⟨i, hi⟩ := Array.mem_iff_getElem?.1 (Array.mem_toList_iff.1 hf)
  obtain ⟨k, hk⟩ := List.mem_iff_getElem?.1 hv
  exact hp.basic_of_defines ((hp.functions hi).params hk) (by simp)

/-- An address computed from a scalar is not derived. -/
theorem basic_of_scalar (hp : program.Coherent) {op : Operation}
    (hop : op ∈ program.operations) {fact : Fact} {input output : ValueId}
    (hin : op.inputs[0]? = some input) (hout : op.outputs[0]? = some output)
    (hcase : program.IsPointer input ∧ fact = .flow input output ∨
      program.IsScalar input ∧ fact = .external output) (hv : fact.Receives v) :
    program.Basic v := by
  rcases hcase with ⟨-, rfl⟩ | ⟨hscalar, rfl⟩
  · exact hv.elim
  · obtain rfl : output = v := hv
    rintro u ⟨op', hop', -, hin', hout', hpointer, -⟩
    rw [hp.eq_of_output hop' hop hout' hout] at hin'
    obtain rfl := Option.some_injective _ (hin.symm.trans hin')
    exact hpointer.not_isScalar hscalar

/-- What a fact makes a value point to does not flow into a derived value. -/
theorem basic_of_receives (hp : program.Coherent) {fact : Fact} (h : program.Says fact)
    (hv : fact.Receives v) : program.Basic v := by
  cases h with
  | @importObject s hs =>
      obtain ⟨i, hi⟩ := Array.mem_iff_getElem?.1 (Array.mem_toList_iff.1 hs)
      exact hv ▸ hp.basic_of_defines (hp.imports hi) (by simp)
  | @functionObject f hf =>
      obtain ⟨i, hi⟩ := Array.mem_iff_getElem?.1 (Array.mem_toList_iff.1 hf)
      exact hv ▸ hp.basic_of_defines (hp.functions hi).address (by simp)
  | importEscapes => exact hv.elim
  | exported => exact hv.elim
  | @operation op _ hop hsaid =>
      cases hk : op.kind
      all_goals simp only [Operation.Says, hk] at hsaid
      case alloca =>
        obtain ⟨output, hout, rfl⟩ := hsaid
        exact hv ▸ hp.basic_of_output hop hout (by simp [hk]) (by simp [hk])
      case malloc =>
        obtain ⟨output, hout, rfl⟩ := hsaid
        exact hv ▸ hp.basic_of_output hop hout (by simp [hk]) (by simp [hk])
      case load =>
        obtain ⟨address, value, -, hout, -, rfl⟩ := hsaid
        exact hv ▸ hp.basic_of_output hop hout (by simp [hk]) (by simp [hk])
      case store =>
        obtain ⟨address, value, -, -, -, rfl⟩ := hsaid
        exact hv.elim
      case memcpy =>
        obtain ⟨target, source, -, -, rfl⟩ := hsaid
        exact hv.elim
      case call =>
        obtain ⟨callee, -, rfl⟩ := hsaid
        obtain ⟨k, hout⟩ := List.mem_iff_getElem?.1 hv
        exact hp.basic_of_output hop hout (by simp [hk]) (by simp [hk])
      case elementPointer =>
        obtain ⟨input, output, hin, hout, hpout, hcase⟩ := hsaid
        exact hp.basic_of_scalar hop hin hout hcase hv
      case bitcast =>
        obtain ⟨input, output, hin, hout, hpout, hcase⟩ := hsaid
        exact hp.basic_of_scalar hop hin hout hcase hv
      case intToPointer =>
        obtain ⟨output, hout, rfl⟩ := hsaid
        exact hv ▸ hp.basic_of_output hop hout (by simp [hk]) (by simp [hk])
      case phi =>
        obtain ⟨output, -, -, input, -, -, rfl⟩ := hsaid
        exact hv.elim
      case blackBox =>
        rcases hsaid with ⟨input, -, -, rfl⟩ | ⟨output, hmem, -, hfact⟩
        · exact hv.elim
        · obtain ⟨k, hout⟩ := List.mem_iff_getElem?.1 hmem
          rcases hfact with rfl | rfl
          · exact hv ▸ hp.basic_of_output hop hout (by simp [hk]) (by simp [hk])
          · exact hv ▸ hp.basic_of_output hop hout (by simp [hk]) (by simp [hk])

/-- What flows into a value is what it is derived from, or it is not derived. -/
theorem derives_or_basic (hp : program.Coherent) (h : program.Says (.flow v w)) :
    program.Derives v w ∨ program.Basic w := by
  cases h with
  | @operation op _ hop hsaid =>
      cases hk : op.kind
      all_goals simp only [Operation.Says, hk] at hsaid
      case elementPointer =>
        obtain ⟨input, output, hin, hout, hpout, ⟨hpin, heq⟩ | ⟨-, heq⟩⟩ := hsaid
        · obtain ⟨rfl, rfl⟩ := Fact.flow.inj heq
          exact .inl ⟨op, hop, .inl hk, hin, hout, hpin, hpout⟩
        · exact absurd heq (by simp)
      case bitcast =>
        obtain ⟨input, output, hin, hout, hpout, ⟨hpin, heq⟩ | ⟨-, heq⟩⟩ := hsaid
        · obtain ⟨rfl, rfl⟩ := Fact.flow.inj heq
          exact .inl ⟨op, hop, .inr hk, hin, hout, hpin, hpout⟩
        · exact absurd heq (by simp)
      case phi =>
        obtain ⟨output, hout, -, input, -, -, heq⟩ := hsaid
        obtain ⟨rfl, rfl⟩ := Fact.flow.inj heq
        exact .inr (hp.basic_of_output hop hout (by simp [hk]) (by simp [hk]))
      all_goals simp at hsaid

end Program.Coherent
end

/-! ## Targets as a solution -/

section

open Generation

variable {program : Program} {d : Draft} {g : Graph} {T : Family}
  {node : Nat → Nat} {S : Targets} {e x : Nat} {v : ValueId} {r : Handle}

/-- What entities point to when values and memory have the given targets.  A register points to
what the value it was made for points to; the register of a copy points to what all that is
stored through may hold. -/
def entities (d : Draft) (node : Nat → Nat) (S : Targets) : Family := fun e =>
  {x | d.pool.IsObject x ∧
    (d.pool.IsObject e → node x ∈ S.memory (node e)) ∧
    (∀ v, d.pool.Made e .register (.value v) → node x ∈ S.value v) ∧
    (d.pool.Made e .register .synthetic → ∀ target v o,
      .store target (d.pool.handle e) ∈ d.constraints →
      d.pool.Made target.index .register (.value v) → d.pool.IsObject o → node o ∈ S.value v →
      d.pool.kindOf o ≠ .functionObject → node x ∈ S.memory (node o))}

theorem not_isObject_of_register {origin : Origin} {p : Pool} (h : p.Made e .register origin) :
    ¬ p.IsObject e := by
  rintro ⟨-, hk⟩
  rw [h.kindOf] at hk
  exact absurd hk (by decide)

theorem mem_entities_object (he : d.pool.IsObject e) :
    x ∈ entities d node S e ↔ d.pool.IsObject x ∧ node x ∈ S.memory (node e) := by
  constructor
  · rintro ⟨hx, hmemory, -⟩
    exact ⟨hx, hmemory he⟩
  · rintro ⟨hx, hmemory⟩
    exact ⟨hx, fun _ => hmemory, fun v hm => absurd he (not_isObject_of_register hm),
      fun hm => absurd he (not_isObject_of_register hm)⟩

theorem mem_entities_own (he : d.pool.Made e .register (.value v)) :
    x ∈ entities d node S e ↔ d.pool.IsObject x ∧ node x ∈ S.value v := by
  constructor
  · rintro ⟨hx, -, hvalue, -⟩
    exact ⟨hx, hvalue v he⟩
  · rintro ⟨hx, hvalue⟩
    refine ⟨hx, fun ho => absurd ho (not_isObject_of_register he),
      fun w hm => ?_, fun hm => ?_⟩
    · rwa [← Origin.value.inj (he.unique hm).2]
    · exact absurd (he.unique hm).2 (by simp)

/-- A value points to at least what the value points to that its register was made for. -/
theorem value_le_of_traced (hS : S.Respects program g) {w : ValueId}
    (h : d.pool.Traced program w e) (he : d.pool.Made e .register (.value v)) :
    S.value v ⊆ S.value w := by
  induction h with
  | own hm =>
      rw [Origin.value.inj (he.unique hm).2]
  | shared hderives _ _ ih => exact (ih he).trans (hS.facts _ hderives.flow)

theorem node_mem_value (hd : d.Tidy program) (hS : S.Respects program g)
    (hr : d.pool.RegisterOf v r) (hx : x ∈ entities d node S r.index) :
    node x ∈ S.value v := by
  have htraced := hd.pool.traced hr.1
  obtain ⟨w, hw⟩ := htraced.made
  exact value_le_of_traced hS htraced hw ((mem_entities_own hw).1 hx).2

theorem mem_entities_basic (hd : d.Tidy program) (hv : program.Basic v)
    (hr : d.pool.RegisterOf v r) :
    x ∈ entities d node S r.index ↔ d.pool.IsObject x ∧ node x ∈ S.value v := by
  cases hd.pool.traced hr.1 with
  | own hm => exact mem_entities_own hm
  | shared hderives _ _ => exact absurd hderives (hv _)

/-- A call is bound as its targets are. -/
theorem binds_entities (hp : program.Coherent) (hd : Generated program d)
    (hg : g.Represents d.pool T node) (hS : S.Respects program g)
    {values values' : List ValueId} {arguments results : List (Option Handle)}
    (ha : d.pool.RegistersOf program values arguments)
    (hr : d.pool.RegistersOf program values' results) (hbasic : ∀ v ∈ values', program.Basic v)
    {o : Nat} (ho : d.pool.IsObject o) (hbinds : S.Binds program g values values' (node o)) :
    (entities d node S).Binds ⟨arguments, results⟩ (d.pool.calleeSignature? o) := by
  by_cases hk : d.pool.kindOf o = .functionObject
  · obtain ⟨f, hf, hm, signature, hs, hsigns⟩ := hd.exists_function ho hk
    have hnode := hg.found hm rfl (by simp)
    rw [Pool.calleeSignature?, if_pos hk, hs]
    constructor
    · intro i rv rw hiv hiw x hx
      obtain ⟨v, hv, hpv, hrv⟩ := ha.getElem?_iff.1 hiv
      obtain ⟨w, hw, hpw, hrw⟩ := hsigns.1.getElem?_iff.1 hiw
      have hle := hbinds.passed f hf hnode hv hw hpv hpw
      have hbw := hp.basic_param hf (List.mem_of_getElem? hw)
      exact (mem_entities_basic hd.tidy hbw hrw).2
        ⟨hx.1, hle (node_mem_value hd.tidy hS hrv hx)⟩
    · intro i rv rw hiv hiw x hx
      obtain ⟨v, hv, hpv, hrv⟩ := hr.getElem?_iff.1 hiv
      obtain ⟨w, hw, hpw, hrw⟩ := hsigns.2.getElem?_iff.1 hiw
      have hle := hbinds.returned f hf hnode hv hw hpv hpw
      have hbv := hbasic v (List.mem_of_getElem? hv)
      exact (mem_entities_basic hd.tidy hbv hrv).2
        ⟨hx.1, hle (node_mem_value hd.tidy hS hrw hx)⟩
  · have hnot : g.kindOf? (node o) ≠ some .allocator :=
      fun h => hk ((hg.isFunction_iff ho).1 h)
    have hexternal := hd.tidy.pool.fresh.external_object
    rw [Pool.calleeSignature?, if_neg hk]
    constructor
    · intro r hmem x hx
      obtain ⟨v, hv, hpv, hrv⟩ := ha.mem_iff.1 hmem
      have hle := hbinds.escapes hnot v hv hpv
      rw [mem_entities_object hexternal, hg.external]
      exact ⟨hx.1, hle (node_mem_value hd.tidy hS hrv hx)⟩
    · intro r hmem x hx
      obtain ⟨v, hv, hpv, hrv⟩ := hr.mem_iff.1 hmem
      have hle := hbinds.external hnot v hv hpv
      rw [mem_entities_object hexternal, hg.external] at hx
      exact (mem_entities_basic hd.tidy (hbasic v hv) hrv).2 ⟨hx.1, hle hx.2⟩

/-- Targets that obey what is said meet its wording. -/
theorem meets_entities (hp : program.Coherent) (hd : Generated program d)
    (hg : g.Represents d.pool T node) (hS : S.Respects program g) {fact : Fact}
    {c : Constraint} (hsay : program.Says fact) (hstates : States program d.pool fact c) :
    (entities d node S).Meets d.pool c := by
  have hmeets := hS.facts fact hsay
  have hunknown := hd.tidy.pool.fresh.unknown_object
  have hexternal := hd.tidy.pool.fresh.external_object
  have hfunction : ∀ {o}, d.pool.IsObject o → d.pool.kindOf o ≠ .functionObject →
      g.kindOf? (node o) ≠ some .allocator := fun ho hk h => hk ((hg.isFunction_iff ho).1 h)
  cases hstates with
  | object hr ho hm hk =>
      obtain ⟨n, hn, -, hmem⟩ := hmeets
      obtain rfl := Option.some_injective _ (hn.symm.trans (hg.found hm hk hsay.object.2.2))
      refine (mem_entities_basic hd.tidy (hp.basic_of_receives hsay rfl) hr).2 ⟨?_, hmem⟩
      exact ⟨hm.lt_size, by rwa [hm.kindOf]⟩
  | flow hv hw =>
      intro x hx
      have hxw := hmeets (node_mem_value hd.tidy hS hv hx)
      rcases hp.derives_or_basic hsay with hderives | hbasic
      · -- a derived value has a register of its own, or that of its input
        cases hd.tidy.pool.traced hw.1 with
        | own hm => exact (mem_entities_own hm).2 ⟨hx.1, hxw⟩
        | shared hderives' hu _ =>
            rw [hp.derives_unique hderives' hderives, hv.1] at hu
            rwa [← Option.some_injective _ hu]
      · exact (mem_entities_basic hd.tidy hbasic hw).2 ⟨hx.1, hxw⟩
  | load hv ha =>
      intro o ho hk x hx
      have hle := hmeets (node o) (node_mem_value hd.tidy hS ha ho) (hfunction ho.1 hk)
      have hbasic := hp.basic_of_receives hsay rfl
      exact (mem_entities_basic hd.tidy hbasic hv).2
        ⟨hx.1, hle ((mem_entities_object ho.1).1 hx).2⟩
  | store ha hv =>
      intro o ho hk x hx
      have hle := hmeets (node o) (node_mem_value hd.tidy hS ha ho) (hfunction ho.1 hk)
      exact (mem_entities_object ho.1).2 ⟨hx.1, hle (node_mem_value hd.tidy hS hv hx)⟩
  | call hc ha hr =>
      intro o ho
      exact binds_entities hp hd hg hS ha hr (fun v hv => hp.basic_of_receives hsay hv) ho.1
        (hmeets (node o) (node_mem_value hd.tidy hS hc ho))
  | external hr =>
      intro x hx
      rw [mem_entities_object hexternal, hg.external] at hx
      exact (mem_entities_basic hd.tidy (hp.basic_of_receives hsay rfl) hr).2
        ⟨hx.1, hmeets hx.2⟩
  | unknown hr =>
      intro x hx
      rw [mem_entities_object hunknown, hg.unknown] at hx
      exact (mem_entities_basic hd.tidy (hp.basic_of_receives hsay rfl) hr).2
        ⟨hx.1, hmeets hx.2⟩
  | escapes hr =>
      intro x hx
      rw [mem_entities_object hexternal, hg.external]
      exact ⟨hx.1, hmeets (node_mem_value hd.tidy hS hr hx)⟩

/-- **Targets that respect a program give a solution of its constraints.** -/
theorem solution_entities (hp : program.Coherent) (hd : Generated program d)
    (hg : g.Represents d.pool T node) (hS : S.Respects program g) :
    Solution d.pool d.constraints (entities d node S) := by
  have hexternal := hd.tidy.pool.fresh.external_object
  have hfunction : ∀ {o}, d.pool.IsObject o → d.pool.kindOf o ≠ .functionObject →
      g.kindOf? (node o) ≠ some .allocator := fun ho hk h => hk ((hg.isFunction_iff ho).1 h)
  have hsentinel : ∀ {s}, d.pool.IsObject s → S.Sentinel g (node s) →
      (entities d node S).Sentinel d.pool s := by
    intro s hs hS
    refine ⟨(mem_entities_object hs).2 ⟨hs, hS.mem⟩, ?_, ?_⟩
    · intro o ho hk x hx
      have hos := ((mem_entities_object hs).1 ho).2
      exact (mem_entities_object hs).2
        ⟨hx.1, hS.loads _ hos (hfunction ho.1 hk) ((mem_entities_object ho.1).1 hx).2⟩
    · intro o ho hk x hx
      have hos := ((mem_entities_object hs).1 ho).2
      exact (mem_entities_object ho.1).2
        ⟨hx.1, hS.stores _ hos (hfunction ho.1 hk) ((mem_entities_object hs).1 hx).2⟩
  constructor
  case unknown =>
    exact hsentinel hd.tidy.pool.fresh.unknown_object (hg.unknown.symm ▸ hS.unknown)
  case external => exact hsentinel hexternal (hg.external.symm ▸ hS.external)
  case meets =>
    intro c hc
    cases hd.tidy.grounded c hc with
    | said hsay hstates => exact meets_entities hp hd hg hS hsay hstates
    | @copyLoad r source v hcopied hsource =>
        intro o ho hk x hx
        have hxo := ((mem_entities_object ho.1).1 hx).2
        refine ⟨hx.1, fun h => absurd h (not_isObject_of_register hcopied.1),
          fun w hm => absurd (hm.unique hcopied.1).2 (by simp), ?_⟩
        intro _ target u o' hstore hu ho' hmem hk'
        rw [hcopied.handle_eq] at hstore
        obtain ⟨a, b, hsay, hra, hrb⟩ := hd.tidy.paired hcopied hc hstore
        have hb := value_le_of_traced hS (hd.tidy.pool.traced hrb.1) hu hmem
        exact hS.facts _ hsay (node o) (node_mem_value hd.tidy hS hra ho) (hfunction ho.1 hk)
          (node o') hb (hfunction ho' hk') hxo
    | @copyStore r target v hcopied htarget =>
        intro o ho hk x hx
        obtain ⟨u, hu⟩ := (hd.tidy.pool.traced htarget.1).made
        have hou := ((mem_entities_own hu).1 ho).2
        exact (mem_entities_object ho.1).2
          ⟨hx.1, hx.2.2.2 hcopied.1 target u o (hcopied.handle_eq.symm ▸ hc) hu ho.1 hou hk⟩
  case exposes =>
    intro o ho hk signature hs
    obtain ⟨f, hf, hm, hsigns⟩ := hd.tidy.pool.signed hs
    have hnode := hg.found hm rfl (by simp)
    have hmem := ((mem_entities_object hexternal).1 ho).2
    rw [hg.external] at hmem
    constructor
    · intro r hr x hx
      obtain ⟨v, hv, hpv, hrv⟩ := hsigns.1.mem_iff.1 hr
      rw [mem_entities_object hexternal, hg.external] at hx
      exact (mem_entities_basic hd.tidy (hp.basic_param hf hv) hrv).2
        ⟨hx.1, hS.called f hf _ hnode hmem v hv hpv hx.2⟩
    · intro r hr x hx
      obtain ⟨v, hv, hpv, hrv⟩ := hsigns.2.mem_iff.1 hr
      rw [mem_entities_object hexternal, hg.external]
      exact ⟨hx.1, hS.answered f hf _ hnode hmem v hv hpv (node_mem_value hd.tidy hS hrv hx)⟩

/-- A graph of a solution below the one that targets give has fewer targets. -/
theorem targets_le (hd : d.Tidy program) (hg : g.Represents d.pool T node)
    (hS : S.Respects program g) (hle : T ≤ entities d node S) : g.targets ≤ S := by
  constructor
  · rintro v n ⟨k, hk, hn⟩
    obtain ⟨e, he⟩ := hg.registered hk
    have hr : d.pool.RegisterOf v (d.pool.handle e) := ⟨he, rfl⟩
    have hmem : n ∈ g.targets.value v := ⟨k, hk, hn⟩
    rw [hg.value_eq hr] at hmem
    obtain ⟨x, hx, rfl⟩ := hmem
    exact node_mem_value hd hS hr (hle _ hx)
  · rintro n m ⟨hkind, hm⟩
    obtain ⟨kind, hn, hk⟩ := (Option.any_eq_true _ _).1 hkind
    obtain ⟨o, ho, rfl⟩ := hg.surjective hn hk
    obtain ⟨x, hx, rfl⟩ := (hg.targets ho).1 hm
    exact ((mem_entities_object ho).1 (hle _ hx)).2

end

end PointerChannels
