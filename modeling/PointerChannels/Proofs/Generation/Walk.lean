import PointerChannels.Proofs.Generation.Draft

/-!
# The walk over the operations of a program

Each operation advances the draft, makes the objects of its part of the
program and words what it says.

## Main statements

* `Draft.operation_ok` — one operation.
* `Draft.advances_foldlM` — step after step.
-/

namespace PointerChannels.Generation

variable {program : Program} {d d' : Draft}

theorem isPointer_eq_ok {v : ValueId} {b : Bool} :
    isPointer program v = .ok b ↔ program.values[v]?.map Value.isPointer = some b := by
  simp only [isPointer, Program.value, bind_eq_ok, entryAt_eq_ok, pure_eq_ok,
    Option.map_eq_some_iff]

namespace Draft

/-! ## Operands -/

theorem pointerRegisters_ok {values : List ValueId} {registers : List (Option Handle)}
    (h : d.pointerRegisters program values = .ok (registers, d')) :
    Advances program d d' [] ∧ d'.pool.RegistersOf program values registers := by
  induction values generalizing d registers with
  | nil =>
      obtain ⟨rfl, rfl⟩ := Prod.mk.inj (Except.ok.inj h)
      exact ⟨.refl _ _, .nil⟩
  | cons v rest ih =>
      simp only [pointerRegisters, bind_eq_ok, liftM_eq_ok, isPointer_eq_ok] at h
      obtain ⟨pointer, hpointer, h⟩ := h
      cases pointer with
      | true =>
          simp only [if_true, bind_eq_ok, pure_eq_ok, Prod.exists, Prod.mk.injEq] at h
          obtain ⟨r, d₁, hr, registers', d₂, hrest, rfl, rfl⟩ := h
          obtain ⟨hadvance, hof⟩ := register_ok hr
          obtain ⟨hadvance', hof'⟩ := ih hrest
          exact ⟨hadvance.trans hadvance',
            .cons (.inl ⟨hpointer, r, rfl, hadvance'.grows.registerOf hof⟩) hof'⟩
      | false =>
          simp only [Bool.false_eq_true, if_false, bind_eq_ok, pure_eq_ok, Prod.exists,
            Prod.mk.injEq] at h
          obtain ⟨registers', d₂, hrest, rfl, rfl⟩ := h
          obtain ⟨hadvance', hof'⟩ := ih hrest
          exact ⟨hadvance', .cons (.inr ⟨hpointer, rfl⟩) hof'⟩

/-- Constraints about single registers, each the wording of a fact about its value. -/
theorem eachPointer_ok {constrain : Handle → List Constraint} {values : List ValueId}
    (hsay : ∀ v ∈ values, program.IsPointer v → ∀ (p : Pool) (r : Handle), p.RegisterOf v r →
      ∀ c ∈ constrain r, ∃ fact, program.Says fact ∧ States program p fact c)
    (h : d.eachPointer program constrain values = .ok d') :
    Advances program d d' [] ∧ ∀ v ∈ values, program.IsPointer v →
      ∃ r, d'.pool.RegisterOf v r ∧ ∀ c ∈ constrain r, c ∈ d'.constraints := by
  induction values generalizing d with
  | nil =>
      obtain rfl := Except.ok.inj h
      exact ⟨.refl _ _, by simp⟩
  | cons v rest ih =>
      simp only [eachPointer, bind_eq_ok, liftM_eq_ok, isPointer_eq_ok] at h
      obtain ⟨pointer, hpointer, h⟩ := h
      cases pointer with
      | true =>
          simp only [if_true, bind_eq_ok, Prod.exists] at h
          obtain ⟨r, d₁, hr, hrest⟩ := h
          obtain ⟨hadvance, hof⟩ := register_ok hr
          have hadd := advances_addAll (d := d₁) (hsay v (by simp) hpointer d₁.pool r hof)
          obtain ⟨hadvance', hdone⟩ :=
            ih (fun w hw => hsay w (List.mem_cons_of_mem v hw)) hrest
          refine ⟨(hadvance.trans hadd).trans hadvance', ?_⟩
          intro w hw hpw
          rcases List.mem_cons.1 hw with rfl | hw
          · exact ⟨r, hadvance'.grows.registerOf hof,
              fun c hc => hadvance'.constraints (List.mem_append_right _ hc)⟩
          · exact hdone w hw hpw
      | false =>
          simp only [Bool.false_eq_true, if_false] at h
          obtain ⟨hadvance', hdone⟩ := ih (fun w hw => hsay w (List.mem_cons_of_mem v hw)) h
          refine ⟨hadvance', ?_⟩
          intro w hw hpw
          rcases List.mem_cons.1 hw with rfl | hw
          · exact absurd hpointer hpw.not_isScalar
          · exact hdone w hw hpw

/-- Exported values, and the operands of an operation that is not modelled. -/
theorem eachEscape_ok {values : List ValueId}
    (hsay : ∀ v ∈ values, program.IsPointer v → program.Says (.escapes v))
    (h : d.eachPointer program (fun r => [.escapes r]) values = .ok d') :
    Advances program d d' [] ∧
      ∀ v ∈ values, program.IsPointer v → d'.Covers program (.escapes v) := by
  obtain ⟨hadvance, hdone⟩ := eachPointer_ok (fun v hv hpv p r hr c hc => by
    obtain rfl := List.mem_singleton.1 hc
    exact ⟨_, hsay v hv hpv, .escapes hr⟩) h
  refine ⟨hadvance, fun v hv hpv => ?_⟩
  obtain ⟨r, hr, hc⟩ := hdone v hv hpv
  exact .stated (hc _ (by simp)) (.escapes hr)

theorem phiInputs_ok {output : ValueId} {register : Handle} {inputs : List ValueId}
    (hsay : ∀ v ∈ inputs, program.IsPointer v → program.Says (.flow v output))
    (hout : d.pool.RegisterOf output register)
    (h : d.phiInputs program register inputs = .ok d') :
    Advances program d d' [] ∧
      ∀ v ∈ inputs, program.IsPointer v → d'.Covers program (.flow v output) := by
  induction inputs generalizing d with
  | nil =>
      obtain rfl := Except.ok.inj h
      exact ⟨.refl _ _, by simp⟩
  | cons v rest ih =>
      simp only [phiInputs, bind_eq_ok, liftM_eq_ok, isPointer_eq_ok] at h
      obtain ⟨pointer, hpointer, h⟩ := h
      have hsay' := fun w hw => hsay w (List.mem_cons_of_mem v hw)
      cases pointer with
      | true =>
          simp only [if_true, bind_eq_ok, Prod.exists] at h
          obtain ⟨r, d₁, hr, hrest⟩ := h
          obtain ⟨hadvance, hof⟩ := register_ok hr
          have hout₁ := hadvance.grows.registerOf hout
          -- the input's register is the output's own, or is included in it
          obtain ⟨d₂, hd₂, hadvance₂, hcovers⟩ : ∃ d₂,
              (if r = register then d₁ else d₁.add (.superset register r)) = d₂ ∧
              Advances program d₁ d₂ [] ∧ d₂.Covers program (.flow v output) := by
            by_cases heq : r = register
            · exact ⟨d₁, if_pos heq, .refl _ _, .shared hof (heq ▸ hout₁)⟩
            · exact ⟨_, if_neg heq, advances_add (hsay v (by simp) hpointer) (.flow hof hout₁),
                .stated mem_add (.flow hof hout₁)⟩
          rw [hd₂] at hrest
          obtain ⟨hadvance', hdone⟩ := ih hsay' (hadvance₂.grows.registerOf hout₁) hrest
          refine ⟨(hadvance.trans hadvance₂).trans hadvance', ?_⟩
          intro w hw hpw
          rcases List.mem_cons.1 hw with rfl | hw
          · exact hadvance'.covers hcovers
          · exact hdone w hw hpw
      | false =>
          simp only [Bool.false_eq_true, if_false] at h
          obtain ⟨hadvance', hdone⟩ := ih hsay' hout h
          refine ⟨hadvance', ?_⟩
          intro w hw hpw
          rcases List.mem_cons.1 hw with rfl | hw
          · exact absurd hpointer hpw.not_isScalar
          · exact hdone w hw hpw

/-! ## Operations -/

/-- The object that generation makes for an operation. -/
def objectsOf (op : Operation) : List (Entity.Kind × Origin) :=
  match op.kind with
  | .alloca => [(.allocaObject, .operation op.id)]
  | .malloc => [(.heapObject, .operation op.id)]
  | _ => []

/-- The operands through which an operation touches memory exist and have registers. -/
def Serves (program : Program) (p : Pool) (op : Operation) : Prop :=
  match op.kind with
  | .load | .store | .free =>
    ∃ address r, op.inputs[0]? = some address ∧ p.RegisterOf address r
  | .memcpy => ∃ target source r s, op.inputs[0]? = some target ∧ p.RegisterOf target r ∧
      op.inputs[1]? = some source ∧ p.RegisterOf source s
  | .call =>
    ∃ callee r arguments results, op.inputs[0]? = some callee ∧ p.RegisterOf callee r ∧
      p.RegistersOf program op.arguments arguments ∧ p.RegistersOf program op.outputs results
  | _ => True

theorem Serves.grow {p q : Pool} {op : Operation} (h : Serves program p op) (hg : p.Grows q) :
    Serves program q op := by
  unfold Serves at h ⊢
  split at h
  case h_4 =>
    obtain ⟨target, source, r, s, htarget, hr, hsource, hs⟩ := h
    exact ⟨target, source, r, s, htarget, hg.registerOf hr, hsource, hg.registerOf hs⟩
  case h_5 =>
    obtain ⟨callee, r, arguments, results, hcallee, hr, ha, hs⟩ := h
    exact ⟨callee, r, arguments, results, hcallee, hg.registerOf hr, hg.registersOf ha,
      hg.registersOf hs⟩
  case h_6 => trivial
  all_goals
    obtain ⟨address, r, haddress, hr⟩ := h
    exact ⟨address, r, haddress, hg.registerOf hr⟩

/-- What taking in an operation achieves. -/
def Takes (program : Program) (op : Operation) (d d' : Draft) : Prop :=
  Advances program d d' (objectsOf op) ∧
    (∀ fact, op.Says program fact → d'.Covers program fact) ∧ Serves program d'.pool op

theorem allocation_ok {op : Operation} {kind : Entity.Kind} {word : String}
    (hk : kind.isMemoryObject = true) (hs : kind.isSentinel = false)
    (hsay : ∀ output, op.outputs[0]? = some output →
      program.Says (.object output kind (.operation op.id)))
    (h : d.allocation program op kind word = .ok d') :
    Advances program d d' [(kind, .operation op.id)] ∧
      ∃ output, op.outputs[0]? = some output ∧
        d'.Covers program (.object output kind (.operation op.id)) := by
  simp only [allocation, bind_eq_ok, liftM_eq_ok, operandAt_eq_ok, pure_eq_ok,
    Prod.exists] at h
  obtain ⟨output, houtput, value, -, o, d₁, hentity, r, d₂, hregister, rfl⟩ := h
  obtain ⟨hadvance, hid, hmade⟩ := entity_ok program hentity hk hs (by simp)
  obtain ⟨hadvance', hof⟩ := register_ok hregister
  have hstates :
      States program d₂.pool (.object output kind (.operation op.id)) (.pointsTo r o) :=
    .object hof (hid.trans hadvance'.grows.id_eq.symm) (hadvance'.grows.made hmade) hk
  exact ⟨(hadvance.trans hadvance').trans (advances_add (hsay output houtput) hstates),
    output, houtput, .stated mem_add hstates⟩

/-- An address computed from an input. -/
theorem derived_ok {op : Operation} (hop : op ∈ program.operations)
    (hkind : op.kind = .elementPointer ∨ op.kind = .bitcast)
    (h : d.derived program op = .ok d') :
    Advances program d d' [] ∧ ∀ fact, op.Says program fact → d'.Covers program fact := by
  simp only [derived, bind_eq_ok, liftM_eq_ok, operandAt_eq_ok, isPointer_eq_ok] at h
  obtain ⟨input, hinput, output, houtput, pointer, hpointer, h⟩ := h
  have hsaid : ∀ {fact}, op.Says program fact ↔ program.IsPointer output ∧
      (program.IsPointer input ∧ fact = .flow input output ∨
        program.IsScalar input ∧ fact = .external output) := by
    intro fact
    rcases hkind with hkind | hkind <;> simp [Operation.Says, hkind, hinput, houtput]
  cases pointer with
  | false =>
      obtain rfl := pure_eq_ok.1 h
      exact ⟨.refl _ _, fun fact hf => absurd hpointer (hsaid.1 hf).1.not_isScalar⟩
  | true =>
      simp only [Bool.not_true, Bool.false_eq_true, if_false, bind_eq_ok, liftM_eq_ok,
        isPointer_eq_ok] at h
      obtain ⟨pointer', hpointer', h⟩ := h
      cases pointer' with
      | false =>
          simp only [Bool.not_false, if_true, bind_eq_ok, pure_eq_ok, Prod.exists] at h
          obtain ⟨r, d₁, hr, rfl⟩ := h
          obtain ⟨hadvance, hof⟩ := register_ok hr
          have hsay := hsaid.2 ⟨hpointer, .inr ⟨hpointer', rfl⟩⟩
          refine ⟨hadvance.trans (advances_add (.operation hop hsay) (.external hof)), ?_⟩
          intro fact hf
          rcases (hsaid.1 hf).2 with ⟨hin, -⟩ | ⟨-, rfl⟩
          · exact absurd hpointer' hin.not_isScalar
          · exact .stated mem_add (.external hof)
      | true =>
          simp only [Bool.not_true, Bool.false_eq_true, if_false, bind_eq_ok, Prod.exists] at h
          obtain ⟨base, d₁, hr, h⟩ := h
          obtain ⟨hadvance, hof⟩ := register_ok hr
          have hsay := hsaid.2 ⟨hpointer, .inl ⟨hpointer', rfl⟩⟩
          have honly : ∀ {d₂ : Draft}, d₂.Covers program (.flow input output) →
              ∀ fact, op.Says program fact → d₂.Covers program fact := by
            intro d₂ hcovers fact hf
            rcases (hsaid.1 hf).2 with ⟨-, rfl⟩ | ⟨hin, -⟩
            · exact hcovers
            · exact absurd hin (Program.IsPointer.not_isScalar hpointer')
          split at h
          · next existing hexisting =>
              obtain rfl := pure_eq_ok.1 h
              have hstates : States program d₁.pool (.flow input output)
                  (.superset (d₁.pool.handle existing) base) := .flow hof ⟨hexisting, rfl⟩
              exact ⟨hadvance.trans (advances_add (.operation hop hsay) hstates),
                honly (.stated mem_add hstates)⟩
          · next hnone =>
              have hgrows := Pool.grows_bindRegister d₁.pool output base.index
              simp only [bind_eq_ok, liftM_eq_ok, pure_eq_ok] at h
              obtain ⟨q, hq, rfl⟩ := h
              obtain ⟨-, rfl⟩ := Pool.shareRegister_eq_ok hq
              have hderives : program.Derives input output :=
                ⟨op, hop, hkind, hinput, houtput, hpointer', hpointer⟩
              refine ⟨hadvance.trans ⟨hgrows, fun hc => hc,
                by simp [Pool.objects, Pool.bindRegister],
                fun hd => hd.grow (hd.pool.bindRegister hnone hof.1 hderives) hgrows⟩, honly ?_⟩
              exact .shared (hgrows.registerOf hof)
                ⟨Pool.register?_bindRegister_self hnone, hof.2⟩

/-- An allocation of either kind. -/
theorem allocate_ok {op : Operation} {kind : Entity.Kind} {word : String}
    (hk : kind.isMemoryObject = true) (hs : kind.isSentinel = false)
    (hobjects : objectsOf op = [(kind, .operation op.id)])
    (hsaid : ∀ {fact}, op.Says program fact ↔ ∃ output, op.outputs[0]? = some output ∧
      fact = .object output kind (.operation op.id))
    (hserves : ∀ p, Serves program p op)
    (hsay : ∀ {fact}, op.Says program fact → program.Says fact)
    (h : d.allocation program op kind word = .ok d') : Takes program op d d' := by
  obtain ⟨hadvance, output, houtput, hcovers⟩ := allocation_ok hk hs
    (fun output houtput => hsay (hsaid.2 ⟨output, houtput, rfl⟩)) h
  refine ⟨hobjects ▸ hadvance, fun fact hf => ?_, hserves _⟩
  obtain ⟨output', houtput', rfl⟩ := hsaid.1 hf
  obtain rfl := Option.some_injective _ (houtput.symm.trans houtput')
  exact hcovers

theorem free_ok {op : Operation} (hk : op.kind = .free) (h : d.operation program op = .ok d') :
    Takes program op d d' := by
  simp only [operation, hk, bind_eq_ok, liftM_eq_ok, operandAt_eq_ok, pure_eq_ok,
    Prod.exists] at h
  obtain ⟨address, haddress, r, d₁, hr, rfl⟩ := h
  obtain ⟨hadvance, hof⟩ := register_ok hr
  refine ⟨by rw [objectsOf, hk]; exact hadvance, fun fact hf => ?_, ?_⟩
  · simp [Operation.Says, hk] at hf
  · simp only [Serves, hk]
    exact ⟨address, r, haddress, hof⟩

theorem intToPointer_ok {op : Operation} (hk : op.kind = .intToPointer)
    (hsay : ∀ {fact}, op.Says program fact → program.Says fact)
    (h : d.operation program op = .ok d') : Takes program op d d' := by
  simp only [operation, hk, bind_eq_ok, liftM_eq_ok, operandAt_eq_ok, pure_eq_ok,
    Prod.exists] at h
  obtain ⟨output, houtput, r, d₁, hr, rfl⟩ := h
  obtain ⟨hadvance, hof⟩ := register_ok hr
  have hsaid : ∀ {fact}, op.Says program fact ↔ fact = .external output := by
    intro fact
    simp [Operation.Says, hk, houtput]
  have hadd := hadvance.trans (advances_add (hsay (hsaid.2 rfl)) (.external hof))
  refine ⟨by rw [objectsOf, hk]; exact hadd, fun fact hf => ?_, by simp [Serves, hk]⟩
  obtain rfl := hsaid.1 hf
  exact .stated mem_add (.external hof)

theorem phi_ok {op : Operation} (hk : op.kind = .phi)
    (hsay : ∀ {fact}, op.Says program fact → program.Says fact)
    (h : d.operation program op = .ok d') : Takes program op d d' := by
  simp only [operation, hk, bind_eq_ok, liftM_eq_ok, operandAt_eq_ok, isPointer_eq_ok] at h
  obtain ⟨output, houtput, pointer, hpointer, h⟩ := h
  have hsaid : ∀ {fact}, op.Says program fact ↔ program.IsPointer output ∧
      ∃ input ∈ op.inputs, program.IsPointer input ∧ fact = .flow input output := by
    intro fact
    simp [Operation.Says, hk, houtput]
  rw [Takes, objectsOf, hk]
  cases pointer with
  | false =>
      obtain rfl := pure_eq_ok.1 h
      exact ⟨.refl _ _, fun fact hf => absurd hpointer (hsaid.1 hf).1.not_isScalar,
        by simp [Serves, hk]⟩
  | true =>
      simp only [if_true, bind_eq_ok, Prod.exists] at h
      obtain ⟨r, d₁, hr, h⟩ := h
      obtain ⟨hadvance, hof⟩ := register_ok hr
      obtain ⟨hadvance', hcovers⟩ := phiInputs_ok
        (fun v hv hpv => hsay (hsaid.2 ⟨hpointer, v, hv, hpv, rfl⟩)) hof h
      refine ⟨hadvance.trans hadvance', fun fact hf => ?_, by simp [Serves, hk]⟩
      obtain ⟨-, v, hv, hpv, rfl⟩ := hsaid.1 hf
      exact hcovers v hv hpv

theorem blackBox_ok {op : Operation} (hk : op.kind = .blackBox)
    (hsay : ∀ {fact}, op.Says program fact → program.Says fact)
    (h : d.operation program op = .ok d') : Takes program op d d' := by
  simp only [operation, hk, bind_eq_ok] at h
  obtain ⟨d₁, hin, hout⟩ := h
  have hsaid : ∀ {fact}, op.Says program fact ↔
      (∃ input ∈ op.inputs, program.IsPointer input ∧ fact = .escapes input) ∨
      ∃ output ∈ op.outputs, program.IsPointer output ∧
        (fact = .external output ∨ fact = .unknown output) := by
    intro fact
    simp [Operation.Says, hk]
  obtain ⟨hadvance, hcovers⟩ := eachEscape_ok
    (fun v hv hpv => hsay (hsaid.2 (.inl ⟨v, hv, hpv, rfl⟩))) hin
  obtain ⟨hadvance', hdone⟩ := eachPointer_ok (fun v hv hpv p r hr c hc => by
    have hv := fun fact hf => hsay (hsaid.2 (.inr ⟨v, hv, hpv, (hf : fact = _ ∨ fact = _)⟩))
    simp only [List.mem_cons, List.not_mem_nil, or_false] at hc
    rcases hc with rfl | rfl
    · exact ⟨_, hv _ (.inl rfl), .external hr⟩
    · exact ⟨_, hv _ (.inr rfl), .unknown hr⟩) hout
  rw [Takes, objectsOf, hk]
  refine ⟨hadvance.trans hadvance', fun fact hf => ?_, by simp [Serves, hk]⟩
  rcases hsaid.1 hf with ⟨v, hv, hpv, rfl⟩ | ⟨v, hv, hpv, hfact⟩
  · exact hadvance'.covers (hcovers v hv hpv)
  · obtain ⟨r, hr, hc⟩ := hdone v hv hpv
    rcases hfact with rfl | rfl
    · exact .stated (hc _ (by simp)) (.external hr)
    · exact .stated (hc _ (by simp)) (.unknown hr)

/-- Loads and stores: the address gets a register, and so does the value if it is an address;
then the access is worded. -/
theorem access_ok {op : Operation} (found : Except Fault ValueId)
    (fact : ValueId → ValueId → Fact) (word : Handle → Handle → Constraint)
    (hobjects : objectsOf op = [])
    (hserves : ∀ {p : Pool} {a r}, op.inputs[0]? = some a → p.RegisterOf a r →
      Serves program p op)
    (hsaid : ∀ {f a v}, op.inputs[0]? = some a → found = .ok v →
      (op.Says program f ↔ program.IsPointer v ∧ f = fact v a))
    (hstates : ∀ {p : Pool} {v a rv ra}, p.RegisterOf v rv → p.RegisterOf a ra →
      States program p (fact v a) (word rv ra))
    (hsay : ∀ {f}, op.Says program f → program.Says f)
    (h : (do
      let (address, d) ← d.register program (← operandAt op.inputs 0)
      let value ← found
      if ← isPointer program value then
        let (value, d) ← d.register program value
        return d.add (word value address)
      else
        return d : Step Draft) = .ok d') : Takes program op d d' := by
  simp only [bind_eq_ok, liftM_eq_ok, operandAt_eq_ok, isPointer_eq_ok, Prod.exists] at h
  obtain ⟨address, haddress, ra, d₁, ha, value, hvalue, pointer, hpointer, h⟩ := h
  obtain ⟨hadvance, hofa⟩ := register_ok ha
  have hsaid := fun {f} => @hsaid f address value haddress hvalue
  rw [Takes, hobjects]
  cases pointer with
  | false =>
      obtain rfl := pure_eq_ok.1 h
      exact ⟨hadvance, fun f hf => absurd hpointer (hsaid.1 hf).1.not_isScalar,
        hserves haddress hofa⟩
  | true =>
      simp only [if_true, bind_eq_ok, pure_eq_ok, Prod.exists] at h
      obtain ⟨rv, d₂, hv, rfl⟩ := h
      obtain ⟨hadvance', hofv⟩ := register_ok hv
      have hofa' := hadvance'.grows.registerOf hofa
      have hadd := advances_add (d := d₂) (hsay (hsaid.2 ⟨hpointer, rfl⟩)) (hstates hofv hofa')
      refine ⟨(hadvance.trans hadvance').trans hadd, ?_, hserves haddress hofa'⟩
      intro f hf
      obtain ⟨-, rfl⟩ := hsaid.1 hf
      exact .stated mem_add (hstates hofv hofa')

theorem load_ok {op : Operation} (hk : op.kind = .load)
    (hsay : ∀ {fact}, op.Says program fact → program.Says fact)
    (h : d.operation program op = .ok d') : Takes program op d d' := by
  simp only [operation, hk] at h
  refine access_ok (operandAt op.outputs 0) .load .load (by simp [objectsOf, hk]) ?_
    ?_ .load hsay h
  · intro p a r ha hr
    simp only [Serves, hk]
    exact ⟨a, r, ha, hr⟩
  · intro f a v ha hv
    rw [operandAt_eq_ok] at hv
    simp [Operation.Says, hk, ha, hv]

theorem store_ok {op : Operation} (hk : op.kind = .store)
    (hsay : ∀ {fact}, op.Says program fact → program.Says fact)
    (h : d.operation program op = .ok d') : Takes program op d d' := by
  simp only [operation, hk] at h
  refine access_ok (operandAt op.inputs 1) (fun v a => .store a v) (fun v a => .store a v)
    (by simp [objectsOf, hk]) ?_ ?_ (fun hv ha => .store ha hv) hsay h
  · intro p a r ha hr
    simp only [Serves, hk]
    exact ⟨a, r, ha, hr⟩
  · intro f a v ha hv
    rw [operandAt_eq_ok] at hv
    simp [Operation.Says, hk, ha, hv]

theorem memcpy_ok {op : Operation} (hk : op.kind = .memcpy)
    (hsay : ∀ {fact}, op.Says program fact → program.Says fact)
    (h : d.operation program op = .ok d') : Takes program op d d' := by
  simp only [operation, hk, bind_eq_ok, liftM_eq_ok, operandAt_eq_ok, pure_eq_ok,
    Prod.exists] at h
  obtain ⟨target, htarget, rt, d₁, ht, source, hsource, rs, d₂, hs, i, q, hq, rfl⟩ := h
  obtain ⟨hadvance, hoft⟩ := register_ok ht
  obtain ⟨hadvance', hofs⟩ := register_ok hs
  obtain ⟨rfl, rfl⟩ := Pool.create_eq_ok (budgeted_eq_ok hq)
  have hoft' := hadvance'.grows.registerOf hoft
  have hsaid : ∀ {fact}, op.Says program fact ↔ fact = .copy target source := by
    intro fact
    simp [Operation.Says, hk, htarget, hsource]
  have hcopy := advances_copy "dummy" (hsay (hsaid.2 rfl)) hofs hoft'
  rw [Takes, objectsOf, hk]
  refine ⟨(hadvance.trans hadvance').trans hcopy, ?_, ?_⟩
  · intro fact hf
    obtain rfl := hsaid.1 hf
    exact .copied (r := d₂.pool.handle d₂.pool.size) (hcopy.grows.registerOf hofs)
      (hcopy.grows.registerOf hoft')
      (List.mem_append_right _ (by simp [Pool.handle, Pool.push]))
      (List.mem_append_right _ (by simp [Pool.handle, Pool.push]))
  · simp only [Serves, hk]
    exact ⟨target, source, rt, rs, htarget, hcopy.grows.registerOf hoft', hsource,
      hcopy.grows.registerOf hofs⟩

theorem call_ok {op : Operation} (hk : op.kind = .call)
    (hsay : ∀ {fact}, op.Says program fact → program.Says fact)
    (h : d.operation program op = .ok d') : Takes program op d d' := by
  simp only [operation, hk, bind_eq_ok, liftM_eq_ok, operandAt_eq_ok, pure_eq_ok,
    Prod.exists] at h
  obtain ⟨callee, hcallee, r, d₁, hr, arguments, d₂, ha, results, d₃, hs, rfl⟩ := h
  obtain ⟨hadvance₁, hofr⟩ := register_ok hr
  obtain ⟨hadvance₂, hofa⟩ := pointerRegisters_ok ha
  obtain ⟨hadvance₃, hofs⟩ := pointerRegisters_ok hs
  have hofr' := hadvance₃.grows.registerOf (hadvance₂.grows.registerOf hofr)
  have hofa' := hadvance₃.grows.registersOf hofa
  have hsaid :
      ∀ {fact}, op.Says program fact ↔ fact = .call callee op.arguments op.outputs := by
    intro fact
    simp [Operation.Says, hk, hcallee]
  have hstates := States.call hofr' hofa' hofs
  rw [Takes, objectsOf, hk]
  refine ⟨((hadvance₁.trans hadvance₂).trans hadvance₃).trans
    (advances_add (hsay (hsaid.2 rfl)) hstates), ?_, ?_⟩
  · intro fact hf
    obtain rfl := hsaid.1 hf
    exact .stated mem_add hstates
  · simp only [Serves, hk]
    exact ⟨callee, r, arguments, results, hcallee, hofr', hofa', hofs⟩

/-- **Every operation is taken in**: its objects are made and all that it says is worded. -/
theorem operation_ok {op : Operation} (hop : op ∈ program.operations)
    (h : d.operation program op = .ok d') : Takes program op d d' := by
  have hsay : ∀ {fact}, op.Says program fact → program.Says fact := fun hf => .operation hop hf
  cases hk : op.kind
  case load => exact load_ok hk hsay h
  case store => exact store_ok hk hsay h
  case memcpy => exact memcpy_ok hk hsay h
  case call => exact call_ok hk hsay h
  case free => exact free_ok hk h
  case intToPointer => exact intToPointer_ok hk hsay h
  case phi => exact phi_ok hk hsay h
  case blackBox => exact blackBox_ok hk hsay h
  all_goals
    simp only [operation, hk, bind_eq_ok, liftM_eq_ok, operandAt_eq_ok] at h
  case alloca | malloc =>
    exact allocate_ok rfl rfl (by simp [objectsOf, hk]) (by simp [Operation.Says, hk])
      (by simp [Serves, hk]) hsay h
  case elementPointer =>
    obtain ⟨hadvance, hcovers⟩ := derived_ok hop (.inl hk) h
    exact ⟨by rw [objectsOf, hk]; exact hadvance, hcovers, by simp [Serves, hk]⟩
  case bitcast =>
    obtain ⟨hadvance, hcovers⟩ := derived_ok hop (.inr hk) h
    exact ⟨by rw [objectsOf, hk]; exact hadvance, hcovers, by simp [Serves, hk]⟩
  case nullPointer | undef =>
    obtain ⟨output, houtput, h⟩ := h
    obtain ⟨hadvance, -⟩ := eachPointer_ok (fun _ _ _ _ _ _ _ hc => absurd hc (by simp)) h
    exact ⟨by rw [objectsOf, hk]; exact hadvance,
      fun fact hf => by simp [Operation.Says, hk] at hf, by simp [Serves, hk]⟩

/-! ## Imports and functions -/

/-- The objects of a walk are those of its steps. -/
theorem advances_foldlM {α : Type} {f : Draft → α → Step Draft}
    {made : α → List (Entity.Kind × Origin)} {D : α → Draft → Prop}
    (keep : ∀ {a s t m}, D a s → Advances program s t m → D a t) {l : List α}
    (round : ∀ s t, ∀ a ∈ l, f s a = .ok t → Advances program s t (made a) ∧ D a t)
    (h : l.foldlM f d = .ok d') :
    Advances program d d' (l.flatMap made) ∧ ∀ a ∈ l, D a d' := by
  induction l generalizing d with
  | nil =>
      obtain rfl := pure_eq_ok.1 h
      exact ⟨.refl _ _, by simp⟩
  | cons a l ih =>
      rw [List.foldlM_cons, bind_eq_ok] at h
      obtain ⟨d₁, hd₁, h⟩ := h
      obtain ⟨hadvance, hdone⟩ := round d d₁ a (by simp) hd₁
      obtain ⟨hadvance', hdone'⟩ :=
        ih (fun s t b hb => round s t b (List.mem_cons_of_mem a hb)) h
      refine ⟨hadvance.trans hadvance', ?_⟩
      intro b hb
      rcases List.mem_cons.1 hb with rfl | hb
      · exact keep hdone hadvance'
      · exact hdone' b hb

end Draft
end PointerChannels.Generation
