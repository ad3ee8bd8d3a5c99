import PointerChannels.Proofs.Generation.Whole
import PointerChannels.Proofs.Program.Shape

/-!
# Generation stops only at its budget

For a built program whose values exist, every look-up of the walk finds what it needs:
operations have the operands of their kinds, values that get a register have none yet, and
the object that a signature is given to is the function's own.  What is left to stop the
walk is the entity budget.

`Faultless` is closed under sequencing, so each part of the walk is a chain of its steps.  What
a step leaves behind is known from the lemmas on steps that ended.

## Main definitions

* `Faultless` — a step that ends or is stopped by the budget.

## Main statements

* `generate_faultless` — the whole walk.
-/

namespace PointerChannels.Generation

variable {program : Program} {limit : Option Nat} {α β : Type} {x : Step α}

/-- The step ends, or is stopped because it needs more than `limit` entities. -/
def Faultless (limit : Option Nat) (x : Step α) : Prop :=
  (∃ a, x = .ok a) ∨ ∃ most, limit = some most ∧ x = .error (.error ⟨most⟩)

namespace Faultless

theorem ok (a : α) : Faultless limit (.ok a) := .inl ⟨a, rfl⟩

theorem lift {y : Except Fault α} (h : ∃ a, y = .ok a) : Faultless limit (liftM y) := by
  obtain ⟨a, rfl⟩ := h
  exact ok a

/-- A step that goes on from where another one ended. -/
theorem bind {f : α → Step β} (hx : Faultless limit x)
    (hf : ∀ a, x = .ok a → Faultless limit (f a)) : Faultless limit (x >>= f) := by
  rcases hx with ⟨a, rfl⟩ | ⟨most, hlimit, rfl⟩
  · exact hf a rfl
  · exact .inr ⟨most, hlimit, rfl⟩

/-- A step that goes on from where a walk ended.  The rounds of the walk keep what they need,
and what the step needs. -/
theorem foldlM_bind {σ : Type} {f : σ → α → Step σ} {g : σ → Step β}
    {G : σ → Prop} {l : List α} {s : σ} (hs : G s)
    (round : ∀ s, ∀ a ∈ l, G s → Faultless limit (f s a) ∧ ∀ t, f s a = .ok t → G t)
    (hg : ∀ t, G t → Faultless limit (g t)) :
    Faultless limit (l.foldlM f s >>= g) := by
  suffices h : Faultless limit (l.foldlM f s) ∧ ∀ t, l.foldlM f s = .ok t → G t from
    h.1.bind fun t ht => hg t (h.2 t ht)
  clear hg
  induction l generalizing s with
  | nil =>
      refine ⟨ok s, fun t ht => ?_⟩
      rwa [← pure_eq_ok.1 ht]
  | cons a l ih =>
      obtain ⟨hstep, hkeep⟩ := round s a (by simp) hs
      have hrest :=
        fun t ht => ih (hkeep t ht) fun s b hb => round s b (List.mem_cons_of_mem a hb)
      rw [List.foldlM_cons]
      refine ⟨hstep.bind fun t ht => (hrest t ht).1, fun u hu => ?_⟩
      obtain ⟨t, ht, hu⟩ := bind_eq_ok.1 hu
      exact (hrest t ht).2 u hu

end Faultless

theorem exists_isPointer {v : ValueId} (hv : v < program.values.size) :
    ∃ pointer, isPointer program v = .ok pointer :=
  ⟨program.values[v].isPointer, isPointer_eq_ok.2 (by rw [Array.getElem?_eq_getElem hv]; rfl)⟩

namespace Draft

variable {d : Draft}

/-! ## Entities and registers -/

theorem create_cases {p : Pool} {kind : Entity.Kind} {label : String} {origin : Origin}
    (hp : p.capacity = limit) : (∃ made, p.create kind label origin = .ok made) ∨
      ∃ most, limit = some most ∧ p.create kind label origin = .error ⟨most⟩ := by
  subst hp
  unfold Pool.create
  split
  · next most hmost =>
      split
      · exact .inr ⟨most, hmost, rfl⟩
      · exact .inl ⟨_, rfl⟩
  · exact .inl ⟨_, rfl⟩

theorem create_faultless {p : Pool} {kind : Entity.Kind} {label : String} {origin : Origin}
    (hp : p.capacity = limit) : Faultless limit (budgeted (p.create kind label origin)) := by
  rcases create_cases hp with ⟨made, h⟩ | ⟨most, hlimit, h⟩ <;> rw [h]
  · exact .ok made
  · exact .inr ⟨most, hlimit, rfl⟩

theorem entity_faultless {kind : Entity.Kind} {label : String} {origin : Origin}
    (hd : d.pool.capacity = limit) : Faultless limit (d.entity kind label origin) :=
  (create_faultless hd).bind fun _ _ => .ok _

/-- Only a value without a register is given one. -/
theorem register_faultless {v : ValueId} (hd : d.pool.capacity = limit)
    (hv : v < program.values.size) : Faultless limit (d.register program v) := by
  unfold register
  split
  · exact .ok _
  · next hnone =>
      refine (Faultless.lift (Program.exists_value hv)).bind fun value _ => ?_
      refine Faultless.bind ?_ fun _ _ => .ok _
      rw [Pool.createRegister, hnone, Option.isSome_none, if_neg Bool.false_ne_true]
      rcases create_cases hd with ⟨made, h⟩ | ⟨most, hlimit, h⟩ <;> rw [h]
      · exact .ok _
      · exact .inr ⟨most, hlimit, rfl⟩

/-- A step that goes on from a new memory object. -/
theorem bind_entity {kind : Entity.Kind} {label : String} {origin : Origin}
    {f : Handle × Draft → Step α} (program : Program) (hd : d.pool.capacity = limit)
    (hk : kind.isMemoryObject = true) (hs : kind.isSentinel = false) (ho : origin ≠ .synthetic)
    (hf : ∀ o d', d'.pool.capacity = limit → Faultless limit (f (o, d'))) :
    Faultless limit (d.entity kind label origin >>= f) := by
  refine (entity_faultless hd).bind ?_
  rintro ⟨o, d'⟩ h
  exact hf o d' ((entity_ok program h hk hs ho).1.grows.capacity_eq.trans hd)

/-- A step that goes on from the register of a value. -/
theorem bind_register {v : ValueId} {f : Handle × Draft → Step α}
    (hd : d.pool.capacity = limit) (hv : v < program.values.size)
    (hf : ∀ r d', d'.pool.capacity = limit → Faultless limit (f (r, d'))) :
    Faultless limit (d.register program v >>= f) := by
  refine (register_faultless hd hv).bind ?_
  rintro ⟨r, d'⟩ h
  exact hf r d' ((register_ok h).1.grows.capacity_eq.trans hd)

/-- A step that needs the register of a value only if the value holds an address. -/
theorem ifPointer_faultless {v : ValueId} {f : Handle × Draft → Step α} {y : Step α}
    (hd : d.pool.capacity = limit) (hv : v < program.values.size)
    (hf : ∀ r d', d'.pool.capacity = limit → Faultless limit (f (r, d')))
    (hy : Faultless limit y) :
    Faultless limit (liftM (isPointer program v) >>= fun pointer =>
      if pointer = true then d.register program v >>= f else y) := by
  refine (Faultless.lift (exists_isPointer hv)).bind fun pointer _ => ?_
  split
  · exact bind_register hd hv hf
  · exact hy

section Values

variable {v : ValueId} {values : List ValueId}

theorem pointerRegisters_faultless (hd : d.pool.capacity = limit)
    (hvalues : ∀ v ∈ values, v < program.values.size) :
    Faultless limit (d.pointerRegisters program values) := by
  induction values generalizing d with
  | nil => exact .ok _
  | cons v rest ih =>
      have hrest := fun w hw => hvalues w (List.mem_cons_of_mem v hw)
      refine ifPointer_faultless hd (hvalues v (by simp)) (fun r d' hd' => ?_) ?_
      · exact (ih hd' hrest).bind fun _ _ => .ok _
      · exact (ih hd hrest).bind fun _ _ => .ok _

theorem eachPointer_faultless {constrain : Handle → List Constraint}
    (hd : d.pool.capacity = limit) (hvalues : ∀ v ∈ values, v < program.values.size) :
    Faultless limit (d.eachPointer program constrain values) := by
  induction values generalizing d with
  | nil => exact .ok _
  | cons v rest ih =>
      have hrest := fun w hw => hvalues w (List.mem_cons_of_mem v hw)
      refine ifPointer_faultless hd (hvalues v (by simp)) (fun r d' hd' => ?_) (ih hd hrest)
      exact ih (d := d'.addAll (constrain r)) hd' hrest

theorem phiInputs_faultless {register : Handle} (hd : d.pool.capacity = limit)
    (hvalues : ∀ v ∈ values, v < program.values.size) :
    Faultless limit (d.phiInputs program register values) := by
  induction values generalizing d with
  | nil => exact .ok _
  | cons v rest ih =>
      have hrest := fun w hw => hvalues w (List.mem_cons_of_mem v hw)
      refine ifPointer_faultless hd (hvalues v (by simp))
        (fun r d' hd' => ih ?_ hrest) (ih hd hrest)
      split
      · exact hd'
      · exact hd'

end Values

/-! ## Operations -/

/-- The operands of an operation are those of its kind, and exist. -/
structure Usable (program : Program) (op : Operation) : Prop extends op.Shaped where
  input_lt : ∀ v ∈ op.inputs, v < program.values.size
  output_lt : ∀ v ∈ op.outputs, v < program.values.size

variable {op : Operation}

/-- A step that takes an input of an operation. -/
theorem Usable.bind_input (h : Usable program op) {i : Nat} (hi : i < op.kind.leastInputs)
    {f : ValueId → Step α} (hf : ∀ v, v < program.values.size → Faultless limit (f v)) :
    Faultless limit (liftM (operandAt op.inputs i) >>= f) := by
  obtain ⟨v, hv⟩ := h.toShaped.exists_input hi
  refine (Faultless.lift ⟨v, operandAt_eq_ok.2 hv⟩).bind fun w hw => hf w ?_
  exact h.input_lt w (List.mem_of_getElem? (operandAt_eq_ok.1 (liftM_eq_ok.1 hw)))

/-- A step that takes an output of an operation. -/
theorem Usable.bind_output (h : Usable program op) {i : Nat} (hi : i < op.kind.leastOutputs)
    {f : ValueId → Step α} (hf : ∀ v, v < program.values.size → Faultless limit (f v)) :
    Faultless limit (liftM (operandAt op.outputs i) >>= f) := by
  obtain ⟨v, hv⟩ := h.toShaped.exists_output hi
  refine (Faultless.lift ⟨v, operandAt_eq_ok.2 hv⟩).bind fun w hw => hf w ?_
  exact h.output_lt w (List.mem_of_getElem? (operandAt_eq_ok.1 (liftM_eq_ok.1 hw)))

theorem allocation_faultless {kind : Entity.Kind} {word : String} (hop : Usable program op)
    (hd : d.pool.capacity = limit) (hout : 0 < op.kind.leastOutputs)
    (hk : kind.isMemoryObject = true) (hs : kind.isSentinel = false) :
    Faultless limit (d.allocation program op kind word) := by
  refine hop.bind_output hout fun output houtput => ?_
  refine (Faultless.lift (Program.exists_value houtput)).bind fun value _ => ?_
  refine bind_entity program hd hk hs (by simp) fun o d₁ hd₁ => ?_
  exact (register_faultless hd₁ houtput).bind fun _ _ => .ok _

/-- A register that is shared is one of the pool, and is given to a value that has none. -/
theorem derived_faultless (hop : Usable program op) (hd : d.pool.capacity = limit)
    (htidy : d.Tidy program) (hin : 0 < op.kind.leastInputs)
    (hout : 0 < op.kind.leastOutputs) : Faultless limit (d.derived program op) := by
  refine hop.bind_input hin fun input hinput => hop.bind_output hout fun output houtput => ?_
  refine (Faultless.lift (exists_isPointer houtput)).bind fun pointer _ => ?_
  split
  · exact .ok _
  refine (Faultless.lift (exists_isPointer hinput)).bind fun pointer' _ => ?_
  split
  · exact (register_faultless hd houtput).bind fun _ _ => .ok _
  refine (register_faultless hd hinput).bind ?_
  rintro ⟨base, d₁⟩ hr
  obtain ⟨hadvance, hof⟩ := register_ok hr
  have howns := (hadvance.tidy htidy).pool.owns hof
  dsimp only
  split
  · exact .ok _
  · next hnone =>
      refine (Faultless.lift ?_).bind fun _ _ => .ok _
      rw [Pool.shareRegister, howns.resolve, hnone]
      exact ⟨_, rfl⟩

/-- **Every operation is taken in** unless the budget stops it. -/
theorem operation_faultless (hmem : op ∈ program.operations) (hop : Usable program op)
    (hd : d.pool.capacity = limit) (htidy : d.Tidy program) :
    Faultless limit (d.operation program op) := by
  have harguments : ∀ v ∈ op.arguments, v < program.values.size := by
    intro v hv
    unfold Operation.arguments at hv
    split at hv
    · exact hop.input_lt v (List.mem_of_mem_tail hv)
    · simp at hv
  unfold operation
  cases hk : op.kind <;> dsimp only
  case alloca => exact allocation_faultless hop hd (by rw [hk]; decide) rfl rfl
  case malloc => exact allocation_faultless hop hd (by rw [hk]; decide) rfl rfl
  case free =>
    refine hop.bind_input (by rw [hk]; decide) fun address haddress => ?_
    exact (register_faultless hd haddress).bind fun _ _ => .ok _
  case load =>
    refine hop.bind_input (by rw [hk]; decide) fun address haddress => ?_
    refine bind_register hd haddress fun r d₁ hd₁ => ?_
    refine hop.bind_output (by rw [hk]; decide) fun value hvalue => ?_
    exact ifPointer_faultless hd₁ hvalue (fun _ _ _ => .ok _) (.ok _)
  case store =>
    refine hop.bind_input (by rw [hk]; decide) fun address haddress => ?_
    refine bind_register hd haddress fun r d₁ hd₁ => ?_
    refine hop.bind_input (by rw [hk]; decide) fun value hvalue => ?_
    exact ifPointer_faultless hd₁ hvalue (fun _ _ _ => .ok _) (.ok _)
  case memcpy =>
    refine hop.bind_input (by rw [hk]; decide) fun target htarget => ?_
    refine bind_register hd htarget fun r d₁ hd₁ => ?_
    refine hop.bind_input (by rw [hk]; decide) fun source hsource => ?_
    refine bind_register hd₁ hsource fun s d₂ hd₂ => ?_
    exact (create_faultless hd₂).bind fun _ _ => .ok _
  case call =>
    refine hop.bind_input (by rw [hk]; decide) fun callee hcallee => ?_
    refine bind_register hd hcallee fun r d₁ hd₁ => ?_
    refine (pointerRegisters_faultless hd₁ harguments).bind ?_
    rintro ⟨arguments, d₂⟩ ha
    have hd₂ := (pointerRegisters_ok ha).1.grows.capacity_eq.trans hd₁
    exact (pointerRegisters_faultless hd₂ hop.output_lt).bind fun _ _ => .ok _
  case elementPointer | bitcast =>
    exact derived_faultless hop hd htidy (by rw [hk]; decide) (by rw [hk]; decide)
  case intToPointer =>
    refine hop.bind_output (by rw [hk]; decide) fun output houtput => ?_
    exact (register_faultless hd houtput).bind fun _ _ => .ok _
  case nullPointer | undef =>
    refine hop.bind_output (by rw [hk]; decide) fun output houtput => ?_
    exact eachPointer_faultless hd (by simpa using houtput)
  case phi =>
    refine hop.bind_output (by rw [hk]; decide) fun output houtput => ?_
    exact ifPointer_faultless hd houtput
      (fun _ _ hd₁ => phiInputs_faultless hd₁ hop.input_lt) (.ok _)
  case blackBox =>
    refine (eachPointer_faultless hd hop.input_lt).bind fun d₁ h₁ => ?_
    obtain ⟨hadvance, -⟩ := eachEscape_ok (fun v hv hpointer =>
      .operation hmem (by rw [Operation.Says, hk]; exact .inl ⟨v, hv, hpointer, rfl⟩)) h₁
    exact eachPointer_faultless (hadvance.grows.capacity_eq.trans hd) hop.output_lt

/-! ## Imports and functions -/

theorem importSymbol_faultless {symbol : ImportDef} (hd : d.pool.capacity = limit)
    (hvalue : symbol.value < program.values.size) :
    Faultless limit (d.importSymbol program symbol) := by
  refine bind_entity program hd rfl rfl (by simp) fun o d₁ hd₁ => ?_
  exact (register_faultless hd₁ hvalue).bind fun _ _ => .ok _

theorem functionHead_faultless {f : FunctionDef} (hd : d.pool.capacity = limit)
    (haddress : f.address < program.values.size)
    (hparams : ∀ v ∈ f.params, v < program.values.size) :
    Faultless limit (d.functionHead program f) := by
  refine bind_entity program hd rfl rfl (by simp) fun o d₁ hd₁ => ?_
  refine bind_register hd₁ haddress fun r d₂ hd₂ => ?_
  exact (pointerRegisters_faultless (d := d₂.add (.pointsTo r o)) hd₂ hparams).bind fun _ _ => .ok _

theorem functionHeads_faultless {fs : List FunctionDef} (hd : d.pool.capacity = limit)
    (hmem : ∀ f ∈ fs, f ∈ program.functions.toList)
    (haddress : ∀ f ∈ fs, f.address < program.values.size)
    (hparams : ∀ f ∈ fs, ∀ v ∈ f.params, v < program.values.size) :
    Faultless limit (d.functionHeads program fs) := by
  induction fs generalizing d with
  | nil => exact .ok _
  | cons f fs ih =>
      rw [functionHeads]
      refine (functionHead_faultless hd (haddress f (by simp)) (hparams f (by simp))).bind ?_
      rintro ⟨head, d₁⟩ hhead
      have hd₁ := (functionHead_ok (hmem f (by simp)) hhead).1.grows.capacity_eq.trans hd
      refine (ih hd₁ (fun g hg => hmem g (List.mem_cons_of_mem f hg))
        (fun g hg => haddress g (List.mem_cons_of_mem f hg))
        fun g hg => hparams g (List.mem_cons_of_mem f hg)).bind fun _ _ => .ok _

/-- The signature of a function is given to the function's object. -/
theorem signature_faultless {f : FunctionDef} {head : Handle × List (Option Handle)}
    (hd : d.pool.capacity = limit) (hhead : Heads program d.pool f head)
    (hresults : ∀ v ∈ f.results, v < program.values.size) :
    Faultless limit (d.signature program (f, head)) := by
  refine (pointerRegisters_faultless hd hresults).bind ?_
  rintro ⟨results, d₁⟩ hr
  have hhead₁ := hhead.grow (pointerRegisters_ok hr).1.grows
  have howns : d₁.pool.Owns head.1 := ⟨hhead₁.issued, hhead₁.made.lt_size⟩
  refine (Faultless.lift ?_).bind fun _ _ => .ok _
  rw [Pool.setSignature, howns.resolve]
  show ∃ q, (if d₁.pool.kindOf head.1.index ≠ .functionObject then _ else _) = _
  rw [if_neg (not_not.2 hhead₁.made.kindOf)]
  exact ⟨_, rfl⟩

end Draft

/-! ## The whole program -/

/-- What the walk keeps. -/
structure Kept (program : Program) (limit : Option Nat) (d : Draft) : Prop where
  tidy : d.Tidy program
  capacity : d.pool.capacity = limit

theorem Kept.advance {d d' : Draft} {made : List (Entity.Kind × Origin)}
    (h : Kept program limit d) (hadvance : d.Advances program d' made) :
    Kept program limit d' :=
  ⟨hadvance.tidy h.tidy, hadvance.grows.capacity_eq.trans h.capacity⟩

/-- **Generation stops only at its budget.** -/
theorem generate_faultless (hp : program.Coherent) (hshaped : program.Shaped)
    (hresolved : program.Resolved) (limit : Option Nat) :
    Faultless limit (generate program limit) := by
  refine Faultless.foldlM_bind (G := Kept program limit) ⟨tidy_new program limit, rfl⟩
    (fun d symbol hmem hd => ?imports) fun d₁ hd₁ => ?_
  case imports =>
    exact ⟨Draft.importSymbol_faultless hd.capacity (hp.import_lt hmem),
      fun d' h => hd.advance (Draft.importSymbol_ok hmem h).1⟩
  refine (Draft.functionHeads_faultless hd₁.capacity (fun f hf => hf) (fun f => hp.address_lt)
    fun f hf v => hp.param_lt hf).bind ?_
  rintro ⟨heads, d₂⟩ hheads
  obtain ⟨hadvance₂, -, hheads, -⟩ := Draft.functionHeads_ok (fun f hf => hf) hheads
  refine Faultless.foldlM_bind (G := fun d => Kept program limit d ∧ d₂.pool.Grows d.pool)
    ⟨hd₁.advance hadvance₂, .refl _⟩ (fun d op hmem hd => ?operations) fun d₃ hd₃ => ?_
  case operations =>
    have husable : Draft.Usable program op := ⟨hshaped op hmem, hresolved.inputs op hmem,
      fun v => hp.output_lt hmem⟩
    refine ⟨Draft.operation_faultless hmem husable hd.1.capacity hd.1.tidy, fun d' h => ?_⟩
    have hadvance := (Draft.operation_ok hmem h).1
    exact ⟨hd.1.advance hadvance, hd.2.trans hadvance.grows⟩
  refine Faultless.foldlM_bind (G := fun d => Kept program limit d ∧ d₂.pool.Grows d.pool)
    hd₃ (fun d entry hmem hd => ?signatures) fun d₄ hd₄ => ?_
  case signatures =>
    have hf := (List.of_mem_zip hmem).1
    have hhead := ((List.forall₂_iff_zip.1 hheads).2 hmem).grow hd.2
    refine ⟨Draft.signature_faultless hd.1.capacity hhead (hresolved.results _ hf),
      fun d' h => ?_⟩
    have hadvance := (Draft.signature_ok hf hhead h).1
    exact ⟨hd.1.advance hadvance, hd.2.trans hadvance.grows⟩
  exact Draft.eachPointer_faultless hd₄.1.capacity hresolved.exports

end PointerChannels.Generation
