import PointerChannels.Proofs.Generation.Registers
import PointerChannels.Proofs.Fold

/-!
# Drafts of constraints

A draft is a pool and the constraints made so far.  Every constraint is either the wording of a
fact that the program states, over the registers of its values, or one half of a copy, which
goes through a register of its own.  `Draft.Tidy` says so, `Draft.Covers` says that a fact has
been worded, and `Draft.Advances` is what every step of generation does.

## Main definitions

* `States` — a constraint is the wording of a fact.
* `Draft.Tidy` — the invariant of generation.
* `Draft.Covers` — a fact holds in every solution of the constraints.
* `Draft.Advances` — a step of generation.
-/

namespace PointerChannels.Generation

variable {program : Program} {p q : Pool} {fact : Fact} {c : Constraint}

/-- The constraint is the wording of the fact over the registers of the pool. -/
inductive States (program : Program) (p : Pool) : Fact → Constraint → Prop
  | object {v : ValueId} {kind : Entity.Kind} {origin : Origin} {r o : Handle} :
      p.RegisterOf v r → o.pool = p.id → p.Made o.index kind origin →
      kind.isMemoryObject = true →
      States program p (.object v kind origin) (.pointsTo r o)
  | flow {v w : ValueId} {rv rw : Handle} : p.RegisterOf v rv → p.RegisterOf w rw →
      States program p (.flow v w) (.superset rw rv)
  | load {v a : ValueId} {rv ra : Handle} : p.RegisterOf v rv → p.RegisterOf a ra →
      States program p (.load v a) (.load rv ra)
  | store {a v : ValueId} {ra rv : Handle} : p.RegisterOf a ra → p.RegisterOf v rv →
      States program p (.store a v) (.store ra rv)
  | call {callee : ValueId} {r : Handle} {values values' : List ValueId}
      {arguments results : List (Option Handle)} : p.RegisterOf callee r →
      p.RegistersOf program values arguments → p.RegistersOf program values' results →
      States program p (.call callee values values') (.call r ⟨arguments, results⟩)
  | external {v : ValueId} {r : Handle} : p.RegisterOf v r →
      States program p (.external v) (.external r)
  | unknown {v : ValueId} {r : Handle} : p.RegisterOf v r →
      States program p (.unknown v) (.unknown r)
  | escapes {v : ValueId} {r : Handle} : p.RegisterOf v r →
      States program p (.escapes v) (.escapes r)

theorem States.grow (h : States program p fact c) (hg : p.Grows q) :
    States program q fact c := by
  cases h with
  | object hr ho hm hk =>
    exact .object (hg.registerOf hr) (ho.trans hg.id_eq.symm) (hg.made hm) hk
  | flow hv hw => exact .flow (hg.registerOf hv) (hg.registerOf hw)
  | load hv ha => exact .load (hg.registerOf hv) (hg.registerOf ha)
  | store ha hv => exact .store (hg.registerOf ha) (hg.registerOf hv)
  | call hc ha hr => exact .call (hg.registerOf hc) (hg.registersOf ha) (hg.registersOf hr)
  | external hr => exact .external (hg.registerOf hr)
  | unknown hr => exact .unknown (hg.registerOf hr)
  | escapes hr => exact .escapes (hg.registerOf hr)

/-- The register that a copy goes through. -/
def Copied (p : Pool) (r : Handle) : Prop :=
  p.Made r.index .register .synthetic ∧ r.pool = p.id

/-- The constraint has a reason in the program. -/
inductive Grounded (program : Program) (p : Pool) : Constraint → Prop
  | said {fact : Fact} {c : Constraint} : program.Says fact → States program p fact c →
      Grounded program p c
  | copyLoad {r source : Handle} {v : ValueId} : Copied p r → p.RegisterOf v source →
      Grounded program p (.load r source)
  | copyStore {r target : Handle} {v : ValueId} : Copied p r → p.RegisterOf v target →
      Grounded program p (.store target r)

theorem Copied.handle_eq {r : Handle} (h : Copied p r) : p.handle r.index = r := by
  rw [Pool.handle, ← h.2]

theorem Copied.grow {r : Handle} (h : Copied p r) (hg : p.Grows q) : Copied q r :=
  ⟨hg.made h.1, h.2.trans hg.id_eq.symm⟩

theorem Grounded.grow (h : Grounded program p c) (hg : p.Grows q) : Grounded program q c := by
  cases h with
  | said hsay hs => exact .said hsay (hs.grow hg)
  | copyLoad hd hr => exact .copyLoad (hd.grow hg) (hg.registerOf hr)
  | copyStore hd hr => exact .copyStore (hd.grow hg) (hg.registerOf hr)

/-- Grounded constraints are about entities of the pool. -/
theorem Grounded.constraintOver (h : Grounded program p c) (hp : p.Tidy program) :
    c.Over p := by
  cases h with
  | copyLoad hd hr => exact ⟨⟨hd.2, hd.1.lt_size⟩, hp.owns hr⟩
  | copyStore hd hr => exact ⟨hp.owns hr, ⟨hd.2, hd.1.lt_size⟩⟩
  | said _ hs =>
      cases hs with
      | object hr ho hm hk =>
          refine ⟨hp.owns hr, ⟨ho, hm.lt_size⟩, hm.lt_size, ?_⟩
          rw [hm.kindOf]
          exact hk
      | flow hv hw => exact ⟨hp.owns hw, hp.owns hv⟩
      | load hv ha => exact ⟨hp.owns hv, hp.owns ha⟩
      | store ha hv => exact ⟨hp.owns ha, hp.owns hv⟩
      | call hc ha hr =>
          refine ⟨hp.owns hc, ⟨fun x hx => ?_, fun x hx => ?_⟩⟩
          · obtain ⟨v, -, -, hv⟩ := ha.mem_iff.1 hx
            exact hp.owns hv
          · obtain ⟨v, -, -, hv⟩ := hr.mem_iff.1 hx
            exact hp.owns hv
      | external hr => exact hp.owns hr
      | unknown hr => exact hp.owns hr
      | escapes hr => exact hp.owns hr

namespace Draft

variable {d d' d'' : Draft} {made made' : List (Entity.Kind × Origin)}

/-- Every constraint has a reason, and what is loaded for a copy is
stored for the same copy. -/
structure Tidy (program : Program) (d : Draft) : Prop where
  pool : d.pool.Tidy program
  grounded : ∀ c ∈ d.constraints, Grounded program d.pool c
  paired : ∀ {r source target : Handle}, Copied d.pool r → .load r source ∈ d.constraints →
    .store target r ∈ d.constraints → ∃ v w, program.Says (.copy w v) ∧
      d.pool.RegisterOf v source ∧ d.pool.RegisterOf w target

theorem Tidy.constraintsOver (hd : d.Tidy program) : ∀ c ∈ d.constraints, c.Over d.pool :=
  fun c hc => (hd.grounded c hc).constraintOver hd.pool

/-- The draft words the fact. -/
inductive Covers (program : Program) (d : Draft) : Fact → Prop
  | stated {fact : Fact} {c : Constraint} : c ∈ d.constraints → States program d.pool fact c →
      Covers program d fact
  | shared {v w : ValueId} {r : Handle} : d.pool.RegisterOf v r → d.pool.RegisterOf w r →
      Covers program d (.flow v w)
  | copied {v w : ValueId} {r source target : Handle} : d.pool.RegisterOf v source →
      d.pool.RegisterOf w target → .load r source ∈ d.constraints →
      .store target r ∈ d.constraints → Covers program d (.copy w v)

/-- A step of generation: the pool grows by objects made for parts of the program, constraints
are only added, and the draft stays tidy. -/
structure Advances (program : Program) (d d' : Draft) (made : List (Entity.Kind × Origin)) :
    Prop where
  grows : d.pool.Grows d'.pool
  constraints : ∀ {c}, c ∈ d.constraints → c ∈ d'.constraints
  objects : d'.pool.objects = d.pool.objects ++ made
  tidy : d.Tidy program → d'.Tidy program

namespace Advances

theorem refl (program : Program) (d : Draft) : Advances program d d [] :=
  ⟨.refl _, fun h => h, by simp, fun h => h⟩

theorem trans (h : Advances program d d' made) (h' : Advances program d' d'' made') :
    Advances program d d'' (made ++ made') where
  grows := h.grows.trans h'.grows
  constraints hc := h'.constraints (h.constraints hc)
  objects := by rw [h'.objects, h.objects, List.append_assoc]
  tidy hd := h'.tidy (h.tidy hd)

theorem covers (h : Advances program d d' made) (hc : d.Covers program fact) :
    d'.Covers program fact := by
  cases hc with
  | stated hmem hs => exact .stated (h.constraints hmem) (hs.grow h.grows)
  | shared hv hw => exact .shared (h.grows.registerOf hv) (h.grows.registerOf hw)
  | copied hv hw hl hs =>
      exact .copied (h.grows.registerOf hv) (h.grows.registerOf hw) (h.constraints hl)
        (h.constraints hs)

end Advances

/-! ## Constraints -/

/-- The register of a value is not that of a copy. -/
theorem not_copied (hp : p.Tidy program) {v : ValueId} {r : Handle} (hr : p.RegisterOf v r) :
    ¬ Copied p r := by
  intro hd
  obtain ⟨w, hw⟩ := (hp.traced hr.1).made
  exact absurd (hw.unique hd.1).2 (by simp)

/-- Wording facts of the program. -/
theorem advances_addAll {cs : List Constraint}
    (h : ∀ c ∈ cs, ∃ fact, program.Says fact ∧ States program d.pool fact c) :
    Advances program d (d.addAll cs) [] where
  grows := .refl _
  constraints hc := List.mem_append_left _ hc
  objects := by simp [addAll]
  tidy hd := by
    have hgrounded : ∀ c ∈ cs, Grounded program d.pool c := by
      intro c hc
      obtain ⟨fact, hsay, hs⟩ := h c hc
      exact .said hsay hs
    refine ⟨hd.pool, ?_, ?_⟩
    · intro c hc
      rcases List.mem_append.1 hc with hc | hc
      · exact hd.grounded c hc
      · exact hgrounded c hc
    · intro r source target hr hload hstore
      -- a constraint that words a fact does not mention the register of a copy
      have hold : ∀ {c : Constraint}, c ∈ (d.addAll cs).constraints →
          (∀ {fact}, ¬ States program d.pool fact c) → c ∈ d.constraints := by
        intro c hc hnot
        rcases List.mem_append.1 hc with hc | hc
        · exact hc
        · obtain ⟨fact, -, hs⟩ := h c hc
          exact absurd hs hnot
      refine hd.paired hr (hold hload ?_) (hold hstore ?_)
      · intro fact hs
        cases hs with
        | load hv _ => exact not_copied hd.pool hv hr
      · intro fact hs
        cases hs with
        | store _ hv => exact not_copied hd.pool hv hr

theorem advances_add (hsay : program.Says fact) (h : States program d.pool fact c) :
    Advances program d (d.add c) [] := by
  refine advances_addAll fun c' hc' => ?_
  obtain rfl : c' = c := List.mem_singleton.1 hc'
  exact ⟨fact, hsay, h⟩

theorem mem_add : c ∈ (d.add c).constraints := by simp [add]

/-! ## Entities -/

/-- A draft whose pool grew stays tidy when the new pool is. -/
theorem Tidy.grow (hd : d.Tidy program) (hq : q.Tidy program) (hg : d.pool.Grows q) :
    ({ d with pool := q } : Draft).Tidy program where
  pool := hq
  grounded c hc := (hd.grounded c hc).grow hg
  paired {r source target} hr hload hstore := by
    -- the register of an old constraint is an old entity
    have hold : Copied d.pool r := by
      obtain ⟨⟨hpool, hlt⟩, -⟩ := (hd.grounded _ hload).constraintOver hd.pool
      obtain ⟨origin, hm⟩ := Pool.exists_made hlt
      obtain ⟨hk, ho⟩ := (hg.made hm).unique hr.1
      exact ⟨hk ▸ ho ▸ hm, hpool⟩
    obtain ⟨v, w, hsay, hv, hw⟩ := hd.paired hold hload hstore
    exact ⟨v, w, hsay, hg.registerOf hv, hg.registerOf hw⟩

theorem budgeted_eq_ok {α : Type} {x : Except Exhausted α} {a : α} (h : budgeted x = .ok a) :
    x = .ok a := by
  cases x with
  | ok b => exact congrArg Except.ok (Except.ok.inj h)
  | error e => exact absurd h (by simp [budgeted])

/-- Making a memory object. -/
theorem entity_ok (program : Program) {kind : Entity.Kind} {label : String} {origin : Origin}
    {o : Handle} (h : d.entity kind label origin = .ok (o, d'))
    (hk : kind.isMemoryObject = true) (hs : kind.isSentinel = false)
    (ho : origin ≠ .synthetic) :
    Advances program d d' [(kind, origin)] ∧ o.pool = d'.pool.id ∧
      d'.pool.Made o.index kind origin := by
  simp only [entity, bind_eq_ok, pure_eq_ok, Prod.mk.injEq] at h
  obtain ⟨⟨i, q⟩, hcreate, rfl, rfl⟩ := h
  obtain ⟨rfl, rfl⟩ := Pool.create_eq_ok (budgeted_eq_ok hcreate)
  refine ⟨⟨Pool.grows_push, fun hc => hc, ?_, fun hd => ?_⟩, rfl,
    Pool.made_push.2 (.inr ⟨rfl, rfl, rfl⟩)⟩
  · rw [Pool.objects_push, hk]
    simp [ho]
  · refine hd.grow (hd.pool.push hs (fun _ => ho) fun hr => ?_) Pool.grows_push
    rw [hr] at hk
    exact absurd hk (by decide)

theorem register_ok {v : ValueId} {r : Handle} (h : d.register program v = .ok (r, d')) :
    Advances program d d' [] ∧ d'.pool.RegisterOf v r := by
  unfold register at h
  split at h
  · next index hindex =>
      obtain ⟨rfl, rfl⟩ := Prod.mk.inj (Except.ok.inj h)
      exact ⟨.refl _ _, hindex, rfl⟩
  · next hnone =>
      simp only [bind_eq_ok, pure_eq_ok, Prod.mk.injEq] at h
      obtain ⟨value, hvalue, ⟨i, q⟩, hcreate, rfl, rfl⟩ := h
      obtain ⟨rfl, rfl⟩ := Pool.createRegister_eq_ok hcreate
      have hpush : d.pool.Grows (d.pool.push .register value.name (.value v)) :=
        Pool.grows_push
      have hgrows := hpush.trans (Pool.grows_bindRegister _ v d.pool.size)
      have hlt : v < program.values.size :=
        (Array.getElem?_eq_some_iff.1 (entryAt_eq_ok.1 (liftM_eq_ok.1 hvalue))).1
      refine ⟨⟨hgrows, fun hc => hc, ?_,
        fun hd => hd.grow (hd.pool.pushRegister hnone hlt) hgrows⟩,
        Pool.register?_bindRegister_self hnone, rfl⟩
      exact Pool.objects_push

/-- A copy goes through a register of its own. -/
theorem advances_copy (label : String) {v w : ValueId} {source target : Handle}
    (hsay : program.Says (.copy w v)) (hv : d.pool.RegisterOf v source)
    (hw : d.pool.RegisterOf w target) :
    Advances program d
      (({ d with pool := d.pool.push .register label .synthetic } : Draft).addAll
      [.load (d.pool.handle d.pool.size) source, .store target (d.pool.handle d.pool.size)])
      [] := by
  have hgrows : d.pool.Grows (d.pool.push .register label .synthetic) := Pool.grows_push
  have hcopied : Copied (d.pool.push .register label .synthetic) (d.pool.handle d.pool.size) :=
    ⟨Pool.made_push.2 (.inr ⟨rfl, rfl, rfl⟩), rfl⟩
  refine ⟨hgrows, fun hc => List.mem_append_left _ hc, Pool.objects_push, fun hd => ?_⟩
  have hq : (d.pool.push .register label .synthetic).Tidy program :=
    hd.pool.push rfl (fun h => absurd h (by decide)) fun _ => rfl
  have hold := hd.grow hq hgrows
  refine ⟨hq, ?_, ?_⟩
  · intro c hc
    rcases List.mem_append.1 hc with hc | hc
    · exact hold.grounded c hc
    · simp only [List.mem_cons, List.not_mem_nil, or_false] at hc
      rcases hc with rfl | rfl
      · exact .copyLoad hcopied (hgrows.registerOf hv)
      · exact .copyStore hcopied (hgrows.registerOf hw)
  · intro r source' target' hr hload hstore
    rcases List.mem_append.1 hload with hload | hload
    · rcases List.mem_append.1 hstore with hstore | hstore
      · exact hold.paired hr hload hstore
      · -- an old constraint does not know the new register
        have hlt := ((hd.grounded _ hload).constraintOver hd.pool).1.2
        simp only [List.mem_cons, List.not_mem_nil, or_false, reduceCtorEq, false_or,
          Constraint.store.injEq] at hstore
        rw [hstore.2] at hlt
        exact absurd hlt (Nat.lt_irrefl _)
    · simp only [List.mem_cons, List.not_mem_nil, or_false, reduceCtorEq,
        Constraint.load.injEq] at hload
      obtain ⟨rfl, rfl⟩ := hload
      rcases List.mem_append.1 hstore with hstore | hstore
      · have hlt := ((hd.grounded _ hstore).constraintOver hd.pool).2.2
        exact absurd hlt (Nat.lt_irrefl _)
      · simp only [List.mem_cons, List.not_mem_nil, or_false, reduceCtorEq, false_or,
          Constraint.store.injEq] at hstore
        obtain ⟨rfl, -⟩ := hstore
        exact ⟨v, w, hsay, hgrows.registerOf hv, hgrows.registerOf hw⟩

end Draft
end PointerChannels.Generation
