import PointerChannels.Proofs.Generation.Walk
import PointerChannels.Proofs.Program.Coherent
import Mathlib.Data.List.Sort

/-!
# The whole of a program

The parts of generation put together: a program for which generation ends gives a tidy draft
that words all that the program says, with one object for each import, function and allocation.
The objects of functions stand in the order of the functions, and each ends with the signature
of its own function, whatever numbers the functions carry.

## Main definitions

* `Pool.Embodies` — an object is that of a function, and has its signature.
* `Generated` — a draft that words all of a program.

## Main statements

* `generate_ok` — generation words all of a program.
-/

namespace PointerChannels

/-! ## The objects of functions -/

namespace Pool

variable {program : Program} {p : Pool}

/-- The object was made for the function and has its signature. -/
structure Embodies (program : Program) (p : Pool) (f : FunctionDef) (o : Nat) : Prop where
  made : p.Made o .functionObject (.function f.id)
  signed : ∃ signature, p.signature? o = some signature ∧ Signs program p f signature

/-- The objects of functions, in the order they were made. -/
def functionObjects (p : Pool) : List Nat := p.indices.filter (p.kindOf · = .functionObject)

theorem mem_functionObjects {o : Nat} :
    o ∈ p.functionObjects ↔ p.IsObject o ∧ p.kindOf o = .functionObject := by
  simp only [functionObjects, indices, List.mem_filter, List.mem_range, decide_eq_true_eq]
  refine and_congr_left fun hk => ?_
  simp [IsObject, hk, Entity.Kind.isMemoryObject]

theorem pairwise_functionObjects (p : Pool) : p.functionObjects.Pairwise (· < ·) :=
  List.pairwise_lt_range.filter _

theorem Tidy.length_functionObjects (hp : p.Tidy program) :
    p.functionObjects.length = p.objects.countP (·.1 = .functionObject) := by
  -- both count the cells of functions, which were all made for a part of the program
  have hkinds : p.indices.map p.kindOf = p.cells.toList.map Cell.kind := by
    refine List.ext_getElem (by simp [indices, size]) fun i _ hi => ?_
    have hi : i < p.cells.size := by simpa using hi
    simp [indices, kindOf, hi]
  have hcount : p.indices.countP (p.kindOf · = .functionObject) =
      p.cells.toList.countP (·.kind = .functionObject) := by
    have := congrArg (List.countP (· = .functionObject)) hkinds
    rwa [List.countP_map, List.countP_map] at this
  rw [functionObjects, ← List.countP_eq_length_filter, hcount, objects, List.countP_filter,
    List.countP_map]
  refine List.countP_congr fun c hc => ?_
  obtain ⟨i, hi⟩ := List.mem_iff_getElem?.1 hc
  have hm : p.Made i c.kind c.origin := by
    rw [Made, ← Array.getElem?_toList, hi]
    rfl
  constructor
  · intro hk
    have hk : c.kind = .functionObject := by simpa using hk
    rcases hp.place hm with ⟨hk', -⟩ | ⟨hk', -⟩ | ⟨-, ho, -⟩
    · exact absurd (hk.symm.trans hk') (by simp)
    · exact absurd (hk.symm.trans hk') (by simp)
    · simp [hk, ho (by rw [hk]; rfl), Entity.Kind.isMemoryObject]
  · intro h
    simp only [Function.comp_apply, Bool.and_eq_true] at h
    exact h.1

/-- As many objects of functions as there are, in order, are all of them. -/
theorem Tidy.functionObjects_eq (hp : p.Tidy program) {objects : List Nat}
    (hascending : objects.Pairwise (· < ·))
    (hfunction : ∀ o ∈ objects, ∃ origin, p.Made o .functionObject origin)
    (hlength : p.objects.countP (·.1 = .functionObject) = objects.length) :
    p.functionObjects = objects := by
  have hsubset : objects ⊆ p.functionObjects := by
    intro o ho
    obtain ⟨origin, hm⟩ := hfunction o ho
    exact mem_functionObjects.2 ⟨⟨hm.lt_size, by rw [hm.kindOf]; rfl⟩, hm.kindOf⟩
  have hsubperm := List.subperm_of_subset (hascending.imp Nat.ne_of_lt) hsubset
  have hperm := hsubperm.perm_of_length_le (by rw [hp.length_functionObjects, hlength])
  exact (hperm.eq_of_pairwise (fun _ _ _ _ h h' => absurd h (Nat.lt_asymm h')) hascending
    p.pairwise_functionObjects).symm

end Pool

namespace Generation

variable {program : Program} {d d' : Draft}

namespace Draft

theorem importSymbol_ok {symbol : ImportDef} (hmem : symbol ∈ program.imports.toList)
    (h : d.importSymbol program symbol = .ok d') :
    Advances program d d' [(.importObject, .importAddress symbol.value)] ∧
      d'.Covers program (.object symbol.value .importObject (.importAddress symbol.value)) ∧
      d'.Covers program (.escapes symbol.value) := by
  simp only [importSymbol, bind_eq_ok, pure_eq_ok, Prod.exists] at h
  obtain ⟨o, d₁, hentity, r, d₂, hregister, rfl⟩ := h
  obtain ⟨hadvance, hid, hmade⟩ := entity_ok program hentity rfl rfl (by simp)
  obtain ⟨hadvance', hof⟩ := register_ok hregister
  have hobject : States program d₂.pool
      (.object symbol.value .importObject (.importAddress symbol.value)) (.pointsTo r o) :=
    .object hof (hid.trans hadvance'.grows.id_eq.symm) (hadvance'.grows.made hmade) rfl
  have hescapes : States program d₂.pool (.escapes symbol.value) (.escapes r) := .escapes hof
  refine ⟨(hadvance.trans hadvance').trans (advances_addAll fun c hc => ?_),
    .stated (List.mem_append_right _ (by simp)) hobject,
    .stated (List.mem_append_right _ (by simp)) hescapes⟩
  simp only [List.mem_cons, List.not_mem_nil, or_false] at hc
  rcases hc with rfl | rfl
  · exact ⟨_, .importObject hmem, hobject⟩
  · exact ⟨_, .importEscapes hmem, hescapes⟩

theorem entity_index {kind : Entity.Kind} {label : String} {origin : Origin} {o : Handle}
    (h : d.entity kind label origin = .ok (o, d')) : o.index = d.pool.size := by
  simp only [entity, bind_eq_ok, pure_eq_ok, Prod.mk.injEq] at h
  obtain ⟨⟨i, q⟩, hcreate, rfl, rfl⟩ := h
  exact (Pool.create_eq_ok (budgeted_eq_ok hcreate)).1

/-- The object and the parameter registers of a function. -/
structure Heads (program : Program) (p : Pool) (f : FunctionDef)
    (head : Handle × List (Option Handle)) : Prop where
  issued : head.1.pool = p.id
  made : p.Made head.1.index .functionObject (.function f.id)
  params : p.RegistersOf program f.params head.2

theorem Heads.grow {p q : Pool} {f : FunctionDef} {head : Handle × List (Option Handle)}
    (h : Heads program p f head) (hg : p.Grows q) : Heads program q f head :=
  ⟨h.issued.trans hg.id_eq.symm, hg.made h.made, hg.registersOf h.params⟩

theorem functionHead_ok {f : FunctionDef} {head : Handle × List (Option Handle)}
    (hmem : f ∈ program.functions.toList) (h : d.functionHead program f = .ok (head, d')) :
    Advances program d d' [(.functionObject, .function f.id)] ∧
      d'.Covers program (.object f.address .functionObject (.function f.id)) ∧
      Heads program d'.pool f head ∧ head.1.index = d.pool.size := by
  simp only [functionHead, bind_eq_ok, pure_eq_ok, Prod.exists, Prod.mk.injEq] at h
  obtain ⟨o, d₁, hentity, r, d₂, hregister, params, d₃, hparams, rfl, rfl⟩ := h
  obtain ⟨hadvance, hid, hmade⟩ := entity_ok program hentity rfl rfl (by simp)
  obtain ⟨hadvance', hof⟩ := register_ok hregister
  have hmade' := hadvance'.grows.made hmade
  have hobject : States program d₂.pool
      (.object f.address .functionObject (.function f.id)) (.pointsTo r o) :=
    .object hof (hid.trans hadvance'.grows.id_eq.symm) hmade' rfl
  have hadd := advances_add (.functionObject hmem) hobject
  obtain ⟨hadvance₃, hofs⟩ := pointerRegisters_ok hparams
  exact ⟨((hadvance.trans hadvance').trans hadd).trans hadvance₃,
    hadvance₃.covers (.stated mem_add hobject), ⟨(hid.trans hadvance'.grows.id_eq.symm).trans
      hadvance₃.grows.id_eq.symm, hadvance₃.grows.made hmade', hofs⟩, entity_index hentity⟩

/-- The objects of functions are made in order. -/
theorem functionHeads_ok {fs : List FunctionDef} {heads : List (Handle × List (Option Handle))}
    (hmem : ∀ f ∈ fs, f ∈ program.functions.toList)
    (h : d.functionHeads program fs = .ok (heads, d')) :
    Advances program d d' (fs.map fun f => (.functionObject, .function f.id)) ∧
      (∀ f ∈ fs, d'.Covers program (.object f.address .functionObject (.function f.id))) ∧
      List.Forall₂ (Heads program d'.pool) fs heads ∧
      (heads.map (·.1.index)).Pairwise (· < ·) ∧
      ∀ head ∈ heads, d.pool.size ≤ head.1.index := by
  induction fs generalizing d heads with
  | nil =>
      obtain ⟨rfl, rfl⟩ := Prod.mk.inj (Except.ok.inj h)
      exact ⟨.refl _ _, by simp, .nil, .nil, by simp⟩
  | cons f fs ih =>
      simp only [functionHeads, bind_eq_ok, pure_eq_ok, Prod.mk.injEq] at h
      obtain ⟨⟨head, d₁⟩, hhead, ⟨heads', d₂⟩, hrest, rfl, rfl⟩ := h
      obtain ⟨hadvance, hcovers, hheads, hindex⟩ := functionHead_ok (hmem f (by simp)) hhead
      obtain ⟨hadvance', hcovers', hheads', hascending, hlater⟩ :=
        ih (fun g hg => hmem g (List.mem_cons_of_mem f hg)) hrest
      refine ⟨hadvance.trans hadvance', ?_, .cons (hheads.grow hadvance'.grows) hheads',
        .cons ?_ hascending, ?_⟩
      · intro g hg
        rcases List.mem_cons.1 hg with rfl | hg
        · exact hadvance'.covers hcovers
        · exact hcovers' g hg
      · intro o ho
        obtain ⟨head', hmem', rfl⟩ := List.mem_map.1 ho
        exact Nat.lt_of_lt_of_le hheads.made.lt_size (hlater head' hmem')
      · intro head' hmem'
        rcases List.mem_cons.1 hmem' with rfl | hmem'
        · exact Nat.le_of_eq hindex.symm
        · exact Nat.le_trans hadvance.grows.size_le (hlater head' hmem')

/-! ### Signatures -/

theorem register_signature? {v : ValueId} {r : Handle} (h : d.register program v = .ok (r, d'))
    (o : Nat) : d'.pool.signature? o = d.pool.signature? o := by
  unfold register at h
  split at h
  · obtain ⟨rfl, rfl⟩ := Prod.mk.inj (Except.ok.inj h)
    rfl
  · simp only [bind_eq_ok, pure_eq_ok, Prod.mk.injEq] at h
    obtain ⟨value, -, ⟨i, q⟩, hcreate, rfl, rfl⟩ := h
    obtain ⟨rfl, rfl⟩ := Pool.createRegister_eq_ok hcreate
    exact Pool.signature?_push

theorem pointerRegisters_signature? {values : List ValueId} {registers : List (Option Handle)}
    (h : d.pointerRegisters program values = .ok (registers, d')) (o : Nat) :
    d'.pool.signature? o = d.pool.signature? o := by
  induction values generalizing d registers with
  | nil =>
      obtain ⟨rfl, rfl⟩ := Prod.mk.inj (Except.ok.inj h)
      rfl
  | cons v rest ih =>
      simp only [pointerRegisters, bind_eq_ok] at h
      obtain ⟨pointer, -, h⟩ := h
      cases pointer with
      | true =>
          simp only [if_true, bind_eq_ok, pure_eq_ok, Prod.exists, Prod.mk.injEq] at h
          obtain ⟨r, d₁, hr, registers', d₂, hrest, rfl, rfl⟩ := h
          rw [ih hrest, register_signature? hr]
      | false =>
          simp only [Bool.false_eq_true, if_false, bind_eq_ok, pure_eq_ok, Prod.exists,
            Prod.mk.injEq] at h
          obtain ⟨registers', d₂, hrest, rfl, rfl⟩ := h
          exact ih hrest

theorem eachPointer_signature? {constrain : Handle → List Constraint} {values : List ValueId}
    (h : d.eachPointer program constrain values = .ok d') (o : Nat) :
    d'.pool.signature? o = d.pool.signature? o := by
  induction values generalizing d with
  | nil =>
      obtain rfl := Except.ok.inj h
      rfl
  | cons v rest ih =>
      simp only [eachPointer, bind_eq_ok] at h
      obtain ⟨pointer, -, h⟩ := h
      cases pointer with
      | true =>
          simp only [if_true, bind_eq_ok, Prod.exists] at h
          obtain ⟨r, d₁, hr, hrest⟩ := h
          rw [ih hrest]
          exact register_signature? hr o
      | false =>
          simp only [Bool.false_eq_true, if_false] at h
          exact ih h

theorem signature_ok {f : FunctionDef} {head : Handle × List (Option Handle)}
    (hmem : f ∈ program.functions.toList) (hhead : Heads program d.pool f head)
    (h : d.signature program (f, head) = .ok d') :
    Advances program d d' [] ∧ d'.pool.Embodies program f head.1.index ∧
      ∀ o, head.1.index ≠ o → d'.pool.signature? o = d.pool.signature? o := by
  simp only [signature, bind_eq_ok, liftM_eq_ok, pure_eq_ok, Prod.exists] at h
  obtain ⟨results, d₁, hresults, q, hq, rfl⟩ := h
  obtain ⟨hadvance, hofs⟩ := pointerRegisters_ok hresults
  obtain rfl := Pool.setSignature_eq_ok hq
  have hgrows := Pool.grows_sign d₁.pool head.1.index ⟨head.2, results⟩
  have hhead₁ := hhead.grow hadvance.grows
  have hsigns : d₁.pool.Signs program f ⟨head.2, results⟩ := ⟨hhead₁.params, hofs⟩
  refine ⟨hadvance.trans ⟨hgrows, fun hc => hc, by simp [Pool.objects_sign], fun hd => ?_⟩,
    ⟨hgrows.made hhead₁.made, _, ?_, hgrows.signs hsigns⟩, fun o ho => ?_⟩
  · exact hd.grow (hd.pool.sign hmem hhead₁.made hsigns) hgrows
  · rw [Pool.signature?_sign, if_pos ⟨rfl, hhead₁.made.lt_size⟩]
  · rw [Pool.signature?_sign, if_neg fun h => ho h.1, pointerRegisters_signature? hresults]

/-- Each function's object gets the signature of its own function, and keeps it. -/
theorem signatures_ok {entries : List (FunctionDef × Handle × List (Option Handle))}
    (hmem : ∀ entry ∈ entries, entry.1 ∈ program.functions.toList)
    (hheads : ∀ entry ∈ entries, Heads program d.pool entry.1 entry.2)
    (hdistinct : entries.Pairwise fun a b => a.2.1.index ≠ b.2.1.index)
    (h : entries.foldlM (signature program) d = .ok d') :
    Advances program d d' [] ∧
      (∀ entry ∈ entries, d'.pool.Embodies program entry.1 entry.2.1.index) ∧
      ∀ o, (∀ entry ∈ entries, entry.2.1.index ≠ o) →
        d'.pool.signature? o = d.pool.signature? o := by
  induction entries generalizing d with
  | nil =>
      obtain rfl := pure_eq_ok.1 h
      exact ⟨.refl _ _, by simp, fun _ _ => rfl⟩
  | cons entry rest ih =>
      rw [List.foldlM_cons, bind_eq_ok] at h
      obtain ⟨d₁, hstep, h⟩ := h
      obtain ⟨hfirst, hdistinct⟩ := List.pairwise_cons.1 hdistinct
      obtain ⟨hadvance, hembodies, hothers⟩ :=
        signature_ok (hmem entry (by simp)) (hheads entry (by simp)) hstep
      obtain ⟨hadvance', hembodies', hothers'⟩ :=
        ih (fun e he => hmem e (List.mem_cons_of_mem _ he))
          (fun e he => (hheads e (List.mem_cons_of_mem _ he)).grow hadvance.grows) hdistinct h
      refine ⟨hadvance.trans hadvance', fun e he => ?_, fun o ho => ?_⟩
      · rcases List.mem_cons.1 he with rfl | he
        · -- the objects signed later are others
          obtain ⟨signature, hs, hsigns⟩ := hembodies.signed
          have hkept := hothers' e.2.1.index fun e' he' => (hfirst e' he').symm
          exact ⟨hadvance'.grows.made hembodies.made, signature, hkept.trans hs,
            hadvance'.grows.signs hsigns⟩
        · exact hembodies' e he
      · rw [hothers' o fun e he => ho e (List.mem_cons_of_mem _ he),
          hothers o (ho entry (by simp))]

end Draft

/-! ## The whole program -/

/-- The objects made for the parts of a program, in order. -/
def objectsOf (program : Program) : List (Entity.Kind × Origin) :=
  program.imports.toList.map (fun s => (.importObject, .importAddress s.value)) ++
  program.functions.toList.map (fun f => (.functionObject, .function f.id)) ++
  program.operations.flatMap Draft.objectsOf

/-- A draft that words all of a program. -/
structure Generated (program : Program) (d : Draft) : Prop where
  tidy : d.Tidy program
  objects : d.pool.objects = objectsOf program
  covers : ∀ fact, program.Says fact → d.Covers program fact
  serves : ∀ op ∈ program.operations, Draft.Serves program d.pool op
  embodied : List.Forall₂ (d.pool.Embodies program) program.functions.toList
    d.pool.functionObjects

theorem made_new {limit : Option Nat} {e : Nat} {kind : Entity.Kind} {origin : Origin} :
    (Pool.new 0 limit).Made e kind origin ↔
      e = Pool.unknown ∧ .unknownMemory = kind ∧ .synthetic = origin ∨
      e = Pool.external ∧ .externalMemory = kind ∧ .synthetic = origin := by
  rw [Pool.new, Pool.made_push, Pool.made_push]
  simp [Pool.Made, Pool.size, Pool.push, Pool.unknown, Pool.external]

theorem tidy_new (program : Program) (limit : Option Nat) :
    (⟨Pool.new 0 limit, []⟩ : Draft).Tidy program := by
  have hnone : ∀ v, (Pool.new 0 limit).register? v = none := fun _ => rfl
  refine ⟨⟨le_rfl, ?_, ?_, ?_, ?_, ?_, List.nodup_nil, ?_, ?_⟩, by simp, by simp⟩
  · exact Pool.bare_push (Pool.bare_push (by simp))
  · intro e kind origin hm
    rcases made_new.1 hm with ⟨he, hk, ho⟩ | ⟨he, hk, ho⟩
    · exact .inl ⟨hk.symm, ho.symm, he⟩
    · exact .inr (.inl ⟨hk.symm, ho.symm, he⟩)
  · intro e v hm
    simp [made_new] at hm
  · intro e origin hm
    simp [made_new] at hm
  · intro v e he
    exact absurd he (by simp [hnone])
  · intro v e he
    exact absurd he (by simp [hnone])
  · intro o signature hs
    rw [Pool.new, Pool.signature?_push, Pool.signature?_push] at hs
    exact absurd hs (by simp [Pool.signature?])

theorem objects_new (limit : Option Nat) : (Pool.new 0 limit).objects = [] := by
  rw [Pool.new, Pool.objects_push, Pool.objects_push]
  rfl

/-- Only functions give objects of functions. -/
theorem countP_objectsOf (program : Program) :
    (objectsOf program).countP (·.1 = .functionObject) = program.functions.toList.length := by
  have hoperations : (program.operations.flatMap Draft.objectsOf).countP
      (·.1 = .functionObject) = 0 := by
    rw [List.countP_eq_zero]
    intro x hx
    obtain ⟨op, -, hop⟩ := List.mem_flatMap.1 hx
    unfold Draft.objectsOf at hop
    split at hop <;> simp at hop <;> simp [hop]
  rw [objectsOf, List.countP_append, List.countP_append, hoperations, List.countP_map,
    List.countP_map]
  simp [Function.comp_def]

/-- **Generation words all of a program.** -/
theorem generate_ok {limit : Option Nat} (h : generate program limit = .ok d) :
    Generated program d := by
  simp only [generate, bind_eq_ok, Prod.exists] at h
  obtain ⟨d₁, himports, heads, d₂, hheads, d₃, hoperations, d₄, hsignatures, hexports⟩ := h
  obtain ⟨hadvance₁, hdone₁⟩ := Draft.advances_foldlM (D := fun (s : ImportDef) d =>
      d.Covers program (.object s.value .importObject (.importAddress s.value)) ∧
        d.Covers program (.escapes s.value))
    (fun hd hadvance => ⟨hadvance.covers hd.1, hadvance.covers hd.2⟩)
    (fun s t symbol hmem hstep => Draft.importSymbol_ok hmem hstep) himports
  obtain ⟨hadvance₂, hdone₂, hheads₂, hascending, -⟩ :=
    Draft.functionHeads_ok (fun f hf => hf) hheads
  obtain ⟨hadvance₃, hdone₃⟩ := Draft.advances_foldlM
    (D := fun (op : Operation) d => (∀ fact, op.Says program fact → d.Covers program fact) ∧
      Draft.Serves program d.pool op)
    (fun hd hadvance => ⟨fun fact hf => hadvance.covers (hd.1 fact hf),
      hd.2.grow hadvance.grows⟩)
    (fun s t op hmem hstep => Draft.operation_ok hmem hstep) hoperations
  have hentries : ∀ entry ∈ program.functions.toList.zip heads,
      entry.1 ∈ program.functions.toList ∧ Draft.Heads program d₃.pool entry.1 entry.2 := by
    intro entry hentry
    refine ⟨(List.of_mem_zip hentry).1, ?_⟩
    exact ((List.forall₂_iff_zip.1 hheads₂).2 hentry).grow hadvance₃.grows
  have hlength := hheads₂.length_eq
  have hdistinct : (program.functions.toList.zip heads).Pairwise
      fun a b => a.2.1.index ≠ b.2.1.index := by
    have hsnd : (program.functions.toList.zip heads).map Prod.snd = heads :=
      List.map_snd_zip (Nat.le_of_eq hlength.symm)
    rw [← hsnd, List.map_map, List.pairwise_map] at hascending
    exact hascending.imp Nat.ne_of_lt
  obtain ⟨hadvance₄, hdone₄, -⟩ := Draft.signatures_ok (fun entry he => (hentries entry he).1)
    (fun entry he => (hentries entry he).2) hdistinct hsignatures
  obtain ⟨hadvance₅, hdone₅⟩ := Draft.eachEscape_ok (fun v hv hpv => .exported hv hpv) hexports
  have hlate := hadvance₄.trans hadvance₅
  have hrest := hadvance₃.trans hlate
  have hall := hadvance₁.trans (hadvance₂.trans hrest)
  have htidy := hall.tidy (tidy_new program limit)
  have hobjects : d.pool.objects = objectsOf program := by
    rw [hall.objects, objects_new, objectsOf, List.nil_append, List.append_assoc,
      ← List.map_eq_flatMap, List.append_nil, List.append_nil]
  refine ⟨htidy, hobjects, ?_, ?_, ?_⟩
  · intro fact hfact
    cases hfact with
    | importObject hmem => exact (hadvance₂.trans hrest).covers (hdone₁ _ hmem).1
    | importEscapes hmem => exact (hadvance₂.trans hrest).covers (hdone₁ _ hmem).2
    | functionObject hmem => exact hrest.covers (hdone₂ _ hmem)
    | operation hmem hsaid => exact hlate.covers ((hdone₃ _ hmem).1 _ hsaid)
    | exported hmem hpointer => exact hdone₅ _ hmem hpointer
  · intro op hop
    exact (hdone₃ op hop).2.grow hlate.grows
  · have hembodies : List.Forall₂ (fun f (head : Handle × List (Option Handle)) =>
        d.pool.Embodies program f head.1.index) program.functions.toList heads := by
      refine List.forall₂_iff_zip.2 ⟨hlength, fun {f head} hentry => ?_⟩
      obtain ⟨hmade, signature, hs, hsigns⟩ := hdone₄ _ hentry
      exact ⟨hadvance₅.grows.made hmade, signature,
        (Draft.eachPointer_signature? hexports _).trans hs, hadvance₅.grows.signs hsigns⟩
    rw [htidy.pool.functionObjects_eq hascending ?_ ?_, List.forall₂_map_right_iff]
    · exact hembodies
    · intro o ho
      obtain ⟨i, hi⟩ := List.mem_iff_getElem?.1 ho
      obtain ⟨head, hhead, rfl⟩ := Option.map_eq_some_iff.1 (List.getElem?_map .. ▸ hi)
      obtain ⟨hlt, rfl⟩ := List.getElem?_eq_some_iff.1 hhead
      exact ⟨_, (hembodies.get (hlength ▸ hlt) hlt).made⟩
    · rw [hobjects, countP_objectsOf, List.length_map, hlength]

namespace Generated

/-- The objects of operations, by the numbers of operations. -/
theorem origins_sublist (operations : List Operation) :
    ((operations.flatMap Draft.objectsOf).map Prod.snd).Sublist
      ((operations.map Operation.id).map Origin.operation) := by
  induction operations with
  | nil => exact .slnil
  | cons op rest ih =>
      rw [List.flatMap_cons, List.map_append]
      cases hk : op.kind
      case alloca =>
        simp only [Draft.objectsOf, hk]
        exact ih.cons_cons _
      case malloc =>
        simp only [Draft.objectsOf, hk]
        exact ih.cons_cons _
      all_goals
        simp only [Draft.objectsOf, hk]
        exact ih.cons _

/-- No two objects were made for one part of the program. -/
theorem nodup_origins (h : Generated program d) (hp : program.Coherent) :
    (d.pool.objects.map Prod.snd).Nodup := by
  have himports :
      (program.imports.toList.map fun s => Origin.importAddress s.value).Nodup := by
    have :=
      hp.nodup_imports.map (f := Origin.importAddress) fun _ _ => Origin.importAddress.inj
    rwa [List.map_map] at this
  have hfunctions : (program.functions.toList.map fun f => Origin.function f.id).Nodup := by
    have := hp.nodup_functions.map (f := Origin.function) fun _ _ => Origin.function.inj
    rwa [List.map_map] at this
  have hoperations := (origins_sublist program.operations).nodup
    (hp.nodup_operations.map fun _ _ => Origin.operation.inj)
  -- the operations' origins are none of the others
  have hnot : ∀ origin ∈ (program.operations.flatMap Draft.objectsOf).map Prod.snd,
      ∃ id, origin = .operation id := by
    intro origin ho
    obtain ⟨id, -, rfl⟩ := List.mem_map.1 ((origins_sublist program.operations).subset ho)
    exact ⟨id, rfl⟩
  rw [h.objects, objectsOf, List.map_append, List.map_append, List.map_map, List.map_map,
    List.nodup_append, List.nodup_append]
  refine ⟨⟨himports, hfunctions, ?_⟩, hoperations, ?_⟩
  · rintro a ha b hb rfl
    obtain ⟨s, -, rfl⟩ := List.mem_map.1 ha
    obtain ⟨f, -, hf⟩ := List.mem_map.1 hb
    exact absurd hf (by simp)
  · rintro a ha b hb rfl
    obtain ⟨id, rfl⟩ := hnot a hb
    rcases List.mem_append.1 ha with ha | ha
    · obtain ⟨s, -, hs⟩ := List.mem_map.1 ha
      exact absurd hs (by simp)
    · obtain ⟨f, -, hf⟩ := List.mem_map.1 ha
      exact absurd hf (by simp)

/-- Every function has an object. -/
theorem exists_embodies (h : Generated program d) {f : FunctionDef}
    (hf : f ∈ program.functions.toList) : ∃ o, d.pool.Embodies program f o := by
  obtain ⟨i, hi, rfl⟩ := List.mem_iff_getElem.1 hf
  exact ⟨_, h.embodied.get hi (h.embodied.length_eq ▸ hi)⟩

/-- Every object of a function is that of one of the program's. -/
theorem exists_function (h : Generated program d) {o : Nat} (ho : d.pool.IsObject o)
    (hk : d.pool.kindOf o = .functionObject) :
    ∃ f ∈ program.functions.toList, d.pool.Embodies program f o := by
  obtain ⟨i, hi, rfl⟩ := List.mem_iff_getElem.1 (Pool.mem_functionObjects.2 ⟨ho, hk⟩)
  have hi' : i < program.functions.toList.length := h.embodied.length_eq ▸ hi
  exact ⟨_, List.getElem_mem hi', h.embodied.get hi' hi⟩

end Generated
end Generation
end PointerChannels
