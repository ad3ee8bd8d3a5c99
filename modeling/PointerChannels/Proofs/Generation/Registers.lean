import PointerChannels.Generation
import PointerChannels.Proofs.Program.Facts
import PointerChannels.Proofs.Pool.Classes

/-!
# Entities made for a program

While constraints are generated, a pool only grows: entities are added, values get
registers, and functions get signatures.  `Pool.Grows` is what survives all of that, and
`Pool.Tidy` is what holds all along:

* the two sentinels come first and nothing else is a sentinel;
* every register entity was made for one value, or for none;
* a value has the register that was made for it, or it was derived from a value
  whose register it shares;
* a value with a register exists;
* a signature belongs to a function of the program and names the registers of its operands.

## Main definitions

* `Pool.Made` — an entity of a kind, made for a part of the program.
* `Pool.RegisterOf`, `Pool.RegistersOf` — the registers of values.
* `Pool.Traced` — where a value's register comes from.
* `Pool.Tidy` — the invariant.
-/

namespace PointerChannels.Pool

variable {program : Program} {p q : Pool} {e : Nat} {v : ValueId} {kind : Entity.Kind}
  {origin : Origin} {r : Handle}

/-- The entity has the kind and was made for the part of the program. -/
def Made (p : Pool) (e : Nat) (kind : Entity.Kind) (origin : Origin) : Prop :=
  p.cells[e]?.map (fun c => (c.kind, c.origin)) = some (kind, origin)

theorem Made.unique {kind' : Entity.Kind} {origin' : Origin} (h : p.Made e kind origin)
    (h' : p.Made e kind' origin') : kind = kind' ∧ origin = origin' :=
  Prod.mk.inj (Option.some_injective _ (h.symm.trans h'))

theorem Made.kindOf (h : p.Made e kind origin) : p.kindOf e = kind := by
  obtain ⟨c, hc, heq⟩ := Option.map_eq_some_iff.1 h
  rw [Pool.kindOf, hc]
  exact (Prod.mk.inj heq).1

theorem Made.lt_size (h : p.Made e kind origin) : e < p.size := by
  obtain ⟨c, hc, -⟩ := Option.map_eq_some_iff.1 h
  exact lt_size_iff.2 ⟨c, hc⟩

theorem exists_made (h : e < p.size) : ∃ origin, p.Made e (p.kindOf e) origin := by
  obtain ⟨c, hc⟩ := lt_size_iff.1 h
  exact ⟨c.origin, by simp [Made, Pool.kindOf, hc]⟩

/-- The handle is that of the value's register. -/
def RegisterOf (p : Pool) (v : ValueId) (r : Handle) : Prop :=
  p.register? v = some r.index ∧ r.pool = p.id

theorem RegisterOf.unique {r' : Handle} (h : p.RegisterOf v r) (h' : p.RegisterOf v r') :
    r = r' := by
  obtain ⟨pool, index⟩ := r
  obtain ⟨pool', index'⟩ := r'
  obtain rfl : index = index' := Option.some_injective _ (h.1.symm.trans h'.1)
  obtain rfl : pool = pool' := h.2.trans h'.2.symm
  rfl

/-- The registers of those values that hold addresses, position by position. -/
def RegistersOf (program : Program) (p : Pool) (values : List ValueId)
    (registers : List (Option Handle)) : Prop :=
  List.Forall₂ (fun v register => program.IsPointer v ∧
    (∃ r, register = some r ∧ p.RegisterOf v r) ∨
    program.IsScalar v ∧ register = none) values registers

theorem RegistersOf.getElem?_iff {values : List ValueId} {registers : List (Option Handle)}
    (h : RegistersOf program p values registers) {i : Nat} :
    registers[i]? = some (some r) ↔
      ∃ v, values[i]? = some v ∧ program.IsPointer v ∧ p.RegisterOf v r := by
  induction h generalizing i with
  | nil => simp
  | cons hhead _ ih =>
      cases i with
      | succ i => simpa using ih
      | zero =>
          simp only [List.getElem?_cons_zero, Option.some.injEq]
          rcases hhead with ⟨hv, r', rfl, hr'⟩ | ⟨hv, rfl⟩
          · constructor
            · rintro ⟨rfl⟩
              exact ⟨_, rfl, hv, hr'⟩
            · rintro ⟨_, rfl, -, hr⟩
              rw [hr.unique hr']
          · constructor
            · intro h
              exact absurd h (by simp)
            · rintro ⟨_, rfl, hv', -⟩
              exact absurd hv hv'.not_isScalar

theorem RegistersOf.mem_iff {values : List ValueId} {registers : List (Option Handle)}
    (h : RegistersOf program p values registers) :
    some r ∈ registers ↔ ∃ v ∈ values, program.IsPointer v ∧ p.RegisterOf v r := by
  constructor
  · intro hr
    obtain ⟨i, hi⟩ := List.mem_iff_getElem?.1 hr
    obtain ⟨v, hv, hrest⟩ := h.getElem?_iff.1 hi
    exact ⟨v, List.mem_of_getElem? hv, hrest⟩
  · rintro ⟨v, hv, hrest⟩
    obtain ⟨i, hi⟩ := List.mem_iff_getElem?.1 hv
    exact List.mem_of_getElem? (h.getElem?_iff.2 ⟨v, hi, hrest⟩)

theorem RegistersOf.exists_register {values : List ValueId} {registers : List (Option Handle)}
    (h : RegistersOf program p values registers) {i : Nat} (hi : values[i]? = some v)
    (hv : program.IsPointer v) : ∃ r, registers[i]? = some (some r) ∧ p.RegisterOf v r := by
  obtain ⟨hlt, rfl⟩ := List.getElem?_eq_some_iff.1 hi
  have hlt' : i < registers.length := h.length_eq ▸ hlt
  have hget := List.Forall₂.get h hlt hlt'
  rcases hget with ⟨-, r, hr, hof⟩ | ⟨hscalar, -⟩
  · exact ⟨r, by rw [List.getElem?_eq_getElem hlt']; exact congrArg some hr, hof⟩
  · exact absurd hscalar hv.not_isScalar

/-- The value's register was made for it, or for a value that it was derived from. -/
inductive Traced (program : Program) (p : Pool) : ValueId → Nat → Prop
  | own {v : ValueId} {e : Nat} : p.Made e .register (.value v) → Traced program p v e
  | shared {v w : ValueId} {e : Nat} : program.Derives w v → p.register? w = some e →
      Traced program p w e → Traced program p v e

theorem Traced.made (h : Traced program p v e) : ∃ w, p.Made e .register (.value w) := by
  induction h with
  | own h => exact ⟨_, h⟩
  | shared _ _ _ ih => exact ih

/-- A signature names the registers of a function's operands. -/
def Signs (program : Program) (p : Pool) (f : FunctionDef) (signature : Signature) : Prop :=
  RegistersOf program p f.params signature.params ∧
    RegistersOf program p f.results signature.results

/-- The sentinels come first, and every other memory object was made for
a part of the program. -/
def Placed (e : Nat) (kind : Entity.Kind) (origin : Origin) : Prop :=
  kind = .unknownMemory ∧ origin = .synthetic ∧ e = unknown ∨
  kind = .externalMemory ∧ origin = .synthetic ∧ e = external ∨
  kind.isSentinel = false ∧ (kind.isMemoryObject = true → origin ≠ .synthetic) ∧ 2 ≤ e

/-- A pool as generation leaves it after each step. -/
structure Tidy (program : Program) (p : Pool) : Prop where
  two_le : 2 ≤ p.size
  bare : ∀ {i : Nat} {c : Cell}, p.cells[i]? = some c → c.parent = i ∧ c.pointsTo = .empty
  place : ∀ {e kind origin}, p.Made e kind origin → Placed e kind origin
  registered : ∀ {e v}, p.Made e .register (.value v) → p.register? v = some e
  origin : ∀ {e origin}, p.Made e .register origin → origin = .synthetic ∨
    ∃ v, origin = .value v
  traced : ∀ {v e}, p.register? v = some e → Traced program p v e
  distinct : (p.registers.map Prod.fst).Nodup
  known : ∀ {v e}, p.register? v = some e → v < program.values.size
  signed : ∀ {o signature}, p.signature? o = some signature → ∃ f ∈ program.functions.toList,
    p.Made o .functionObject (.function f.id) ∧ Signs program p f signature

theorem made_unknown (h : 2 ≤ p.size)
    (hplace : ∀ {e kind origin}, p.Made e kind origin → Placed e kind origin) :
    p.Made unknown .unknownMemory .synthetic := by
  obtain ⟨origin, hm⟩ :=
    exists_made (show unknown < p.size from Nat.lt_of_lt_of_le (by decide) h)
  rcases hplace hm with ⟨hk, ho, -⟩ | ⟨-, -, he⟩ | ⟨-, -, he⟩
  · exact hk ▸ ho ▸ hm
  · exact absurd he (by decide)
  · exact absurd he (by decide)

theorem made_external (h : 2 ≤ p.size)
    (hplace : ∀ {e kind origin}, p.Made e kind origin → Placed e kind origin) :
    p.Made external .externalMemory .synthetic := by
  obtain ⟨origin, hm⟩ :=
    exists_made (show external < p.size from Nat.lt_of_lt_of_le (by decide) h)
  rcases hplace hm with ⟨-, -, he⟩ | ⟨hk, ho, -⟩ | ⟨-, -, he⟩
  · exact absurd he (by decide)
  · exact hk ▸ ho ▸ hm
  · exact absurd he (by decide)

/-- The sentinels stand at their places, and no other entity is one. -/
structure Guarded (p : Pool) : Prop where
  made_unknown : p.Made unknown .unknownMemory .synthetic
  made_external : p.Made external .externalMemory .synthetic
  only : ∀ {e kind origin}, p.Made e kind origin → kind.isSentinel = true →
    e = unknown ∨ e = external

theorem Guarded.two_le (hp : p.Guarded) : 2 ≤ p.size := hp.made_external.lt_size

namespace Tidy

theorem guarded (hp : p.Tidy program) : p.Guarded where
  made_unknown := made_unknown hp.two_le hp.place
  made_external := made_external hp.two_le hp.place
  only hm hk := by
    rcases hp.place hm with ⟨-, -, he⟩ | ⟨-, -, he⟩ | ⟨hnot, -⟩
    · exact .inl he
    · exact .inr he
    · exact absurd (hk.symm.trans hnot) (by simp)

theorem owns (hp : p.Tidy program) (h : p.RegisterOf v r) : p.Owns r := by
  obtain ⟨w, hw⟩ := (hp.traced h.1).made
  exact ⟨h.2, hw.lt_size⟩

theorem kindOf_register (hp : p.Tidy program) (h : p.RegisterOf v r) :
    p.kindOf r.index = .register := by
  obtain ⟨w, hw⟩ := (hp.traced h.1).made
  exact hw.kindOf

theorem kindOf_registers (hp : p.Tidy program) {values : List ValueId}
    {registers : List (Option Handle)} (h : RegistersOf program p values registers)
    (hr : some r ∈ registers) : p.kindOf r.index = .register := by
  obtain ⟨v, -, -, hv⟩ := h.mem_iff.1 hr
  exact hp.kindOf_register hv

theorem fresh (hp : p.Tidy program) : p.Fresh := by
  have hu := made_unknown hp.two_le hp.place
  have he := made_external hp.two_le hp.place
  refine ⟨⟨⟨hu.lt_size, by rw [hu.kindOf]; rfl⟩, ⟨he.lt_size, by rw [he.kindOf]; rfl⟩, ?_, ?_⟩,
    fun hc => (hp.bare hc).1, fun hc => (hp.bare hc).2⟩
  · intro o signature h hs hm
    obtain ⟨f, -, -, hsigns⟩ := hp.signed hs
    obtain ⟨v, -, -, hv⟩ := hsigns.1.mem_iff.1 hm
    exact hp.owns hv
  · intro o signature h hs hm
    obtain ⟨f, -, -, hsigns⟩ := hp.signed hs
    obtain ⟨v, -, -, hv⟩ := hsigns.2.mem_iff.1 hm
    exact hp.owns hv

end Tidy

/-! ## Growth -/

/-- What later steps of generation keep. -/
structure Grows (p q : Pool) : Prop where
  id_eq : q.id = p.id
  capacity_eq : q.capacity = p.capacity
  made : ∀ {e kind origin}, p.Made e kind origin → q.Made e kind origin
  register : ∀ {v e}, p.register? v = some e → q.register? v = some e

namespace Grows

theorem refl (p : Pool) : Grows p p := ⟨rfl, rfl, fun h => h, fun h => h⟩

theorem trans {s : Pool} (h : Grows p q) (h' : Grows q s) : Grows p s :=
  ⟨h'.id_eq.trans h.id_eq, h'.capacity_eq.trans h.capacity_eq, fun hm => h'.made (h.made hm),
    fun hr => h'.register (h.register hr)⟩

theorem size_le (h : Grows p q) : p.size ≤ q.size := by
  by_contra hlt
  obtain ⟨origin, hm⟩ := exists_made (not_le.1 hlt)
  exact absurd (h.made hm).lt_size (Nat.lt_irrefl _)

theorem registerOf (h : Grows p q) (hr : p.RegisterOf v r) : q.RegisterOf v r :=
  ⟨h.register hr.1, hr.2.trans h.id_eq.symm⟩

theorem registersOf (h : Grows p q) {values : List ValueId} {registers : List (Option Handle)}
    (hr : RegistersOf program p values registers) :
    RegistersOf program q values registers := by
  refine hr.imp fun v register hv => ?_
  rcases hv with ⟨hv, r, hreg, hr⟩ | hv
  · exact .inl ⟨hv, r, hreg, h.registerOf hr⟩
  · exact .inr hv

theorem signs (h : Grows p q) {f : FunctionDef} {signature : Signature}
    (hs : Signs program p f signature) : Signs program q f signature :=
  ⟨h.registersOf hs.1, h.registersOf hs.2⟩

theorem traced (h : Grows p q) (ht : Traced program p v e) : Traced program q v e := by
  induction ht with
  | own hm => exact .own (h.made hm)
  | shared hd hw _ ih => exact .shared hd (h.register hw) ih

end Grows

/-! ## Adding entities -/

variable {label : String}

theorem made_push {e' : Nat} {kind' : Entity.Kind} {origin' : Origin} :
    (p.push kind label origin).Made e' kind' origin' ↔
      p.Made e' kind' origin' ∨ e' = p.size ∧ kind = kind' ∧ origin = origin' := by
  unfold Made
  rw [push, Array.getElem?_push]
  split
  · next h =>
      rw [h, Array.getElem?_eq_none le_rfl]
      simp [Cell.fresh, size]
  · next h => exact ⟨.inl, fun h' => h'.resolve_right fun h'' => h h''.1⟩

theorem bare_push (h : ∀ {i : Nat} {c : Cell}, p.cells[i]? = some c →
    c.parent = i ∧ c.pointsTo = .empty) {i : Nat} {c : Cell}
    (hc : (p.push kind label origin).cells[i]? = some c) :
    c.parent = i ∧ c.pointsTo = .empty := by
  rw [push, Array.getElem?_push] at hc
  split at hc
  · next hi =>
      obtain rfl := Option.some_injective _ hc
      exact ⟨hi.symm, rfl⟩
  · exact h hc

theorem grows_push : Grows p (p.push kind label origin) where
  id_eq := rfl
  capacity_eq := rfl
  made hm := made_push.2 (.inl hm)
  register hr := hr

theorem place_push (hp : p.Tidy program) (hkind : kind.isSentinel = false)
    (horigin : kind.isMemoryObject = true → origin ≠ .synthetic) {e' : Nat}
    {kind' : Entity.Kind} {origin' : Origin}
    (h : (p.push kind label origin).Made e' kind' origin') : Placed e' kind' origin' := by
  rcases made_push.1 h with h | ⟨rfl, rfl, rfl⟩
  · exact hp.place h
  · exact .inr (.inr ⟨hkind, horigin, hp.two_le⟩)

theorem signed_of_grows (hp : p.Tidy program) (h : Grows p q)
    (hsig : ∀ o, q.signature? o = p.signature? o) {o : Nat} {signature : Signature}
    (hs : q.signature? o = some signature) : ∃ f ∈ program.functions.toList,
      q.Made o .functionObject (.function f.id) ∧ Signs program q f signature := by
  rw [hsig] at hs
  obtain ⟨f, hf, hm, hsigns⟩ := hp.signed hs
  exact ⟨f, hf, h.made hm, h.signs hsigns⟩

/-- A memory object, or a register of no value. -/
theorem Tidy.push (hp : p.Tidy program) (hkind : kind.isSentinel = false)
    (horigin : kind.isMemoryObject = true → origin ≠ .synthetic)
    (hregister : kind = .register → origin = .synthetic) :
    (p.push kind label origin).Tidy program where
  two_le := by rw [size_push]; exact Nat.le_succ_of_le hp.two_le
  bare := bare_push hp.bare
  place := place_push hp hkind horigin
  registered hm := by
    rcases made_push.1 hm with hm | ⟨-, hk, ho⟩
    · exact hp.registered hm
    · rw [hregister hk] at ho
      exact absurd ho (by simp)
  origin hm := by
    rcases made_push.1 hm with hm | ⟨-, hk, ho⟩
    · exact hp.origin hm
    · exact .inl (ho ▸ hregister hk)
  traced hr := grows_push.traced (hp.traced hr)
  distinct := hp.distinct
  known := hp.known
  signed := signed_of_grows hp grows_push fun _ => signature?_push

/-! ## Objects -/

/-- The objects made for parts of the program, in the order they were made. -/
def objects (p : Pool) : List (Entity.Kind × Origin) :=
  (p.cells.toList.map fun c => (c.kind, c.origin)).filter fun x =>
    x.1.isMemoryObject && x.2 != .synthetic

theorem made_iff_getElem? :
    p.Made e kind origin ↔ (p.cells.toList.map fun c => (c.kind, c.origin))[e]? =
      some (kind, origin) := by
  rw [Made, List.getElem?_map, Array.getElem?_toList]

theorem objects_congr (h : ∀ {e kind origin}, q.Made e kind origin ↔ p.Made e kind origin) :
    q.objects = p.objects := by
  have hfaces : (q.cells.toList.map fun c => (c.kind, c.origin)) =
      p.cells.toList.map fun c => (c.kind, c.origin) := by
    refine List.ext_getElem? fun i => ?_
    ext ⟨kind, origin⟩
    rw [← made_iff_getElem?, ← made_iff_getElem?, h]
  rw [objects, objects, hfaces]

theorem mem_objects : (kind, origin) ∈ p.objects ↔
    (∃ e, p.Made e kind origin) ∧ kind.isMemoryObject = true ∧ origin ≠ .synthetic := by
  rw [objects, List.mem_filter, List.mem_iff_getElem?]
  simp only [made_iff_getElem?, Bool.and_eq_true, bne_iff_ne]

/-- Where no two objects were made for one part of the program, an object
is known by its origin. -/
theorem eq_of_origin (h : (p.objects.map Prod.snd).Nodup) {e' : Nat} {kind' : Entity.Kind}
    (hm : p.Made e kind origin) (hm' : p.Made e' kind' origin)
    (hk : kind.isMemoryObject = true) (hk' : kind'.isMemoryObject = true)
    (ho : origin ≠ .synthetic) : e = e' := by
  rw [made_iff_getElem?] at hm hm'
  rw [objects, List.Nodup, List.pairwise_map, List.pairwise_filter,
    List.pairwise_iff_getElem] at h
  obtain ⟨hlt, heq⟩ := List.getElem?_eq_some_iff.1 hm
  obtain ⟨hlt', heq'⟩ := List.getElem?_eq_some_iff.1 hm'
  rcases Nat.lt_trichotomy e e' with hlt'' | rfl | hlt''
  · exact absurd (by rw [heq, heq']) (h e e' hlt hlt' hlt'' (by simp [heq, hk, ho])
      (by simp [heq', hk', ho]))
  · rfl
  · exact absurd (by rw [heq, heq']) (h e' e hlt' hlt hlt'' (by simp [heq', hk', ho])
      (by simp [heq, hk, ho]))

theorem objects_push : (p.push kind label origin).objects =
    p.objects ++ if kind.isMemoryObject && origin != .synthetic then [(kind, origin)]
      else [] := by
  rw [objects, push, Array.toList_push, List.map_append, List.filter_append,
    List.map_singleton, List.filter_singleton, Bool.cond_eq_ite]
  rfl

/-! ## Pools with the same entities -/

theorem SameEntities.register?_eq (h : SameEntities p q) : q.register? v = p.register? v := by
  rw [register?, register?, h.registers_eq]

theorem SameEntities.made_iff (h : SameEntities p q) :
    q.Made e kind origin ↔ p.Made e kind origin := by
  have hface := h.face_eq e
  unfold Made
  cases hq : q.cells[e]? <;> cases hp : p.cells[e]? <;> simp [hq, hp, Cell.face] at hface ⊢
  rw [hface.1, hface.2.2.1]

theorem Guarded.congr (hp : p.Guarded) (h : SameEntities p q) : q.Guarded where
  made_unknown := h.made_iff.2 hp.made_unknown
  made_external := h.made_iff.2 hp.made_external
  only hm := hp.only (h.made_iff.1 hm)

/-! ## Giving registers to values -/

theorem mem_registerTable : (v, e) ∈ p.registerTable ↔ p.register? v = some e := by
  simp only [registerTable, byValue, List.mem_filterMap, IndexSet.mem_toList,
    IndexSet.mem_ofList, List.mem_map, Option.map_eq_some_iff, Prod.mk.injEq]
  constructor
  · rintro ⟨v, -, e, he, rfl, rfl⟩
    exact he
  · intro he
    exact ⟨v, ⟨(v, e), mem_of_lookup he, rfl⟩, e, he, rfl, rfl⟩

/-- The table goes up by values. -/
theorem pairwise_registerTable (p : Pool) : p.registerTable.Pairwise fun a b => a.1 < b.1 := by
  refine List.pairwise_filterMap.2 ((IndexSet.ascending _).imp fun {v w} hlt a ha b hb => ?_)
  obtain ⟨e, -, rfl⟩ := Option.map_eq_some_iff.1 ha
  obtain ⟨f, -, rfl⟩ := Option.map_eq_some_iff.1 hb
  exact hlt

theorem nodup_registerTable (p : Pool) : (p.registerTable.map Prod.fst).Nodup :=
  List.pairwise_map.2 (p.pairwise_registerTable.imp Nat.ne_of_lt)

theorem register?_bindRegister {w : ValueId} : (p.bindRegister v e).register? w =
    (p.register? w).or (if w = v then some e else none) := by
  rw [register?, register?, bindRegister, List.lookup_append]
  by_cases h : w = v
  · simp [h]
  · simp [List.lookup_cons, beq_false_of_ne h, h]

theorem grows_bindRegister (p : Pool) (v : ValueId) (e : Nat) :
    Grows p (p.bindRegister v e) where
  id_eq := rfl
  capacity_eq := rfl
  made hm := hm
  register hr := by rw [register?_bindRegister, hr]; rfl

theorem register?_bindRegister_self (h : p.register? v = none) :
    (p.bindRegister v e).register? v = some e := by
  rw [register?_bindRegister, h, if_pos rfl]
  rfl

theorem register?_bindRegister_eq_some {w : ValueId} {i : Nat}
    (h : (p.bindRegister v e).register? w = some i) :
    p.register? w = some i ∨ w = v ∧ i = e := by
  rw [register?_bindRegister] at h
  cases hw : p.register? w with
  | some j => exact .inl (by simpa [hw] using h)
  | none =>
      rw [hw] at h
      by_cases hwv : w = v
      · exact .inr ⟨hwv, by simpa [hwv] using h.symm⟩
      · exact absurd h (by simp [hwv])

theorem distinct_bindRegister (hp : (p.registers.map Prod.fst).Nodup)
    (h : p.register? v = none) : ((p.bindRegister v e).registers.map Prod.fst).Nodup := by
  rw [bindRegister, List.map_append, List.nodup_append]
  refine ⟨hp, by simp, ?_⟩
  rintro a ha b hb rfl
  obtain ⟨⟨w, i⟩, hmem, rfl⟩ := List.mem_map.1 ha
  obtain rfl : w = v := by simpa using hb
  rw [register?, List.lookup_eq_none_iff] at h
  exact absurd (h _ hmem) (by simp)

/-- The value shares the register of a value it is derived from. -/
theorem Tidy.bindRegister (hp : p.Tidy program) {w : ValueId} (hv : p.register? v = none)
    (hw : p.register? w = some e) (hd : program.Derives w v) :
    (p.bindRegister v e).Tidy program where
  two_le := hp.two_le
  bare := hp.bare
  place := hp.place
  registered hm := (grows_bindRegister p v e).register (hp.registered hm)
  origin := hp.origin
  traced hr := by
    have hgrows := grows_bindRegister p v e
    rcases register?_bindRegister_eq_some hr with hr | ⟨rfl, rfl⟩
    · exact hgrows.traced (hp.traced hr)
    · exact .shared hd (hgrows.register hw) (hgrows.traced (hp.traced hw))
  distinct := distinct_bindRegister hp.distinct hv
  known hr := by
    rcases register?_bindRegister_eq_some hr with hr | ⟨rfl, -⟩
    · exact hp.known hr
    · obtain ⟨-, -, -, -, -, -, hpointer⟩ := hd
      exact hpointer.lt_size
  signed := signed_of_grows hp (grows_bindRegister p v e) fun _ => rfl

/-- The value gets a register of its own. -/
theorem Tidy.pushRegister (hp : p.Tidy program) (hv : p.register? v = none)
    (hvalue : v < program.values.size) :
    ((p.push .register label (.value v)).bindRegister v p.size).Tidy program where
  two_le := by
    show 2 ≤ (p.push .register label (.value v)).size
    rw [size_push]
    exact Nat.le_succ_of_le hp.two_le
  bare := bare_push hp.bare
  place := place_push hp rfl (by simp)
  registered hm := by
    rcases made_push.1 hm with hm | ⟨rfl, -, ho⟩
    · exact (grows_bindRegister _ v _).register (hp.registered hm)
    · obtain rfl := Origin.value.inj ho
      exact register?_bindRegister_self hv
  origin hm := by
    rcases made_push.1 hm with hm | ⟨-, -, ho⟩
    · exact hp.origin hm
    · exact .inr ⟨v, ho.symm⟩
  traced hr := by
    rcases register?_bindRegister_eq_some hr with hr | ⟨rfl, rfl⟩
    · exact (grows_bindRegister _ _ _).traced (grows_push.traced (hp.traced hr))
    · exact .own (made_push.2 (.inr ⟨rfl, rfl, rfl⟩))
  distinct := distinct_bindRegister hp.distinct hv
  known hr := by
    rcases register?_bindRegister_eq_some hr with hr | ⟨rfl, -⟩
    · exact hp.known hr
    · exact hvalue
  signed := signed_of_grows hp (grows_push.trans (grows_bindRegister _ v _)) fun _ =>
    signature?_push

/-! ## Giving signatures to functions -/

variable {o : Nat} {signature : Signature}

theorem made_sign : (p.sign o signature).Made e kind origin ↔ p.Made e kind origin := by
  unfold Made
  rw [sign, Array.getElem?_modify]
  split
  · rw [Option.map_map]
    rfl
  · rfl

theorem signature?_sign {i : Nat} : (p.sign o signature).signature? i =
    if o = i ∧ i < p.size then some signature else p.signature? i := by
  rw [signature?, signature?, sign, Array.getElem?_modify]
  by_cases hi : i < p.size
  · obtain ⟨c, hc⟩ := lt_size_iff.1 hi
    by_cases ho : o = i <;> simp [ho, hc, hi]
  · have hnone : p.cells[i]? = none := Array.getElem?_eq_none (Nat.le_of_not_lt hi)
    by_cases ho : o = i <;> simp [ho, hnone, hi]

theorem objects_sign : (p.sign o signature).objects = p.objects := objects_congr made_sign

theorem grows_sign (p : Pool) (o : Nat) (signature : Signature) :
    Grows p (p.sign o signature) where
  id_eq := rfl
  capacity_eq := rfl
  made := made_sign.2
  register hr := hr

theorem Tidy.sign (hp : p.Tidy program) {f : FunctionDef} (hf : f ∈ program.functions.toList)
    (ho : p.Made o .functionObject (.function f.id)) (hs : Signs program p f signature) :
    (p.sign o signature).Tidy program where
  two_le := by
    show 2 ≤ (p.cells.modify o _).size
    rw [Array.size_modify]
    exact hp.two_le
  bare {i c} hc := by
    rw [Pool.sign, Array.getElem?_modify] at hc
    split at hc
    · obtain ⟨c', hc', rfl⟩ := Option.map_eq_some_iff.1 hc
      have hbare := hp.bare hc'
      exact ⟨hbare.1, hbare.2⟩
    · exact hp.bare hc
  place hm := hp.place (made_sign.1 hm)
  registered hm := hp.registered (made_sign.1 hm)
  origin hm := hp.origin (made_sign.1 hm)
  traced hr := (grows_sign p o signature).traced (hp.traced hr)
  distinct := hp.distinct
  known := hp.known
  signed {i signature'} hi := by
    have hgrows := grows_sign p o signature
    rw [signature?_sign] at hi
    split at hi
    · next h =>
        obtain rfl := h.1
        obtain rfl := Option.some_injective _ hi
        exact ⟨f, hf, hgrows.made ho, hgrows.signs hs⟩
    · obtain ⟨g, hg, hm, hsigns⟩ := hp.signed hi
      exact ⟨g, hg, hgrows.made hm, hgrows.signs hsigns⟩

end PointerChannels.Pool
