import PointerChannels.Constraint
import PointerChannels.Proofs.Forest
import Mathlib.Data.Set.Basic

/-!
# Solutions of constraints

A family gives every entity a set of entities it points to.  A family is a solution when it
meets every constraint, when each sentinel points to itself and is loaded from and stored
through itself, and when a function that external memory points to takes external arguments and
returns to the outside.  Nothing here says how a solution is found.

## Main definitions

* `Family` — what each entity points to.
* `Family.Meets` — a family meets a constraint.
* `Solution` — a family that meets constraints and the rules of the sentinels.
* `Pool.Fresh` — a pool in which nothing has been merged and nothing points anywhere.
* `Constraint.Over` — a constraint about entities of a pool.
-/

namespace PointerChannels

/-- What each entity points to. -/
abbrev Family := Nat → Set Nat

namespace Family

/-- What is read through an address flows into a value.  Functions hold no addresses. -/
def Loads (T : Family) (p : Pool) (value address : Nat) : Prop :=
  ∀ o ∈ T address, p.kindOf o ≠ .functionObject → T o ⊆ T value

/-- What a value holds flows into all that an address refers to. -/
def Stores (T : Family) (p : Pool) (address value : Nat) : Prop :=
  ∀ o ∈ T address, p.kindOf o ≠ .functionObject → T value ⊆ T o

/-- A call site is bound to a callee.  With a signature, arguments flow into parameters and
returned values into results, position by position; without one, arguments escape and
results are external. -/
def Binds (T : Family) (site : CallSite) : Option Signature → Prop
  | some signature =>
    (∀ (i : Nat) (argument param : Handle), site.arguments[i]? = some (some argument) →
      signature.params[i]? = some (some param) → T argument.index ⊆ T param.index) ∧
    (∀ (i : Nat) (result returned : Handle), site.results[i]? = some (some result) →
      signature.results[i]? = some (some returned) → T returned.index ⊆ T result.index)
  | none =>
    (∀ argument : Handle, some argument ∈ site.arguments →
      T argument.index ⊆ T Pool.external) ∧
    (∀ result : Handle, some result ∈ site.results → T Pool.external ⊆ T result.index)

/-- A function may be called from outside. -/
def Exposes (T : Family) (signature : Signature) : Prop :=
  (∀ param : Handle, some param ∈ signature.params → T Pool.external ⊆ T param.index) ∧
  (∀ returned : Handle, some returned ∈ signature.results → T returned.index ⊆ T Pool.external)

/-- A family meets a constraint over a pool. -/
def Meets (T : Family) (p : Pool) : Constraint → Prop
  | .pointsTo pointer pointee => pointee.index ∈ T pointer.index
  | .superset whole part => T part.index ⊆ T whole.index
  | .load value address => T.Loads p value.index address.index
  | .store address value => T.Stores p address.index value.index
  | .call callee site => ∀ o ∈ T callee.index, T.Binds site (p.calleeSignature? o)
  | .external pointer => T Pool.external ⊆ T pointer.index
  | .unknown pointer => T Pool.unknown ⊆ T pointer.index
  | .escapes pointer => T pointer.index ⊆ T Pool.external

end Family

/-- A sentinel points to itself, is loaded from and is stored through itself. -/
structure Family.Sentinel (T : Family) (p : Pool) (sentinel : Nat) : Prop where
  mem : sentinel ∈ T sentinel
  loads : T.Loads p sentinel sentinel
  stores : T.Stores p sentinel sentinel

/-- A family that meets constraints over a pool. -/
structure Solution (p : Pool) (constraints : List Constraint) (T : Family) : Prop where
  unknown : T.Sentinel p Pool.unknown
  external : T.Sentinel p Pool.external
  meets : ∀ c ∈ constraints, T.Meets p c
  exposes : ∀ o ∈ T Pool.external, p.kindOf o = .functionObject →
    ∀ signature, p.signature? o = some signature → T.Exposes signature

/-! ## Well-formed input -/

theorem mem_present {operands : List (Option Handle)} {h : Handle} :
    h ∈ present operands ↔ some h ∈ operands := by
  simp [present]

namespace Pool

/-- An entity of the pool that can be pointed to. -/
def IsObject (p : Pool) (o : Nat) : Prop := o < p.size ∧ (p.kindOf o).isMemoryObject = true

instance (p : Pool) (h : Handle) : Decidable (p.Owns h) := inferInstanceAs (Decidable (_ ∧ _))

instance (p : Pool) (o : Nat) : Decidable (p.IsObject o) := inferInstanceAs (Decidable (_ ∧ _))

theorem Owns.resolveObject {p : Pool} {h : Handle} (hh : p.Owns h) (ho : p.IsObject h.index) :
    p.resolveObject h = .ok h.index := by
  rw [Pool.resolveObject, hh.resolve]
  show (if (p.kindOf h.index).isMemoryObject = true then _ else _) = _
  rw [if_pos ho.2]
  rfl

/-- The sentinels are in place and signatures name entities of the pool. -/
structure Closed (p : Pool) : Prop where
  unknown_object : p.IsObject unknown
  external_object : p.IsObject external
  owns_params : ∀ {o signature h}, p.signature? o = some signature →
    some h ∈ signature.params →
    p.Owns h
  owns_results : ∀ {o signature h}, p.signature? o = some signature →
    some h ∈ signature.results →
    p.Owns h

/-- Every entity is alone in its class and points to nothing. -/
structure Fresh (p : Pool) : Prop extends Closed p where
  alone : ∀ {i : Nat} {c : Cell}, p.cells[i]? = some c → c.parent = i
  points_nowhere : ∀ {i : Nat} {c : Cell}, p.cells[i]? = some c → c.pointsTo = .empty

/-- A property of the signatures is checked cell by cell. -/
theorem forall_signature?_iff {p : Pool} {P : Signature → Prop} :
    (∀ o signature, p.signature? o = some signature → P signature) ↔
      ∀ i : Fin p.cells.size, ∀ signature ∈ p.cells[i].signature, P signature := by
  constructor
  · intro h i signature hs
    refine h i signature ?_
    rw [signature?, Array.getElem?_eq_getElem i.2]
    exact hs
  · intro h o signature hs
    rw [signature?] at hs
    obtain ⟨c, hc, hs⟩ := Option.bind_eq_some_iff.1 hs
    obtain ⟨ho, rfl⟩ := Array.getElem?_eq_some_iff.1 hc
    exact h ⟨o, ho⟩ signature hs

theorem closed_iff {p : Pool} : p.Closed ↔ p.IsObject unknown ∧ p.IsObject external ∧
    ∀ i : Fin p.cells.size, ∀ signature ∈ p.cells[i].signature,
      (∀ h ∈ present signature.params, p.Owns h) ∧ ∀ h ∈ present signature.results,
      p.Owns h := by
  rw [← forall_signature?_iff (P := fun signature =>
    (∀ h ∈ present signature.params, p.Owns h) ∧ ∀ h ∈ present signature.results, p.Owns h)]
  constructor
  · intro h
    refine ⟨h.unknown_object, h.external_object, fun o signature hs => ⟨fun x hx => ?_,
      fun x hx => ?_⟩⟩
    · exact h.owns_params hs (mem_present.1 hx)
    · exact h.owns_results hs (mem_present.1 hx)
  · rintro ⟨hu, he, hs⟩
    exact ⟨hu, he, fun h hx => (hs _ _ h).1 _ (mem_present.2 hx),
      fun h hx => (hs _ _ h).2 _ (mem_present.2 hx)⟩

instance (p : Pool) : Decidable p.Closed := decidable_of_iff _ closed_iff.symm

theorem fresh_iff {p : Pool} : p.Fresh ↔ p.IsObject unknown ∧ p.IsObject external ∧
    ∀ i : Fin p.cells.size, p.cells[i].parent = i ∧ p.cells[i].pointsTo = .empty ∧
      ∀ signature ∈ p.cells[i].signature, (∀ h ∈ present signature.params, p.Owns h) ∧
        ∀ h ∈ present signature.results, p.Owns h := by
  constructor
  · intro h
    obtain ⟨hu, he, hs⟩ := closed_iff.1 h.toClosed
    exact ⟨hu, he, fun i => ⟨h.alone (Array.getElem?_eq_getElem i.2),
      h.points_nowhere (Array.getElem?_eq_getElem i.2), hs i⟩⟩
  · rintro ⟨hu, he, hcells⟩
    refine ⟨closed_iff.2 ⟨hu, he, fun i => (hcells i).2.2⟩, fun {i c} hc => ?_,
      fun {i c} hc => ?_⟩
    · obtain ⟨hi, rfl⟩ := Array.getElem?_eq_some_iff.1 hc
      exact (hcells ⟨i, hi⟩).1
    · obtain ⟨hi, rfl⟩ := Array.getElem?_eq_some_iff.1 hc
      exact (hcells ⟨i, hi⟩).2.1

instance (p : Pool) : Decidable p.Fresh := decidable_of_iff _ fresh_iff.symm

theorem signature?_of_calleeSignature? {p : Pool} {o : Nat} {signature : Signature}
    (h : p.calleeSignature? o = some signature) : p.signature? o = some signature := by
  rw [calleeSignature?] at h
  split at h
  · exact h
  · exact absurd h (by simp)

/-- What the classes of a pool point to, as a family. -/
def family (p : Pool) : Family := fun e => {o | o ∈ p.pointsTo e}

@[simp] theorem mem_family {p : Pool} {e o : Nat} : o ∈ p.family e ↔ o ∈ p.pointsTo e :=
  Iff.rfl

namespace Fresh

variable {p : Pool}

theorem forest (h : p.Fresh) : p.Forest := by
  constructor
  · intro i c hc
    rw [h.alone hc]
    exact lt_size_iff.2 ⟨c, hc⟩
  · intro i c hc hne
    exact absurd (h.alone hc) hne

theorem stored_eq (h : p.Fresh) (i : Nat) : p.stored i = .empty := by
  rw [stored]
  cases hc : p.cells[i]? with
  | none => rfl
  | some c => exact h.points_nowhere hc

theorem rootOf_eq (h : p.Fresh) (i : Nat) : p.rootOf i = i := by
  by_cases hi : i < p.size
  · obtain ⟨c, hc⟩ := lt_size_iff.1 hi
    exact rootOf_of_isRoot (isRoot_iff.2 ⟨c, hc, h.alone hc⟩)
  · exact rootOf_of_size_le (not_lt.1 hi)

end Fresh
end Pool

/-- The entities of a call site are the pool's. -/
structure CallSite.Over (p : Pool) (site : CallSite) : Prop where
  arguments : ∀ h, some h ∈ site.arguments → p.Owns h
  results : ∀ h, some h ∈ site.results → p.Owns h

/-- A constraint about entities of the pool; what is pointed to is a memory object. -/
def Constraint.Over (p : Pool) : Constraint → Prop
  | .pointsTo pointer pointee => p.Owns pointer ∧ p.Owns pointee ∧ p.IsObject pointee.index
  | .superset whole part => p.Owns whole ∧ p.Owns part
  | .load value address => p.Owns value ∧ p.Owns address
  | .store address value => p.Owns address ∧ p.Owns value
  | .call callee site => p.Owns callee ∧ site.Over p
  | .external pointer => p.Owns pointer
  | .unknown pointer => p.Owns pointer
  | .escapes pointer => p.Owns pointer

instance (p : Pool) (site : CallSite) : Decidable (site.Over p) :=
  decidable_of_iff ((∀ h ∈ present site.arguments, p.Owns h) ∧
    ∀ h ∈ present site.results, p.Owns h)
    ⟨fun h => ⟨fun x hx => h.1 x (mem_present.2 hx), fun x hx => h.2 x (mem_present.2 hx)⟩,
      fun h => ⟨fun x hx => h.arguments x (mem_present.1 hx),
        fun x hx => h.results x (mem_present.1 hx)⟩⟩

instance (p : Pool) : (c : Constraint) → Decidable (c.Over p)
  | .pointsTo _ _ => inferInstanceAs (Decidable (_ ∧ _ ∧ _))
  | .superset _ _ | .load _ _ | .store _ _ | .call _ _ => inferInstanceAs (Decidable (_ ∧ _))
  | .external _ | .unknown _ | .escapes _ => inferInstanceAs (Decidable (p.Owns _))

namespace Pool.SameEntities

variable {p q : Pool} {T : Family}

theorem isObject_iff (h : SameEntities p q) {o : Nat} : q.IsObject o ↔ p.IsObject o := by
  rw [IsObject, IsObject, h.size_eq, h.kindOf_eq]

theorem closed (h : SameEntities p q) (hp : p.Closed) : q.Closed where
  unknown_object := h.isObject_iff.2 hp.unknown_object
  external_object := h.isObject_iff.2 hp.external_object
  owns_params hs hm := h.owns_iff.2 (hp.owns_params (by rwa [h.signature?_eq] at hs) hm)
  owns_results hs hm := h.owns_iff.2 (hp.owns_results (by rwa [h.signature?_eq] at hs) hm)

theorem over_site (h : SameEntities p q) {site : CallSite} (hs : site.Over p) : site.Over q :=
  ⟨fun x hx => h.owns_iff.2 (hs.arguments x hx), fun x hx => h.owns_iff.2 (hs.results x hx)⟩

theorem loads_iff (h : SameEntities p q) {v a : Nat} : T.Loads q v a ↔ T.Loads p v a := by
  simp only [Family.Loads, h.kindOf_eq]

theorem stores_iff (h : SameEntities p q) {a v : Nat} : T.Stores q a v ↔ T.Stores p a v := by
  simp only [Family.Stores, h.kindOf_eq]

theorem constraintOver (h : SameEntities p q) {c : Constraint} (hc : c.Over p) : c.Over q := by
  cases c with
  | pointsTo pointer pointee =>
      exact ⟨h.owns_iff.2 hc.1, h.owns_iff.2 hc.2.1, h.isObject_iff.2 hc.2.2⟩
  | superset whole part => exact ⟨h.owns_iff.2 hc.1, h.owns_iff.2 hc.2⟩
  | load value address => exact ⟨h.owns_iff.2 hc.1, h.owns_iff.2 hc.2⟩
  | store address value => exact ⟨h.owns_iff.2 hc.1, h.owns_iff.2 hc.2⟩
  | call callee site => exact ⟨h.owns_iff.2 hc.1, h.over_site hc.2⟩
  | external pointer => exact h.owns_iff.2 hc
  | unknown pointer => exact h.owns_iff.2 hc
  | escapes pointer => exact h.owns_iff.2 hc

theorem meets (h : SameEntities p q) {c : Constraint} (hc : T.Meets p c) : T.Meets q c := by
  cases c with
  | load value address => exact h.loads_iff.2 hc
  | store address value => exact h.stores_iff.2 hc
  | call callee site =>
      intro o ho
      rw [h.calleeSignature?_eq]
      exact hc o ho
  | _ => exact hc

theorem sentinel (h : SameEntities p q) {o : Nat} (hs : T.Sentinel p o) : T.Sentinel q o :=
  ⟨hs.mem, h.loads_iff.2 hs.loads, h.stores_iff.2 hs.stores⟩

end Pool.SameEntities

/-- Being a solution does not depend on the classes of the pool. -/
theorem Solution.congr {p q : Pool} {constraints : List Constraint} {T : Family}
    (hT : Solution p constraints T) (h : Pool.SameEntities p q) :
    Solution q constraints T where
  unknown := h.sentinel hT.unknown
  external := h.sentinel hT.external
  meets c hc := h.meets (hT.meets c hc)
  exposes o ho hk signature hsig :=
    hT.exposes o ho (by rwa [h.kindOf_eq] at hk) signature (by rwa [h.signature?_eq] at hsig)

/-! ## Operands -/

/-- Two handles are paired when they stand at one position. -/
theorem mem_paired {xs ys : List (Option Handle)} {x y : Handle} :
    (x, y) ∈ paired xs ys ↔ ∃ i : Nat, xs[i]? = some (some x) ∧ ys[i]? = some (some y) := by
  rw [paired, List.mem_filterMap]
  constructor
  · rintro ⟨⟨a, b⟩, hmem, heq⟩
    obtain ⟨i, hi⟩ := List.mem_iff_getElem?.1 hmem
    rw [List.getElem?_zip_eq_some] at hi
    cases a <;> cases b <;> simp at heq
    obtain ⟨rfl, rfl⟩ := heq
    exact ⟨i, hi⟩
  · rintro ⟨i, hx, hy⟩
    exact ⟨(some x, some y), List.mem_iff_getElem?.2 ⟨i, List.getElem?_zip_eq_some.2 ⟨hx, hy⟩⟩, rfl⟩

theorem owns_of_mem_paired {p : Pool} {xs ys : List (Option Handle)}
    (hxs : ∀ h, some h ∈ xs → p.Owns h) (hys : ∀ h, some h ∈ ys → p.Owns h)
    {e : Handle × Handle} (he : e ∈ paired xs ys) : p.Owns e.1 ∧ p.Owns e.2 := by
  obtain ⟨i, hx, hy⟩ := mem_paired.1 (show (e.1, e.2) ∈ paired xs ys from he)
  exact ⟨hxs _ (List.mem_of_getElem? hx), hys _ (List.mem_of_getElem? hy)⟩

end PointerChannels
