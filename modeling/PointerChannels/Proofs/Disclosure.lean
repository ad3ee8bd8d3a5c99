import PointerChannels.Proofs.Unification.Congruence

/-!
# What external memory knows

Code outside a unit gets at memory through external memory only, so nothing may be held where
only unknown memory points: whatever points to unknown memory points to external memory too,
and what unknown memory holds, external memory holds.  `Family.Disclosed` says so, and that
external memory points at once to all that it leads to.

The law is not among the constraints.  It holds of constraints that are about registers and
that never make a register unknown without making it external, `Plain` ones.  The least
solution obeys it because the part of a solution that does is a solution.  Of merged
classes it holds for another reason: either some register joins the two sentinels, or
unknown memory is alone in its class.

## Main definitions

* `Family.Disclosed` — the law.
* `Plain` — constraints as a program gives them.
* `Family.overt` — the part of a family that obeys the law.

## Main statements

* `Plain.disclosed_of_least` — the least solution obeys the law.
* `Plain.disclosed_of_congruence` — so do the classes of the least congruence.
-/

namespace PointerChannels

/-- Nothing is held by unknown memory alone, and external memory points to all it leads to. -/
structure Family.Disclosed (T : Family) : Prop where
  accompanied : ∀ {e}, Pool.unknown ∈ T e → e = Pool.unknown ∨ Pool.external ∈ T e
  shared : ∀ {o}, o ∈ T Pool.unknown → o = Pool.unknown ∨ o ∈ T Pool.external
  closed : ∀ {o}, o ∈ T Pool.external → T o ⊆ T Pool.external

/-- The entities that a constraint is about, the object of a `pointsTo` apart. -/
@[simp] def Constraint.operands : Constraint → List Handle
  | .pointsTo pointer _ => [pointer]
  | .superset whole part => [whole, part]
  | .load value address => [value, address]
  | .store address value => [address, value]
  | .call callee site => callee :: present (site.arguments ++ site.results)
  | .external pointer | .unknown pointer | .escapes pointer => [pointer]

/-- Constraints and signatures are about registers, and what is unknown is external too. -/
structure Plain (p : Pool) (constraints : List Constraint) : Prop where
  kind_unknown : p.kindOf Pool.unknown = .unknownMemory
  kind_external : p.kindOf Pool.external = .externalMemory
  operand : ∀ {c}, c ∈ constraints → ∀ r ∈ c.operands, p.kindOf r.index = .register
  pointee : ∀ {r o}, .pointsTo r o ∈ constraints → (p.kindOf o.index).isSentinel = false
  signature : ∀ {o signature}, p.signature? o = some signature →
    ∀ r : Handle, some r ∈ signature.params ++ signature.results → p.kindOf r.index = .register
  external : ∀ {r}, .unknown r ∈ constraints → .external r ∈ constraints

/-- An entity other than unknown memory that can hold addresses. -/
def Pool.Holds (p : Pool) (e : Nat) : Prop := e ≠ unknown ∧ p.kindOf e ≠ .functionObject

/-- The part of a family that obeys the law. -/
def Family.overt (T : Family) (p : Pool) : Family := fun e =>
  {x | x ∈ T e ∧ p.kindOf e ≠ .functionObject ∧
    (x = Pool.unknown → e = Pool.unknown ∨ Pool.external ∈ T e) ∧
    (e = Pool.unknown → x = Pool.unknown ∨ x ∈ T Pool.external)}

namespace Family

variable {T : Family} {p : Pool} {a b e v x : Nat}

theorem mem_overt (he : p.Holds e) :
    x ∈ T.overt p e ↔ x ∈ T e ∧ (x = Pool.unknown → Pool.external ∈ T e) := by
  simp [overt, he.1, he.2]

theorem mem_overt_unknown (hk : p.kindOf Pool.unknown = .unknownMemory) :
    x ∈ T.overt p Pool.unknown ↔ x ∈ T Pool.unknown ∧
    (x = Pool.unknown ∨ x ∈ T Pool.external) := by
  simp only [overt, hk, Set.mem_ofPred_eq, ne_eq, reduceCtorEq, not_false_eq_true,
    true_or, true_and, implies_true, forall_const]

theorem overt_subset (ha : p.Holds a) (hb : p.Holds b) (h : T a ⊆ T b) :
    T.overt p a ⊆ T.overt p b := by
  intro x hx
  rw [mem_overt ha] at hx
  exact (mem_overt hb).2 ⟨h hx.1, fun hu => h (hx.2 hu)⟩

section

variable (hunknown : p.kindOf Pool.unknown = .unknownMemory)
  (hexternal : p.kindOf Pool.external = .externalMemory)
  (hself : Pool.external ∈ T Pool.external)

include hunknown hexternal hself

/-- What is loaded from unknown memory is loaded from external memory too. -/
theorem Loads.overt (hv : p.Holds v) (ha : p.Holds a) (h : T.Loads p v a) :
    (T.overt p).Loads p v a := by
  intro o ho hk
  rw [mem_overt ha] at ho
  by_cases hu : o = Pool.unknown
  · intro x hx
    subst hu
    rw [mem_overt_unknown hunknown] at hx
    refine (mem_overt hv).2 ⟨h _ ho.1 hk hx.1, fun _ => ?_⟩
    exact h _ (ho.2 rfl) (by simp [hexternal]) hself
  · exact overt_subset ⟨hu, hk⟩ hv (h o ho.1 hk)

omit hself in
/-- What is stored to unknown memory is stored to external memory too. -/
theorem Stores.overt (ha : p.Holds a) (hv : p.Holds v) (h : T.Stores p a v) :
    (T.overt p).Stores p a v := by
  intro o ho hk
  rw [mem_overt ha] at ho
  by_cases hu : o = Pool.unknown
  · intro x hx
    subst hu
    rw [mem_overt hv] at hx
    refine (mem_overt_unknown hunknown).2 ⟨h _ ho.1 hk hx.1, .inr ?_⟩
    exact h _ (ho.2 rfl) (by simp [hexternal]) hx.1
  · exact overt_subset hv ⟨hu, hk⟩ (h o ho.1 hk)

end

end Family

namespace Plain

variable {p : Pool} {constraints : List Constraint} {T : Family} (h : Plain p constraints)

include h

theorem holds_external : p.Holds Pool.external := ⟨by decide, by simp [h.kind_external]⟩

theorem holds_of_register {e : Nat} (he : p.kindOf e = .register) : p.Holds e := by
  refine ⟨?_, by simp [he]⟩
  rintro rfl
  exact absurd (he.symm.trans h.kind_unknown) (by simp)

theorem holds_operand {c : Constraint} (hc : c ∈ constraints) {r : Handle}
    (hr : r ∈ c.operands) : p.Holds r.index :=
  h.holds_of_register (h.operand hc r hr)

theorem holds_signature {o : Nat} {signature : Signature}
    (hs : p.signature? o = some signature) {r : Handle}
    (hr : some r ∈ signature.params ++ signature.results) : p.Holds r.index :=
  h.holds_of_register (h.signature hs r hr)

/-! ## The least solution -/

theorem sentinel_overt_unknown (hT : Solution p constraints T) :
    (T.overt p).Sentinel p Pool.unknown := by
  have hunknown := h.kind_unknown
  have hself := hT.external.mem
  refine ⟨(Family.mem_overt_unknown hunknown).2 ⟨hT.unknown.mem, .inl rfl⟩, ?_, ?_⟩
  · intro o ho hk x hx
    by_cases hu : o = Pool.unknown
    · exact hu ▸ hx
    · rw [Family.mem_overt_unknown hunknown] at ho ⊢
      rw [Family.mem_overt ⟨hu, hk⟩] at hx
      have hmem := ho.2.resolve_left hu
      exact ⟨hT.unknown.loads o ho.1 hk hx.1, .inr (hT.external.loads o hmem hk hx.1)⟩
  · intro o ho hk x hx
    by_cases hu : o = Pool.unknown
    · exact hu ▸ hx
    · rw [Family.mem_overt_unknown hunknown] at ho hx
      have hmem := ho.2.resolve_left hu
      exact (Family.mem_overt ⟨hu, hk⟩).2 ⟨hT.unknown.stores o ho.1 hk hx.1,
        fun _ => hT.external.stores o hmem hk hself⟩

theorem binds_overt {callee : Handle} {site : CallSite} (hc : .call callee site ∈ constraints)
    {o : Nat} (hT : T.Binds site (p.calleeSignature? o)) :
    (T.overt p).Binds site (p.calleeSignature? o) := by
  have hsite : ∀ {r : Handle}, some r ∈ site.arguments ++ site.results → p.Holds r.index :=
    fun hr => h.holds_operand hc (List.mem_cons_of_mem _ (mem_present.2 hr))
  cases hs : p.calleeSignature? o with
  | none =>
      rw [hs] at hT
      refine ⟨fun r hr => ?_, fun r hr => ?_⟩
      · exact Family.overt_subset (hsite (List.mem_append_left _ hr))
          h.holds_external (hT.1 r hr)
      · exact Family.overt_subset h.holds_external
          (hsite (List.mem_append_right _ hr)) (hT.2 r hr)
  | some signature =>
      have hsignature : ∀ {r : Handle}, some r ∈ signature.params ++ signature.results →
          p.Holds r.index := h.holds_signature (Pool.signature?_of_calleeSignature? hs)
      rw [hs] at hT
      refine ⟨fun i a b ha hb => ?_, fun i a b ha hb => ?_⟩
      · exact Family.overt_subset (hsite (List.mem_append_left _ (List.mem_of_getElem? ha)))
          (hsignature (List.mem_append_left _ (List.mem_of_getElem? hb))) (hT.1 i a b ha hb)
      · exact Family.overt_subset
          (hsignature (List.mem_append_right _ (List.mem_of_getElem? hb)))
          (hsite (List.mem_append_right _ (List.mem_of_getElem? ha))) (hT.2 i a b ha hb)

theorem meets_overt (hT : Solution p constraints T) {c : Constraint} (hc : c ∈ constraints) :
    (T.overt p).Meets p c := by
  have hmeets := hT.meets c hc
  have hunknown := h.kind_unknown
  have hexternal := h.kind_external
  have hself := hT.external.mem
  have hE := h.holds_external
  cases c with
  | pointsTo pointer pointee =>
      refine (Family.mem_overt (h.holds_operand hc (by simp))).2
        ⟨hmeets, fun hu => ?_⟩
      have hsentinel := h.pointee hc
      rw [hu, hunknown] at hsentinel
      exact absurd hsentinel (by decide)
  | superset whole part =>
      exact Family.overt_subset (h.holds_operand hc (by simp))
        (h.holds_operand hc (by simp)) hmeets
  | load value address =>
      exact Family.Loads.overt hunknown hexternal hself
        (h.holds_operand hc (by simp))
        (h.holds_operand hc (by simp)) hmeets
  | store address value =>
      exact Family.Stores.overt hunknown hexternal
        (h.holds_operand hc (by simp))
        (h.holds_operand hc (by simp)) hmeets
  | call callee site =>
      intro o ho
      exact h.binds_overt hc (hmeets o ho.1)
  | external pointer =>
      exact Family.overt_subset hE (h.holds_operand hc (by simp)) hmeets
  | unknown pointer =>
      intro x hx
      refine (Family.mem_overt (h.holds_operand hc (by simp))).2
        ⟨hmeets hx.1, fun _ => ?_⟩
      exact hT.meets _ (h.external hc) hself
  | escapes pointer =>
      exact Family.overt_subset (h.holds_operand hc (by simp)) hE hmeets

/-- The part of a solution that obeys the law is a solution. -/
theorem solution_overt (hT : Solution p constraints T) :
    Solution p constraints (T.overt p) := by
  have hself := hT.external.mem
  have hE := h.holds_external
  refine ⟨h.sentinel_overt_unknown hT,
    ⟨(Family.mem_overt hE).2 ⟨hself, fun _ => hself⟩, ?_, ?_⟩, fun c hc => h.meets_overt hT hc,
    fun o ho hk signature hs => ⟨fun r hr => ?_, fun r hr => ?_⟩⟩
  · exact hT.external.loads.overt h.kind_unknown h.kind_external hself hE hE
  · exact hT.external.stores.overt h.kind_unknown h.kind_external hE hE
  · exact Family.overt_subset hE (h.holds_signature hs (List.mem_append_left _ hr))
      ((hT.exposes o ho.1 hk signature hs).1 r hr)
  · exact Family.overt_subset (h.holds_signature hs (List.mem_append_right _ hr)) hE
      ((hT.exposes o ho.1 hk signature hs).2 r hr)

/-- **The least solution obeys the law.** -/
theorem disclosed_of_least (hT : Solution p constraints T)
    (hleast : ∀ F, Solution p constraints F → T ≤ F) : T.Disclosed := by
  have hle := hleast _ (h.solution_overt hT)
  refine ⟨fun {e} he => (hle e he).2.2.1 rfl, fun {o} ho => (hle _ ho).2.2.2 rfl, ?_⟩
  intro o ho x hx
  exact hT.external.loads o ho (hle o hx).2.1 hx

/-! ## The least congruence -/

open Unification

/-- Only unknown memory points to unknown memory by a constraint. -/
theorem aims_unknown_iff {a t : Nat} (hat : Aims constraints a t) :
    a = Pool.unknown ↔ t = Pool.unknown := by
  cases hat with
  | @pointsTo pointer pointee hmem =>
      refine iff_of_false (h.holds_operand hmem (by simp)).1 fun hu => ?_
      have hsentinel := h.pointee hmem
      rw [hu, h.kind_unknown] at hsentinel
      exact absurd hsentinel (by decide)
  | load hmem =>
      exact iff_of_false (h.holds_operand hmem (by simp)).1 (h.holds_operand hmem (by simp)).1
  | store hmem =>
      exact iff_of_false (h.holds_operand hmem (by simp)).1 (h.holds_operand hmem (by simp)).1
  | unknown => exact Iff.rfl
  | external => exact Iff.rfl

/-- Where nothing is made unknown, unknown memory can be told apart from all else. -/
theorem congruence_apart (hnone : ∀ r, .unknown r ∉ constraints) :
    Congruence p constraints fun i j => i = Pool.unknown ↔ j = Pool.unknown := by
  have hoperand : ∀ {c r}, c ∈ constraints → r ∈ c.operands → r.index ≠ Pool.unknown :=
    fun hc hr => (h.holds_operand hc hr).1
  have hexternal : Pool.external ≠ Pool.unknown := by decide
  constructor
  case equivalence => exact ⟨fun _ => Iff.rfl, Iff.symm, Iff.trans⟩
  case superset =>
    intro whole part hmem
    exact iff_of_false (hoperand hmem (by simp))
      (hoperand hmem (by simp))
  case external =>
    intro pointer hmem
    exact iff_of_false (hoperand hmem (by simp)) hexternal
  case unknown =>
    intro pointer hmem
    exact absurd hmem (hnone pointer)
  case escapes =>
    intro pointer hmem
    exact iff_of_false (hoperand hmem (by simp)) hexternal
  case pointee =>
    intro a b t u hab hat hbu
    exact (h.aims_unknown_iff hat).symm.trans (hab.trans (h.aims_unknown_iff hbu))
  case call =>
    intro callee site hmem o ho _
    have hsite : ∀ {r : Handle}, some r ∈ site.arguments ++ site.results →
        r.index ≠ Pool.unknown :=
      fun hr => hoperand hmem (List.mem_cons_of_mem _ (mem_present.2 hr))
    cases hs : p.calleeSignature? o with
    | none => exact fun operand hr => iff_of_false hexternal (hsite hr)
    | some signature =>
        have hsignature : ∀ {r : Handle}, some r ∈ signature.params ++ signature.results →
            r.index ≠ Pool.unknown :=
          fun hr => (h.holds_signature (Pool.signature?_of_calleeSignature? hs) hr).1
        refine ⟨fun i a b ha hb => ?_, fun i a b ha hb => ?_⟩
        · exact iff_of_false (hsignature (List.mem_append_left _ (List.mem_of_getElem? hb)))
            (hsite (List.mem_append_left _ (List.mem_of_getElem? ha)))
        · exact iff_of_false (hsite (List.mem_append_right _ (List.mem_of_getElem? ha)))
            (hsignature (List.mem_append_right _ (List.mem_of_getElem? hb)))
  case exposed =>
    intro o ho _ _ signature hs operand hr
    exact iff_of_false hexternal (h.holds_signature hs hr).1

/-- **The classes of the least congruence obey the law.** -/
theorem disclosed_of_congruence {R : Nat → Nat → Prop}
    (hR : IsLeast {R | Congruence p constraints R} R)
    (hobject : p.IsObject Pool.external)
    (hT : ∀ e o, o ∈ T e ↔ p.IsObject o ∧ Leads constraints R e o) : T.Disclosed := by
  obtain ⟨hcongruence, hleast⟩ := hR
  have hequivalence := hcongruence.equivalence
  -- the class of a sentinel points to itself
  have hsentinel : ∀ {s o}, Aims constraints s s → Leads constraints R s o → R s o := by
    intro s o hs ho
    exact hcongruence.leads_unique (hequivalence.refl s)
      ⟨s, s, hequivalence.refl s, hs, hequivalence.refl s⟩ ho
  have hclosed : ∀ {o}, o ∈ T Pool.external → T o ⊆ T Pool.external := by
    intro o ho x hx
    rw [hT] at ho hx ⊢
    exact ⟨hx.1, hcongruence.leads_of_related (hsentinel .external ho.2) hx.2
      (hequivalence.refl x)⟩
  by_cases hsome : ∃ r, .unknown r ∈ constraints
  · -- the sentinels are in one class
    obtain ⟨r, hr⟩ := hsome
    have hjoined : R Pool.unknown Pool.external :=
      hequivalence.trans (hequivalence.symm (hcongruence.unknown r hr))
        (hcongruence.external r (h.external hr))
    refine ⟨fun {e} he => .inr ?_, fun {o} ho => .inr ?_, hclosed⟩
    · rw [hT] at he ⊢
      exact ⟨hobject, hcongruence.leads_of_related (hequivalence.refl e) he.2 hjoined⟩
    · rw [hT] at ho ⊢
      exact ⟨ho.1, hcongruence.leads_of_related (hequivalence.symm hjoined) ho.2
        (hequivalence.refl o)⟩
  · -- unknown memory is alone in its class, and so nothing else points to it
    have happart : ∀ {i j}, R i j → (i = Pool.unknown ↔ j = Pool.unknown) := by
      intro i j hij
      exact hleast (h.congruence_apart fun r hr => hsome ⟨r, hr⟩) i j hij
    refine ⟨fun {e} he => .inl ?_, fun {o} ho => .inl ?_, hclosed⟩
    · rw [hT] at he
      obtain ⟨-, a, t, hea, hat, htu⟩ := he
      exact (happart hea).2 ((h.aims_unknown_iff hat).2 ((happart htu).2 rfl))
    · rw [hT] at ho
      exact (happart (hsentinel .unknown ho.2)).1 rfl

end Plain
end PointerChannels
