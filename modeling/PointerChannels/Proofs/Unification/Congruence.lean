import PointerChannels.Proofs.Unification.Soundness

/-!
# Unification computes the least congruence

Constraints ask that certain entities be in one class, and that classes which are one point to
one class.  `Congruence` says so of any relation, in terms of the constraints alone.  The
classes at the end of a run are a congruence, since every constraint is recorded and every call
is resolved.  They are the least one, since a run merges only what every congruence relates:
`Within` is the invariant, kept for an arbitrary congruence by each step of the run.

A congruence does not see in which order the constraints were given, so
neither does the answer.

## Main definitions

* `Aims` — what the constraints say points where.
* `Congruence` — a relation that obeys the constraints.

## Main statements

* `Ends.congruence` — the classes of a finished run are a congruence.
* `solve_leastCongruence` — they are the least one, and what a class points
  to can be read off them.
-/

namespace PointerChannels

/-- Two entities are in one class. -/
def Pool.Same (p : Pool) (i j : Nat) : Prop := p.rootOf i = p.rootOf j

namespace Unification

open State

variable {p : Pool} {constraints : List Constraint} {R : Nat → Nat → Prop}

/-! ## What constraints ask of classes -/

/-- One entity points to another, by a constraint or because it is a sentinel. -/
inductive Aims (constraints : List Constraint) : Nat → Nat → Prop
  | pointsTo {pointer pointee : Handle} : .pointsTo pointer pointee ∈ constraints →
      Aims constraints pointer.index pointee.index
  | load {value address : Handle} : .load value address ∈ constraints →
      Aims constraints address.index value.index
  | store {address value : Handle} : .store address value ∈ constraints →
      Aims constraints address.index value.index
  | unknown : Aims constraints Pool.unknown Pool.unknown
  | external : Aims constraints Pool.external Pool.external

/-- The class of one entity points to the class of another, when classes
are those of a relation. -/
def Leads (constraints : List Constraint) (R : Nat → Nat → Prop) (i j : Nat) : Prop :=
  ∃ a t, R i a ∧ Aims constraints a t ∧ R t j

/-- The operands of a call site are in the classes of the callee's.  Those of a callee without
a signature are all external. -/
def Shares (R : Nat → Nat → Prop) (site : CallSite) : Option Signature → Prop
  | some signature =>
    (∀ (i : Nat) (argument param : Handle), site.arguments[i]? = some (some argument) →
      signature.params[i]? = some (some param) → R param.index argument.index) ∧
    (∀ (i : Nat) (result returned : Handle), site.results[i]? = some (some result) →
      signature.results[i]? = some (some returned) → R result.index returned.index)
  | none => ∀ operand : Handle, some operand ∈ site.arguments ++ site.results →
      R Pool.external operand.index

/-- A relation that obeys constraints over a pool. -/
structure Congruence (p : Pool) (constraints : List Constraint) (R : Nat → Nat → Prop) :
    Prop where
  equivalence : Equivalence R
  superset : ∀ whole part, .superset whole part ∈ constraints → R whole.index part.index
  external : ∀ pointer, .external pointer ∈ constraints → R pointer.index Pool.external
  unknown : ∀ pointer, .unknown pointer ∈ constraints → R pointer.index Pool.unknown
  escapes : ∀ pointer, .escapes pointer ∈ constraints → R pointer.index Pool.external
  pointee : ∀ {a b t u}, R a b → Aims constraints a t → Aims constraints b u → R t u
  call : ∀ callee site, .call callee site ∈ constraints → ∀ o, p.IsObject o →
    Leads constraints R callee.index o → Shares R site (p.calleeSignature? o)
  exposed : ∀ o, p.IsObject o → p.kindOf o = .functionObject →
    Leads constraints R Pool.external o → ∀ signature, p.signature? o = some signature →
    ∀ operand : Handle, some operand ∈ signature.params ++ signature.results →
      R Pool.external operand.index

theorem shares_iff_callPairs {external : Handle} (hext : external.index = Pool.external)
    {site : CallSite} {signature : Option Signature} :
    Shares R site signature ↔ ∀ e ∈ callPairs external site signature,
    R e.1.index e.2.index := by
  cases signature with
  | some signature =>
      simp only [Shares, callPairs, List.mem_append, or_imp, forall_and,
        Prod.forall, mem_paired]
      constructor
      · rintro ⟨hparams, hresults⟩
        refine ⟨?_, ?_⟩
        · rintro param argument ⟨i, hparam, hargument⟩
          exact hparams i argument param hargument hparam
        · rintro result returned ⟨i, hresult, hreturned⟩
          exact hresults i result returned hresult hreturned
      · rintro ⟨hparams, hresults⟩
        refine ⟨fun i argument param hargument hparam => ?_,
          fun i result returned hresult hreturned => ?_⟩
        · exact hparams param argument ⟨i, hparam, hargument⟩
        · exact hresults result returned ⟨i, hresult, hreturned⟩
  | none =>
      simp only [Shares, callPairs, List.mem_map, mem_present]
      constructor
      · rintro h e ⟨operand, hmem, rfl⟩
        rw [hext]
        exact h operand hmem
      · intro h operand hmem
        rw [← hext]
        exact h (external, operand) ⟨operand, hmem, rfl⟩

/-! ### Constraints with the same members -/

section Members

variable {constraints' : List Constraint}

theorem Aims.mono (h : ∀ c ∈ constraints, c ∈ constraints') {i j : Nat}
    (hij : Aims constraints i j) : Aims constraints' i j := by
  cases hij with
  | pointsTo hmem => exact .pointsTo (h _ hmem)
  | load hmem => exact .load (h _ hmem)
  | store hmem => exact .store (h _ hmem)
  | unknown => exact .unknown
  | external => exact .external

theorem Leads.mono (h : ∀ c ∈ constraints, c ∈ constraints') {i j : Nat}
    (hij : Leads constraints R i j) : Leads constraints' R i j := by
  obtain ⟨a, t, hia, hat, htj⟩ := hij
  exact ⟨a, t, hia, hat.mono h, htj⟩

/-- A relation that obeys constraints obeys every part of them. -/
theorem Congruence.mono (h : ∀ c ∈ constraints, c ∈ constraints')
    (hR : Congruence p constraints' R) : Congruence p constraints R where
  equivalence := hR.equivalence
  superset whole part hmem := hR.superset whole part (h _ hmem)
  external pointer hmem := hR.external pointer (h _ hmem)
  unknown pointer hmem := hR.unknown pointer (h _ hmem)
  escapes pointer hmem := hR.escapes pointer (h _ hmem)
  pointee hab hat hbu := hR.pointee hab (hat.mono h) (hbu.mono h)
  call callee site hmem o ho hlead := hR.call callee site (h _ hmem) o ho (hlead.mono h)
  exposed o ho hkind hlead := hR.exposed o ho hkind (hlead.mono h)

end Members

/-! ## The classes of a finished run -/

namespace State

variable {s t u : State}

theorem Points.of_same {i j k : Nat} (hij : s.Same i j) (h : s.Points j k) : s.Points i k := by
  obtain ⟨x, hx, hxk⟩ := h
  exact ⟨x, by rw [show s.pool.rootOf i = s.pool.rootOf j from hij, hx], hxk⟩

end State

namespace Ends

variable {s : State} (h : Ends p constraints s)

include h

/-- The classes point where the constraints say. -/
theorem points_of_aims {i j : Nat} (hij : Aims constraints i j) : s.Points i j := by
  cases hij with
  | pointsTo hmem => exact h.recorded _ hmem
  | load hmem => exact h.recorded _ hmem
  | store hmem => exact h.recorded _ hmem
  | unknown => exact h.unknown
  | external => exact h.external

theorem points_of_leads {i j : Nat} (hij : Leads constraints s.Same i j) : s.Points i j := by
  obtain ⟨a, t, hia, hat, htj⟩ := hij
  exact .of_same hia ((h.points_of_aims hat).same htj)

/-- **The classes of a finished run are a congruence.** -/
theorem congruence : Congruence p constraints s.Same where
  equivalence := ⟨fun _ => rfl, Eq.symm, Eq.trans⟩
  superset whole part hmem := h.recorded _ hmem
  external pointer hmem := h.recorded _ hmem
  unknown pointer hmem := h.recorded _ hmem
  escapes pointer hmem := (h.recorded _ hmem).symm
  pointee hab hat hbu := (h.points_of_aims hat).unique (.of_same hab (h.points_of_aims hbu))
  call callee site hmem o ho hlead := by
    obtain ⟨c, hc⟩ : ∃ c : Nat, s.calls[c]? = some (callee, site) := h.recorded _ hmem
    have hbound :=
      h.resolved.calls hc o (h.entities.isObject_iff.2 ho) (h.points_of_leads hlead)
    rw [← h.entities.calleeSignature?_eq]
    exact (shares_iff_callPairs rfl).2 (h.kept.bound hbound hc)
  exposed o ho hkind hlead signature hsig operand hmem := by
    have hexposed := h.resolved.external o (h.entities.isObject_iff.2 ho)
      (by rw [h.entities.kindOf_eq, hkind]) (h.points_of_leads hlead)
    have hpairs := h.kept.exposed hexposed
    rw [h.entities.signature?_eq, hsig] at hpairs
    exact hpairs (s.externalHandle, operand) (List.mem_map_of_mem (mem_present.2 hmem))

end Ends

/-! ## Nothing is merged without need -/

namespace Congruence

variable (hR : Congruence p constraints R)

include hR

theorem leads_of_related {i i' j j' : Nat} (hi : R i i') (h : Leads constraints R i' j)
    (hj : R j j') : Leads constraints R i j' := by
  obtain ⟨a, t, hia, hat, htj⟩ := h
  exact ⟨a, t, hR.equivalence.trans hi hia, hat, hR.equivalence.trans htj hj⟩

/-- A class points to one class. -/
theorem leads_unique {i i' j j' : Nat} (hi : R i i') (h : Leads constraints R i j)
    (h' : Leads constraints R i' j') : R j j' := by
  obtain ⟨a, t, hia, hat, htj⟩ := h
  obtain ⟨b, u, hib, hbu, huj⟩ := h'
  have hab : R a b :=
    hR.equivalence.trans (hR.equivalence.symm hia) (hR.equivalence.trans hi hib)
  have htu := hR.pointee hab hat hbu
  exact hR.equivalence.trans (hR.equivalence.symm htj) (hR.equivalence.trans htu huj)

end Congruence

namespace State

variable {s t u : State}

/-- All that a state says holds by a relation. -/
structure Within (constraints : List Constraint) (R : Nat → Nat → Prop) (s : State) :
    Prop where
  same : ∀ {i j}, s.Same i j → R i j
  points : ∀ {i j}, s.Points i j → Leads constraints R i j
  calls : ∀ {c : Nat} {callee : Handle} {site : CallSite}, s.calls[c]? = some (callee, site) →
    .call callee site ∈ constraints

section Within

variable (hR : Congruence p constraints R)

include hR

theorem Within.merged {a b loser survivor : Nat} (hw : s.Within constraints R) (hs : s.Sound)
    (ha : s.pool.isRoot a = true) (hb : s.pool.isRoot b = true)
    (h : Merged s a b t loser survivor) (hab : R a b) : t.Within constraints R := by
  have htrans := @hR.equivalence.trans
  have hsym := @hR.equivalence.symm
  have hsurvivor : R a survivor ∧ R b survivor ∧ R loser survivor := by
    rcases h.survives with ⟨rfl, rfl⟩ | ⟨rfl, rfl⟩
    · exact ⟨hR.equivalence.refl _, hsym hab, hsym hab⟩
    · exact ⟨hab, hR.equivalence.refl _, hab⟩
  -- an entity is related to its root, before and after
  have hroot : ∀ i, R i (t.pool.rootOf i) := by
    intro i
    have hold : R i (s.pool.rootOf i) := hw.same (hs.forest.rootOf_rootOf i).symm
    rw [h.joined.rootOf_eq]
    split
    · next hi => exact htrans (hi ▸ hold) hsurvivor.2.2
    · exact hold
  have hsame : ∀ {i j}, t.Same i j → R i j := by
    intro i j hij
    exact htrans (hroot i) (hij ▸ hsym (hroot j))
  refine ⟨hsame, ?_, fun hc => hw.calls (h.calls_eq ▸ hc)⟩
  rintro i j ⟨x, hx, hxj⟩
  rw [h.pointeeOf_eq] at hx
  split at hx
  · next hi =>
      have hfrom : ∀ c, R c survivor → s.pool.isRoot c = true → s.pointeeOf c = some x →
          Leads constraints R i j := by
        intro c hc hcroot hcx
        have hlead : Leads constraints R c x.index :=
          hw.points ⟨x, by rw [Pool.rootOf_of_isRoot hcroot, hcx], rfl⟩
        exact hR.leads_of_related (htrans (hi ▸ hroot i) (hsym hc)) hlead (hsame hxj)
      rcases Option.or_eq_some_iff.1 hx with hx | ⟨-, hx⟩
      · exact hfrom a hsurvivor.1 ha hx
      · exact hfrom b hsurvivor.2.1 hb hx
  · next hi =>
      -- a root that did not survive the merge as the survivor was a root before
      have hkept : t.pool.rootOf i = s.pool.rootOf i := by
        have heq := h.joined.rootOf_eq i
        split at heq
        · exact absurd heq hi
        · exact heq
      have hlead : Leads constraints R i x.index := hw.points ⟨x, hkept ▸ hx, rfl⟩
      exact hR.leads_of_related (hR.equivalence.refl i) hlead (hsame hxj)

theorem Within.joinFor : ∀ {bound : Nat} {s t : State} {x y : Handle}, s.Within constraints R →
    s.Sound → s.pool.Owns x → s.pool.Owns y → R x.index y.index →
    State.joinFor bound s x y = .ok t → t.Within constraints R := by
  intro bound
  induction bound with
  | zero =>
      intro s t x y hw _ _ _ _ hok
      obtain rfl := Except.ok.inj hok
      exact hw
  | succ bound ih =>
      intro s t x y hw hs hx hy hxy hok
      simp only [State.joinFor, hs.forest.root_ok hx, hs.forest.root_ok hy, bind,
        Except.bind] at hok
      by_cases heq : s.pool.rootOf x.index = s.pool.rootOf y.index
      · rw [if_pos heq] at hok
        obtain rfl := Except.ok.inj hok
        exact hw
      rw [if_neg heq] at hok
      have ha := hs.forest.isRoot_rootOf hx.2
      have hb := hs.forest.isRoot_rootOf hy.2
      obtain ⟨merged, loser, survivor, hmerged, h⟩ := hs.mergeRoots ha hb heq
      have hroots : R (s.pool.rootOf x.index) (s.pool.rootOf y.index) :=
        hR.equivalence.trans (hw.same (hs.forest.rootOf_rootOf _))
          (hR.equivalence.trans hxy (hw.same (hs.forest.rootOf_rootOf _).symm))
      have hwithin := hw.merged hR hs ha hb h hroots
      simp only [hmerged] at hok
      split at hok
      · next px py hpx hpy =>
          refine ih hwithin (h.sound hs) (h.joined.same.owns_iff.2 (hs.owns hpx))
            (h.joined.same.owns_iff.2 (hs.owns hpy)) ?_ hok
          exact hR.leads_unique hxy (hw.points ⟨px, hpx, rfl⟩) (hw.points ⟨py, hpy, rfl⟩)
      · obtain rfl := Except.ok.inj hok
        exact hwithin

theorem Within.join {x y : Handle} (hw : s.Within constraints R) (hs : s.Sound)
    (hx : s.pool.Owns x) (hy : s.pool.Owns y) (hxy : R x.index y.index)
    (hok : s.join x y = .ok t) : t.Within constraints R :=
  hw.joinFor hR hs hx hy hxy hok

theorem Within.joinAll {pairs : List (Handle × Handle)} (hw : s.Within constraints R)
    (hs : s.Sound) (hpairs : ∀ e ∈ pairs, s.pool.Owns e.1 ∧ s.pool.Owns e.2)
    (hrelated : ∀ e ∈ pairs, R e.1.index e.2.index) (hok : s.joinAll pairs = .ok t) :
    t.Within constraints R := by
  have key := foldlM_induction (f := fun (s : State) (e : Handle × Handle) => s.join e.1 e.2)
    (P := fun u => u.Within constraints R ∧ u.Sound ∧ Pool.SameEntities s.pool u.pool)
    (l := pairs) ?round ⟨hw, hs, .refl _⟩ hok
  · exact key.1
  case round =>
    rintro u v e he ⟨hwu, hu, hentities⟩ hv
    obtain ⟨hx, hy⟩ := hpairs e he
    have hx := hentities.owns_iff.2 hx
    have hy := hentities.owns_iff.2 hy
    obtain ⟨v', hv', hsound, hjoins, -⟩ := hu.join hx hy
    obtain rfl := Except.ok.inj (hv.symm.trans hv')
    exact ⟨hwu.join hR hu hx hy (hrelated e he) hv, hsound, hentities.trans hjoins.entities⟩

theorem Within.point {pointer target : Handle} (hw : s.Within constraints R) (hs : s.Sound)
    (hp : s.pool.Owns pointer) (ht : s.pool.Owns target)
    (haims : Aims constraints pointer.index target.index)
    (hok : s.point pointer target = .ok t) : t.Within constraints R := by
  have hlt := hs.forest.rootOf_lt hp.2
  simp only [State.point, hs.forest.root_ok hp, hs.check_pointee hlt, bind, Except.bind] at hok
  split at hok
  · next hnone =>
      obtain rfl := Except.ok.inj hok
      refine ⟨hw.same, ?_, hw.calls⟩
      rintro i j ⟨x, hx, hxj⟩
      have hx := (pointeeOf_modify (hs.pointee_size ▸ hlt) (some target) _).symm.trans hx
      split at hx
      · next hi =>
          obtain rfl := Option.some.inj hx
          exact ⟨pointer.index, target.index, hw.same hi, haims, hw.same hxj⟩
      · exact hw.points ⟨x, hx, hxj⟩
  · next current hcurrent =>
      refine hw.join hR hs (hs.owns hcurrent) ht ?_ hok
      have haims' : Leads constraints R pointer.index target.index :=
        ⟨_, _, hR.equivalence.refl _, haims, hR.equivalence.refl _⟩
      exact hR.leads_unique (hR.equivalence.refl _) (hw.points ⟨current, hcurrent, rfl⟩) haims'

theorem Within.addConstraint {c : Constraint} (hw : s.Within constraints R) (hs : s.Sound)
    (hover : c.Over s.pool) (hmem : c ∈ constraints) (hok : s.addConstraint c = .ok t) :
    t.Within constraints R := by
  obtain ⟨counted, hcounted⟩ : ∃ u, ({ s with
    stats := { s.stats with constraints := s.stats.constraints + 1 } } : State) = u := ⟨_, rfl⟩
  have hw : counted.Within constraints R := hcounted ▸ ⟨hw.same, hw.points, hw.calls⟩
  have hs : counted.Sound := hcounted ▸ { hs with }
  have hpool : counted.pool = s.pool := hcounted ▸ rfl
  rw [← hpool] at hover
  have hunknown := Pool.owns_handle hs.closed.unknown_object.1
  have hexternal := Pool.owns_handle hs.closed.external_object.1
  cases c <;> simp only [State.addConstraint, hcounted] at hok
  case pointsTo pointer pointee => exact hw.point hR hs hover.1 hover.2.1 (.pointsTo hmem) hok
  case superset whole part => exact hw.join hR hs hover.1 hover.2 (hR.superset _ _ hmem) hok
  case load value address => exact hw.point hR hs hover.2 hover.1 (.load hmem) hok
  case store address value => exact hw.point hR hs hover.1 hover.2 (.store hmem) hok
  case external pointer => exact hw.join hR hs hover hexternal (hR.external _ hmem) hok
  case unknown pointer =>
      exact hw.join hR hs hover (hpool ▸ hunknown) (hR.unknown _ hmem) hok
  case escapes pointer =>
      exact hw.join hR hs hexternal hover (hR.equivalence.symm (hR.escapes _ hmem)) hok
  case call callee site =>
      subst hcounted
      obtain rfl := Except.ok.inj hok
      refine ⟨hw.same, hw.points, fun {i callee' site'} hi => ?_⟩
      rw [Array.getElem?_push] at hi
      split at hi
      · rw [Option.some.injEq, Prod.mk.injEq] at hi
        obtain ⟨rfl, rfl⟩ := hi
        exact hmem
      · exact hw.calls hi

/-- A fresh pool in which only the sentinels point anywhere, then constraint by constraint. -/
theorem within_seed (hp : p.Fresh) (hc : ∀ c ∈ constraints, c.Over p)
    (hok : State.seed p constraints = .ok t) : t.Within constraints R := by
  have hstart : (State.start p).Within constraints R := by
    refine ⟨fun {i j} hij => ?_, ?_, by simp [State.start]⟩
    · have hij : p.rootOf i = p.rootOf j := hij
      rw [hp.rootOf_eq, hp.rootOf_eq] at hij
      exact hij ▸ hR.equivalence.refl _
    · rintro i j ⟨x, hx, -⟩
      simp only [State.pointeeOf, State.start, Array.getElem?_replicate] at hx
      split at hx <;> simp at hx
  have hsound := (State.seeding_start hp).toSound
  have hunknown : p.Owns (p.handle Pool.unknown) := Pool.owns_handle hp.unknown_object.1
  have hexternal : p.Owns (p.handle Pool.external) := Pool.owns_handle hp.external_object.1
  simp only [State.seed, bind_eq_ok] at hok
  obtain ⟨s₁, hok₁, s₂, hok₂, hok⟩ := hok
  obtain ⟨s₁', hok₁', hs₁, hjoins₁, -⟩ := hsound.point hunknown hunknown
  obtain rfl := Except.ok.inj (hok₁.symm.trans hok₁')
  have hsame₁ : Pool.SameEntities p s₁.pool := hjoins₁.entities
  have hexternal₁ := hsame₁.owns_iff.2 hexternal
  obtain ⟨s₂', hok₂', hs₂, hjoins₂, -⟩ := hs₁.point hexternal₁ hexternal₁
  obtain rfl := Except.ok.inj (hok₂.symm.trans hok₂')
  have hseeding₂ := ((State.seeding_start hp).joins hs₁ hjoins₁).joins hs₂ hjoins₂
  have hw₁ := hstart.point hR hsound hunknown hunknown .unknown hok₁
  have hw₂ := hw₁.point hR hs₁ hexternal₁ hexternal₁ .external hok₂
  have key := foldlM_induction (f := State.addConstraint)
    (P := fun u => u.Within constraints R ∧ u.Seeding ∧ Pool.SameEntities p u.pool)
    (l := constraints) ?round ⟨hw₂, hseeding₂, hsame₁.trans hjoins₂.entities⟩ hok
  · exact key.1
  case round =>
    rintro u v c hmem ⟨hwu, hu, hentities⟩ hv
    have hover := hentities.constraintOver (hc c hmem)
    obtain ⟨v', hv', hseeding, hlater, -⟩ := hu.addConstraint hover
    obtain rfl := Except.ok.inj (hv.symm.trans hv')
    exact ⟨hwu.addConstraint hR hu.toSound hover hmem hv, hseeding,
      hentities.trans hlater.entities⟩

end Within

/-! ## Resolving calls -/

/-- The classes of a snapshot are at most those of the state. -/
structure Snapshot (snapshot : Pool) (s : State) : Prop where
  forest : snapshot.Forest
  entities : Pool.SameEntities snapshot s.pool
  same : ∀ i j, snapshot.rootOf i = snapshot.rootOf j → s.Same i j

theorem Snapshot.later {snapshot : Pool} (h : Snapshot snapshot s) (hl : Later s t) :
    Snapshot snapshot t :=
  ⟨h.forest, h.entities.trans hl.entities, fun i j hij => hl.same i j (h.same i j hij)⟩

/-- By the classes of a snapshot no object is found that the classes of the
state do not lead to. -/
theorem Sound.points_of_candidates (hs : s.Sound) {snapshot : Pool} (h : Snapshot snapshot s)
    {pointer : Handle} (hp : s.pool.Owns pointer) {found : List Nat}
    (hok : s.candidates snapshot pointer = .ok found) {o : Nat} (ho : o ∈ found) :
    s.pool.IsObject o ∧ s.Points pointer.index o := by
  simp only [State.candidates, hs.forest.root_ok hp,
    hs.check_pointee (hs.forest.rootOf_lt hp.2), bind, Except.bind] at hok
  split at hok
  · obtain rfl := Except.ok.inj hok
    simp at ho
  · next target htarget =>
      simp only [hs.forest.root_ok (hs.owns htarget),
        check_members h.entities.size_eq.symm] at hok
      obtain rfl := Except.ok.inj hok
      obtain ⟨hobject, hroot⟩ := mem_objects.1 ho
      have hin : s.Same o (s.pool.rootOf target.index) :=
        h.same _ _ (by rw [← hroot, h.forest.rootOf_rootOf])
      refine ⟨h.entities.isObject_iff.2 hobject, target, htarget, ?_⟩
      rw [Same, hin, hs.forest.rootOf_rootOf]

/-- A loop over steps that each keep within a relation. -/
theorem within_each {objects : List Nat} {act : State → Nat → Except Fault (Bool × State)}
    {changed : Bool} (hs : s.Sound) (hk : s.Kept) (hw : s.Within constraints R)
    (hact : ∀ u, u.Sound → u.Kept → Later s u → u.calls = s.calls → u.Within constraints R →
      ∀ o ∈ objects, ∀ r, act u o = .ok r → Progress u r.1 r.2 ∧ r.2.Within constraints R)
    (hok : State.each objects act s = .ok (changed, t)) :
    t.Sound ∧ t.Kept ∧ Later s t ∧ t.calls = s.calls ∧ t.Within constraints R := by
  have key := foldlM_induction (f := fun (x : Bool × State) o => do
      let r ← act x.2 o
      return (x.1 || r.1, r.2))
    (P := fun x => x.2.Sound ∧ x.2.Kept ∧ Later s x.2 ∧ x.2.calls = s.calls ∧
      x.2.Within constraints R)
    (l := objects) ?round (s := (false, s)) ⟨hs, hk, .refl s, rfl, hw⟩ hok
  · exact key
  case round =>
    rintro x y o ho ⟨hsx, hkx, hlater, hcalls, hwx⟩ hy
    obtain ⟨r, hr, hy⟩ := bind_eq_ok.1 hy
    obtain rfl := pure_eq_ok.1 hy
    obtain ⟨hprogress, hwr⟩ := hact x.2 hsx hkx hlater hcalls hwx o ho r hr
    exact ⟨hprogress.sound, hprogress.kept, hlater.trans hprogress.later,
      hprogress.calls_eq.trans hcalls, hwr⟩

section Calls

variable (hR : Congruence p constraints R) (hs : s.Sound) (hk : s.Kept)
  (hp : Pool.SameEntities p s.pool) (hw : s.Within constraints R)

include hR hs hk hp hw

theorem Within.bindCall {call o : Nat} {callee : Handle} {site : CallSite}
    (hcall : s.calls[call]? = some (callee, site)) (ho : s.pool.IsObject o)
    (hpoints : s.Points callee.index o) {r : Bool × State}
    (hok : s.bindCall call site o = .ok r) :
    Progress s r.1 r.2 ∧ r.2.Within constraints R := by
  obtain ⟨new, t, hok', hprogress, -⟩ := hs.bindCall hk hcall ho.1
  obtain rfl := Except.ok.inj (hok.symm.trans hok')
  refine ⟨hprogress, ?_⟩
  rw [State.bindCall] at hok
  split at hok
  · obtain ⟨-, rfl⟩ := Prod.mk.inj (Except.ok.inj hok)
    exact hw
  · obtain ⟨-, -, hok⟩ := bind_eq_ok.1 hok
    obtain ⟨u, hjoin, hu⟩ := bind_eq_ok.1 hok
    obtain ⟨-, rfl⟩ := Prod.mk.inj (pure_eq_ok.1 hu)
    have hnoted : Within constraints R { s with
        bound := (call, o) :: s.bound
        stats := { s.stats with callBindings := s.stats.callBindings + 1 } } :=
      ⟨hw.same, hw.points, hw.calls⟩
    refine hnoted.joinAll hR { hs with }
      (fun e he => owns_callPairs hs.closed (hs.calls hcall).2 he) ?_ hjoin
    have hshares :=
      hR.call callee site (hw.calls hcall) o (hp.isObject_iff.1 ho) (hw.points hpoints)
    rw [← hp.calleeSignature?_eq] at hshares
    exact (shares_iff_callPairs rfl).1 hshares

theorem Within.expose {o : Nat} (ho : s.pool.IsObject o) (hpoints : s.Points Pool.external o)
    {r : Bool × State} (hok : s.expose o = .ok r) :
    Progress s r.1 r.2 ∧ r.2.Within constraints R := by
  obtain ⟨new, t, hok', hprogress, -⟩ := hs.expose hk ho.1
  obtain rfl := Except.ok.inj (hok.symm.trans hok')
  refine ⟨hprogress, ?_⟩
  obtain ⟨-, -, hok⟩ := bind_eq_ok.1 hok
  split at hok
  · obtain ⟨-, rfl⟩ := Prod.mk.inj (Except.ok.inj hok)
    exact hw
  · next hskip =>
    obtain ⟨u, hjoin, hu⟩ := bind_eq_ok.1 hok
    obtain ⟨-, rfl⟩ := Prod.mk.inj (pure_eq_ok.1 hu)
    have hnoted : Within constraints R { s with exposed := s.exposed.insert o } :=
      ⟨hw.same, hw.points, hw.calls⟩
    refine hnoted.joinAll hR { hs with } (fun e he => owns_exposurePairs hs.closed he)
      (fun e he => ?_) hjoin
    have hkind : s.pool.kindOf o = .functionObject := not_not.1 (not_or.1 hskip).1
    rw [hp.kindOf_eq] at hkind
    have he : e ∈ exposurePairs s.externalHandle (s.pool.signature? o) := he
    rw [hp.signature?_eq] at he
    cases hsig : p.signature? o with
    | none => simp [hsig, exposurePairs] at he
    | some signature =>
        rw [hsig] at he
        obtain ⟨operand, hmem, rfl⟩ := List.mem_map.1 he
        exact hR.exposed o (hp.isObject_iff.1 ho) hkind (hw.points hpoints)
          signature hsig operand (mem_present.1 hmem)

theorem Within.resolveCall {snapshot : Pool} (hsnap : Snapshot snapshot s) {call : Nat}
    (hcall : call < s.calls.size) {r : Bool × State}
    (hok : s.resolveCall snapshot call = .ok r) :
    Progress s r.1 r.2 ∧ r.2.Within constraints R := by
  obtain ⟨new, t, hok', hprogress, -⟩ := hs.resolveCall hk hsnap.entities hcall
  obtain rfl := Except.ok.inj (hok.symm.trans hok')
  refine ⟨hprogress, ?_⟩
  obtain ⟨⟨callee, site⟩, hget⟩ : ∃ x, s.calls[call]? = some x :=
    ⟨_, Array.getElem?_eq_getElem hcall⟩
  obtain ⟨x, hx, hok⟩ := bind_eq_ok.1 hok
  obtain rfl := Option.some.inj (hget.symm.trans (entryAt_eq_ok.1 hx))
  obtain ⟨found, hfound, heach⟩ := bind_eq_ok.1 hok
  refine (within_each hs hk hw (fun u hu hku hlater hcalls hwu o ho r hr => ?_) heach).2.2.2.2
  obtain ⟨hobject, hpoints⟩ := hs.points_of_candidates hsnap (hs.calls hget).1 hfound ho
  exact hwu.bindCall hR hu hku (hp.trans hlater.entities) (hcalls ▸ hget)
    (hlater.entities.isObject_iff.2 hobject) (hlater.points _ _ hpoints) hr

theorem Within.round {changed : Bool} (hok : s.round = .ok (changed, t)) :
    t.Within constraints R := by
  obtain ⟨noted, hnoted⟩ : ∃ u,
    ({ s with stats := { s.stats with rounds := s.stats.rounds + 1 } } : State) = u := ⟨_, rfl⟩
  have hsn : noted.Sound := hnoted ▸ { hs with }
  have hkn : noted.Kept := hnoted ▸ { hk with }
  have hwn : noted.Within constraints R := hnoted ▸ ⟨hw.same, hw.points, hw.calls⟩
  have hpn : Pool.SameEntities p noted.pool := hnoted ▸ hp
  have hsnap : Snapshot s.pool noted := hnoted ▸ ⟨hs.forest, .refl _, fun _ _ h => h⟩
  have hcn : noted.calls = s.calls := hnoted ▸ rfl
  simp only [State.round, hnoted, bind_eq_ok, pure_eq_ok] at hok
  obtain ⟨-, -, ⟨bound, v⟩, hbind, found, hfound, ⟨exposed, w⟩, hexpose, heq⟩ := hok
  obtain ⟨-, rfl⟩ := Prod.mk.inj heq
  obtain ⟨hsv, hkv, hlater, hcalls, hwv⟩ := within_each hsn hkn hwn
    (fun u hu hku hl hcu hwu call hmem r hr =>
      hwu.resolveCall hR hu hku (hpn.trans hl.entities)
      (hsnap.later hl) (by rw [hcu, hcn]; exact List.mem_range.1 hmem) hr) hbind
  have hexternal : v.pool.Owns v.externalHandle :=
    Pool.owns_handle hsv.closed.external_object.1
  refine (within_each hsv hkv hwv (fun u hu hku hl hcu hwu o ho r hr => ?_) hexpose).2.2.2.2
  obtain ⟨hobject, hpoints⟩ :=
    hsv.points_of_candidates (hsnap.later hlater) hexternal hfound ho
  exact hwu.expose hR hu hku ((hpn.trans hlater.entities).trans hl.entities)
    (hl.entities.isObject_iff.2 hobject) (hl.points _ _ hpoints) hr

omit hs hk hp hw in
/-- **Rounds merge only what every congruence relates.** -/
theorem Within.resolveFor : ∀ {bound : Nat} {s t : State}, s.Within constraints R → s.Sound →
    s.Kept → Pool.SameEntities p s.pool → State.resolveFor bound s = .ok t →
    t.Within constraints R := by
  intro bound
  induction bound with
  | zero =>
      intro s t hw _ _ _ hok
      obtain rfl := Except.ok.inj hok
      exact hw
  | succ bound ih =>
      intro s t hw hs hk hp hok
      obtain ⟨changed, u, v, hround, hprogress, hlater, -⟩ := hs.round hk
      have hwv := hw.round hR hs hk hp hround
      simp only [State.resolveFor, hround, bind, Except.bind] at hok
      cases changed with
      | true =>
          exact ih hwv hprogress.sound hprogress.kept
            ((hp.trans hlater.entities).trans hprogress.later.entities) hok
      | false =>
          obtain rfl := Except.ok.inj hok
          exact hwv

end Calls
end State

/-! ## The answer -/

/-- The classes of a finished run are the least congruence, and where they point
can be read off them. -/
theorem solve_congruence (hp : p.Fresh) (hc : ∀ c ∈ constraints, c.Over p) :
    ∃ out stats, solve p constraints = .ok (out, stats) ∧
      IsLeast {R | Congruence p constraints R} out.Same ∧
      ∀ e o, o ∈ out.pointsTo e ↔ p.IsObject o ∧ Leads constraints out.Same e o := by
  obtain ⟨seeded, s, out, stats, hseed, hresolve, hok, hends, -, -, hroot, hfamily⟩ :=
    solve_run hp hc
  have hsame : out.Same = s.Same := by
    funext i j
    rw [Pool.Same, State.Same, hroot, hroot]
  have hwithin : ∀ R, Congruence p constraints R → s.Within constraints R := by
    intro R hR
    obtain ⟨seeded', hseed', hseeding, hentities, -⟩ := State.seed_ok hp hc
    obtain rfl := Except.ok.inj (hseed.symm.trans hseed')
    exact (within_seed hR hp hc hseed).resolveFor hR hseeding.toSound hseeding.kept
      hentities hresolve
  refine ⟨out, stats, hok, ⟨hsame ▸ hends.congruence, fun R hR i j hij => ?_⟩, fun e o => ?_⟩
  · rw [hsame] at hij
    exact (hwithin R hR).same hij
  · rw [← Pool.mem_family, hfamily, hsame]
    exact and_congr_right fun _ =>
      ⟨(hwithin _ hends.congruence).points, hends.points_of_leads⟩

/-- **Solving by unification computes the least congruence.**  Two entities end in one class
exactly when the least relation that obeys the constraints relates them, and a class points to
the memory objects of the class that a constraint makes it point to, and to nothing when there
is none.  So neither the order of the constraints nor repeating one makes a difference. -/
theorem solve_leastCongruence (p : Pool) (hp : p.Fresh) (constraints : List Constraint)
    (hc : ∀ c ∈ constraints, c.Over p) :
    ∃ out stats, solve p constraints = .ok (out, stats) ∧
      IsLeast {R | Congruence p constraints R} out.Same ∧
      (∀ e o, o ∈ out.pointsTo e ↔ p.IsObject o ∧ Leads constraints out.Same e o) ∧
      (∀ e, (∀ a t, Aims constraints a t → ¬ out.Same e a) → out.pointsTo e = .empty) ∧
      ∀ constraints' : List Constraint, (∀ c, c ∈ constraints' ↔ c ∈ constraints) →
        ∃ out' stats', solve p constraints' = .ok (out', stats') ∧
          (∀ i j, out'.Same i j ↔ out.Same i j) ∧ ∀ e, out'.pointsTo e = out.pointsTo e := by
  obtain ⟨out, stats, hok, hleast, hpoints⟩ := solve_congruence hp hc
  refine ⟨out, stats, hok, hleast, hpoints, fun e hnone => ?_, fun constraints' hmem => ?_⟩
  · refine IndexSet.ext_mem fun o => ?_
    simp only [hpoints, IndexSet.not_mem_empty, iff_false]
    rintro ⟨-, a, t, hea, hat, -⟩
    exact hnone a t hat hea
  · obtain ⟨out', stats', hok', hleast', hpoints'⟩ :=
      solve_congruence hp fun c hc' => hc c ((hmem c).1 hc')
    have hset : {R | Congruence p constraints' R} = {R | Congruence p constraints R} := by
      ext R
      exact ⟨.mono fun c => (hmem c).2, .mono fun c => (hmem c).1⟩
    have hsame : out'.Same = out.Same := (hset ▸ hleast').unique hleast
    refine ⟨out', stats', hok', fun i j => by rw [hsame],
      fun e => IndexSet.ext_mem fun o => ?_⟩
    rw [hpoints, hpoints', hsame]
    exact and_congr_right fun _ =>
      ⟨.mono fun c => (hmem c).1, .mono fun c => (hmem c).2⟩

theorem solve_leastCongruence_cyclicPool : Inclusion.cyclicPool.Fresh ∧
    (∀ c ∈ Inclusion.cyclicConstraints, c.Over Inclusion.cyclicPool) ∧
    ∃ out stats, solve Inclusion.cyclicPool Inclusion.cyclicConstraints = .ok (out, stats) ∧
      IsLeast {R | Congruence Inclusion.cyclicPool Inclusion.cyclicConstraints R} out.Same ∧
      ∃ out' stats', solve Inclusion.cyclicPool Inclusion.cyclicConstraints.reverse =
          .ok (out', stats') ∧
        (∀ i j, out'.Same i j ↔ out.Same i j) ∧ ∀ e, out'.pointsTo e = out.pointsTo e := by
  obtain ⟨out, stats, hok, hleast, -, -, horder⟩ :=
    solve_leastCongruence Inclusion.cyclicPool
      (by decide) Inclusion.cyclicConstraints (by decide)
  exact ⟨by decide, by decide, out, stats, hok, hleast,
    horder Inclusion.cyclicConstraints.reverse fun c => List.mem_reverse⟩

end Unification
end PointerChannels
