import PointerChannels.Proofs.Unification.Round
import PointerChannels.Proofs.Inclusion.Least

/-!
# Unification finds a solution

What the classes point to at the end of a run by unification is a solution of the constraints.
The solution found by inclusion is the least one, so it lies within it.
-/

namespace PointerChannels.Unification

variable {p : Pool} {constraints : List Constraint}

namespace State

variable {s t : State}

/-! ## Writing out -/

/-- What the class of a root points to. -/
def pointed (s : State) (root : Nat) : IndexSet :=
  match s.pointeeOf root with
  | none => .empty
  | some target => .ofList (objects s.pool (s.pool.rootOf target.index))

theorem mem_pointed {i o : Nat} :
    o ∈ s.pointed (s.pool.rootOf i) ↔ s.pool.IsObject o ∧ s.Points i o := by
  rw [pointed]
  cases hpointee : s.pointeeOf (s.pool.rootOf i) with
  | none => simp [Points, hpointee]
  | some target =>
      simp only [IndexSet.mem_ofList, mem_objects, Points, hpointee, Option.some.injEq,
        exists_eq_left', Same]
      exact and_congr_right fun _ => eq_comm

/-- The classes as they were, with nothing but what they point to written out, for some of
them. -/
structure Writes (s out : State) : Prop where
  entities : Pool.SameEntities s.pool out.pool
  forest : out.pool.Forest
  rootOf_eq : ∀ i, out.pool.rootOf i = s.pool.rootOf i
  stored : ∀ r, out.pool.stored r = .empty ∨ out.pool.stored r = s.pointed r

/-- A class is written out, and what was written out before stays. -/
theorem Sound.writeClass {out : State} (hs : s.Sound) (hout : Writes s out) {r : Nat}
    (hr : s.pool.isRoot r = true) :
    ∃ t, s.writeClass out r = .ok t ∧ Writes s t ∧
      (∀ r', out.pool.stored r' = s.pointed r' → t.pool.stored r' = s.pointed r') ∧
      t.pool.stored r = s.pointed r := by
  have hindex := Pool.lt_size_of_isRoot hr
  have hlt : r < out.pool.size := by rwa [hout.entities.size_eq]
  simp only [State.writeClass, hs.check_pointee hindex, bind, Except.bind]
  cases hpointee : s.pointeeOf r with
  | none =>
      have hempty : s.pointed r = .empty := by rw [pointed, hpointee]
      refine ⟨out, rfl, hout, fun _ h => h, ?_⟩
      rcases hout.stored r with h | h
      · rw [h, hempty]
      · exact h
  | some target =>
      have hpointed : s.pointed r = .ofList (objects s.pool (s.pool.rootOf target.index)) := by
        rw [pointed, hpointee]
      have hcheck : out.pool.checkRoot r = .ok () := by
        refine Pool.checkRoot_of_isRoot ((hout.forest.isRoot_iff_rootOf hlt).2 ?_)
        rw [hout.rootOf_eq, Pool.rootOf_of_isRoot hr]
      simp only [hs.forest.root_ok (hs.owns hpointee), check_members rfl, hcheck, ← hpointed]
      have hat : ∀ r', (out.pool.store r (s.pointed r)).stored r' =
          if r' = r then s.pointed r' else out.pool.stored r' := by
        intro r'
        by_cases h : r' = r
        · subst h
          rw [Pool.stored_store_self hlt, if_pos rfl]
        · rw [Pool.stored_store_of_ne h, if_neg h]
      refine ⟨_, rfl, ⟨hout.entities.trans (.store _ _ _), hout.forest.store _ _,
        fun i => (Pool.rootOf_store i).trans (hout.rootOf_eq i), fun r' => ?_⟩,
        fun r' h => ?_, ?_⟩
      · rw [hat]
        split
        · exact .inr rfl
        · exact hout.stored r'
      · rw [hat]
        split
        · rfl
        · exact h
      · rw [hat, if_pos rfl]

/-- A number that is no entity points nowhere. -/
theorem Sound.pointed_of_size_le (hs : s.Sound) {i : Nat} (hi : s.pool.size ≤ i) :
    s.pointed i = .empty := by
  rw [pointed, pointeeOf, Array.getElem?_eq_none (hs.pointee_size ▸ hi)]
  rfl

/-- **What is written out is what the classes point to.** -/
theorem Sound.materialize (hs : s.Sound) : ∃ t, s.materialize = .ok t ∧
    Pool.SameEntities s.pool t.pool ∧ t.pool.Forest ∧
    (∀ i, t.pool.rootOf i = s.pool.rootOf i) ∧
    ∀ i o, o ∈ t.pool.family i ↔ s.pool.IsObject o ∧ s.Points i o := by
  obtain ⟨t, hok, hout, -, hdone⟩ := foldlM_ok (f := s.writeClass) (G := Writes s)
    (R := fun u v => ∀ r, u.pool.stored r = s.pointed r → v.pool.stored r = s.pointed r)
    (D := fun r out => out.pool.stored r = s.pointed r)
    (fun u r h => h) (fun h h' r hr => h' r (h r hr)) (fun {r u v} h hr => hr r h)
    (l := s.pool.indices.filter s.pool.isRoot)
    (fun out r hr hout => hs.writeClass hout (List.mem_filter.1 hr).2) (s := s)
    ⟨.refl _, hs.forest, fun _ => rfl, fun r => .inl (hs.nowhere r)⟩
  refine ⟨t, ?_, hout.entities, hout.forest, hout.rootOf_eq, fun i o => ?_⟩
  · rw [State.materialize, hs.forest.checkClasses_ok]
    exact hok
  rw [Pool.mem_family, Pool.pointsTo, hout.rootOf_eq, ← mem_pointed]
  by_cases hi : i < s.pool.size
  · have hmem : s.pool.rootOf i ∈ s.pool.indices.filter s.pool.isRoot :=
      List.mem_filter.2 ⟨List.mem_range.2 (hs.forest.rootOf_lt hi),
        hs.forest.isRoot_rootOf hi⟩
    rw [hdone _ hmem]
  · have hnone : s.pointed (s.pool.rootOf i) = .empty := by
      rw [Pool.rootOf_of_size_le (not_lt.1 hi)]
      exact hs.pointed_of_size_le (not_lt.1 hi)
    rcases hout.stored (s.pool.rootOf i) with h | h
    · rw [h, hnone]
    · rw [h]

/-! ## The solution -/

/-- What the classes point to. -/
def reach (s : State) : Family := fun i => {o | s.pool.IsObject o ∧ s.Points i o}

theorem reach_eq {i j : Nat} (h : s.Same i j) : s.reach i = s.reach j := by
  ext o
  simp only [reach, Points, Set.mem_ofPred_eq, show s.pool.rootOf i = s.pool.rootOf j from h]

theorem reach_loads {v a : Nat} (h : s.Points a v) : s.reach.Loads s.pool v a :=
  fun _ ho _ => (reach_eq (ho.2.unique h)).subset

theorem reach_stores {v a : Nat} (h : s.Points a v) : s.reach.Stores s.pool a v :=
  fun _ ho _ => (reach_eq (h.unique ho.2)).subset

theorem reach_sentinel {o : Nat} (hobject : s.pool.IsObject o) (h : s.Points o o) :
    s.reach.Sentinel s.pool o :=
  ⟨⟨hobject, h⟩, reach_loads h, reach_stores h⟩

theorem reach_binds {site : CallSite} {signature : Option Signature} {external : Handle}
    (hext : external.index = Pool.external)
    (h : ∀ e ∈ callPairs external site signature, s.Same e.1.index e.2.index) :
    s.reach.Binds site signature := by
  cases signature with
  | some signature =>
      refine ⟨fun i argument param ha hp => ?_, fun i result returned hr hr' => ?_⟩
      · exact (reach_eq (h (param, argument)
          (List.mem_append_left _ (mem_paired.2 ⟨i, hp, ha⟩)))).symm.subset
      · exact (reach_eq (h (result, returned)
          (List.mem_append_right _ (mem_paired.2 ⟨i, hr, hr'⟩)))).symm.subset
  | none =>
      have hoperand : ∀ x : Handle, some x ∈ site.arguments ++ site.results →
          s.reach Pool.external = s.reach x.index := by
        intro x hx
        rw [← hext]
        exact reach_eq (h (external, x) (List.mem_map_of_mem (mem_present.2 hx)))
      exact ⟨fun x hx => (hoperand x (List.mem_append_left _ hx)).symm.subset,
        fun x hx => (hoperand x (List.mem_append_right _ hx)).subset⟩

theorem reach_exposes {signature : Signature} {external : Handle}
    (hext : external.index = Pool.external)
    (h : ∀ e ∈ exposurePairs external (some signature), s.Same e.1.index e.2.index) :
    s.reach.Exposes signature := by
  have hoperand : ∀ x : Handle, some x ∈ signature.params ++ signature.results →
      s.reach Pool.external = s.reach x.index := by
    intro x hx
    rw [← hext]
    exact reach_eq (h (external, x) (List.mem_map_of_mem (mem_present.2 hx)))
  exact ⟨fun x hx => (hoperand x (List.mem_append_left _ hx)).subset,
    fun x hx => (hoperand x (List.mem_append_right _ hx)).symm.subset⟩

/-- **What the classes point to is a solution of what has been recorded**, once the calls are
resolved. -/
theorem Resolved.solution (hr : s.Resolved) (hk : s.Kept) (hclosed : s.pool.Closed)
    (hunknown : s.Points Pool.unknown Pool.unknown)
    (hexternal : s.Points Pool.external Pool.external)
    (hrecorded : ∀ c ∈ constraints, s.Recorded c ∧ c.Over s.pool) :
    Solution s.pool constraints s.reach := by
  refine ⟨reach_sentinel hclosed.unknown_object hunknown,
    reach_sentinel hclosed.external_object hexternal, fun c hc => ?_,
    fun o ho hkind signature hsig => ?_⟩
  · obtain ⟨hc, hover⟩ := hrecorded c hc
    cases c with
    | pointsTo pointer pointee => exact ⟨hover.2.2, hc⟩
    | superset whole part => exact (reach_eq hc).symm.subset
    | load value address => exact reach_loads hc
    | store address value => exact reach_stores hc
    | call callee site =>
        obtain ⟨c, hc⟩ := hc
        intro o ho
        exact reach_binds rfl (hk.bound (hr.calls hc o ho.1 ho.2) hc)
    | external pointer => exact (reach_eq hc).symm.subset
    | unknown pointer => exact (reach_eq hc).symm.subset
    | escapes pointer => exact (reach_eq hc).symm.subset
  · have hpairs := hk.exposed (hr.external o ho.1 hkind ho.2)
    rw [hsig] at hpairs
    exact reach_exposes rfl hpairs

end State

/-! ## The run -/

theorem State.seeding_start (hp : p.Fresh) : (State.start p).Seeding where
  closed := hp.toClosed
  forest := hp.forest
  nowhere := hp.stored_eq
  pointee_size := Array.size_replicate
  owns {r h} hr := by
    have : (State.start p).pointeeOf r = none := by
      simp only [State.pointeeOf, State.start, Array.getElem?_replicate]
      split <;> rfl
    rw [this] at hr
    exact absurd hr (by simp)
  calls {c callee site} hc := by simp [State.start] at hc
  bound_eq := rfl
  exposed_eq := rfl

theorem State.Seeding.addConstraints {s : State} (hs : s.Seeding)
    (hc : ∀ c ∈ constraints, c.Over s.pool) :
    ∃ t, constraints.foldlM State.addConstraint s = .ok t ∧ t.Seeding ∧ State.Later s t ∧
      ∀ c ∈ constraints, t.Recorded c := by
  have key := foldlM_ok (f := State.addConstraint)
    (G := fun u => u.Seeding ∧ Pool.SameEntities s.pool u.pool) (R := State.Later)
    (D := fun c u => u.Recorded c) State.Later.refl State.Later.trans
    (fun h hl => hl.recorded h) (l := constraints) ?round ⟨hs, .refl _⟩
  · obtain ⟨t, hok, ⟨ht, -⟩, hlater, hall⟩ := key
    exact ⟨t, hok, ht, hlater, hall⟩
  case round =>
    rintro u c hmem ⟨hu, hentities⟩
    obtain ⟨v, hok, hv, hlater, hrecorded⟩ :=
      hu.addConstraint (hentities.constraintOver (hc c hmem))
    exact ⟨v, hok, ⟨hv, hentities.trans hlater.entities⟩, hlater, hrecorded⟩

theorem State.Seeding.kept {s : State} (hs : s.Seeding) : s.Kept := by
  constructor <;> simp [hs.bound_eq, hs.exposed_eq]

/-- **Every constraint is taken in**, and each sentinel points to itself. -/
theorem State.seed_ok (hp : p.Fresh) (hc : ∀ c ∈ constraints, c.Over p) :
    ∃ s, State.seed p constraints = .ok s ∧ s.Seeding ∧ Pool.SameEntities p s.pool ∧
      s.Points Pool.unknown Pool.unknown ∧ s.Points Pool.external Pool.external ∧
      ∀ c ∈ constraints, s.Recorded c := by
  have hstart := State.seeding_start hp
  obtain ⟨s₁, hok₁, hs₁, hjoins₁, hunknown⟩ := hstart.toSound.point
    (Pool.owns_handle hp.unknown_object.1) (Pool.owns_handle hp.unknown_object.1)
  have hsame₁ : Pool.SameEntities p s₁.pool := hjoins₁.entities
  obtain ⟨s₂, hok₂, hs₂, hjoins₂, hexternal⟩ := hs₁.point
    (hsame₁.owns_iff.2 (Pool.owns_handle hp.external_object.1))
    (hsame₁.owns_iff.2 (Pool.owns_handle hp.external_object.1))
  have hseeding₂ := (hstart.joins hs₁ hjoins₁).joins hs₂ hjoins₂
  have hsame₂ := hsame₁.trans hjoins₂.entities
  obtain ⟨s₃, hok₃, hs₃, hlater, hrecorded⟩ :=
    hseeding₂.addConstraints fun c hmem => hsame₂.constraintOver (hc c hmem)
  refine ⟨s₃, ?_, hs₃, hsame₂.trans hlater.entities,
    hlater.points _ _ (hjoins₂.points _ _ hunknown), hlater.points _ _ hexternal, hrecorded⟩
  have hok₁' : (State.start p).point (p.handle Pool.unknown) (p.handle Pool.unknown) =
      .ok s₁ := hok₁
  simp only [State.seed, hok₁', hok₂, hok₃, bind, Except.bind]

/-- A state that a run has come to when all its calls are resolved. -/
structure Ends (p : Pool) (constraints : List Constraint) (s : State) : Prop where
  sound : s.Sound
  kept : s.Kept
  resolved : s.Resolved
  entities : Pool.SameEntities p s.pool
  unknown : s.Points Pool.unknown Pool.unknown
  external : s.Points Pool.external Pool.external
  recorded : ∀ c ∈ constraints, s.Recorded c

/-- A run by unification goes through, and writes out what the classes point to at its end. -/
theorem solve_run (hp : p.Fresh) (hc : ∀ c ∈ constraints, c.Over p) :
    ∃ seeded s out stats, State.seed p constraints = .ok seeded ∧ seeded.resolveCalls = .ok s ∧
      solve p constraints = .ok (out, stats) ∧ Ends p constraints s ∧
      Pool.SameEntities p out ∧ out.Forest ∧ (∀ i, out.rootOf i = s.pool.rootOf i) ∧
      ∀ i o, o ∈ out.family i ↔ p.IsObject o ∧ s.Points i o := by
  obtain ⟨seeded, hseed, hseeding, hentities, hunknown, hexternal, hrecorded⟩ :=
    State.seed_ok hp hc
  obtain ⟨s, hok, hs, hkept, hlater, hresolved⟩ := hseeding.toSound.resolveCalls hseeding.kept
  obtain ⟨t, hwritten, hsame, hforest, hroot, hfamily⟩ := hs.materialize
  have hall := hentities.trans hlater.entities
  refine ⟨seeded, s, t.pool, { t.stats with classes := t.pool.rootCount }, hseed, hok, ?_,
    ⟨hs, hkept, hresolved, hall, hlater.points _ _ hunknown, hlater.points _ _ hexternal,
      fun c hmem => hlater.recorded (hrecorded c hmem)⟩, hall.trans hsame, hforest, hroot,
    fun i o => ?_⟩
  · simp only [solve, hseed, hok, hwritten, bind, Except.bind]
    rfl
  · rw [hfamily, hall.isObject_iff]

/-- A run by unification ends in a solution of the constraints. -/
theorem solve_ok (hp : p.Fresh) (hc : ∀ c ∈ constraints, c.Over p) :
    ∃ out stats, solve p constraints = .ok (out, stats) ∧ Pool.SameEntities p out ∧
      out.Forest ∧ Solution p constraints out.family ∧ ∀ e, ∀ o ∈ out.family e,
      p.IsObject o := by
  obtain ⟨-, s, out, stats, -, -, hok, hends, hsame, hforest, -, hfamily⟩ := solve_run hp hc
  have hreach : out.family = s.reach := by
    funext e
    ext o
    rw [hfamily, ← hends.entities.isObject_iff]
    rfl
  have hsolution : Solution s.pool constraints s.reach :=
    hends.resolved.solution hends.kept hends.sound.closed hends.unknown hends.external
      fun c hmem => ⟨hends.recorded c hmem, hends.entities.constraintOver (hc c hmem)⟩
  refine ⟨out, stats, hok, hsame, hforest, ?_, fun e o ho => ((hfamily e o).1 ho).1⟩
  rw [hreach]
  exact hsolution.congr hends.entities.symm

/-- **Solving by unification finds a solution, and solving by inclusion finds a part of it**,
for every entity, with every strategy and in every order of the sets. -/
theorem solve_includes_inclusion (p : Pool) (hp : p.Fresh) (constraints : List Constraint)
    (hc : ∀ c ∈ constraints, c.Over p) :
    ∃ out stats, solve p constraints = .ok (out, stats) ∧ Solution p constraints out.family ∧
      ∀ (settings : Inclusion.Settings) (order : Inclusion.SetOrder), ∃ precise counters,
        Inclusion.solve settings order p constraints = .ok (precise, counters) ∧
        ∀ e, precise.family e ⊆ out.family e := by
  obtain ⟨out, stats, hok, -, -, hsolution, -⟩ := solve_ok hp hc
  refine ⟨out, stats, hok, hsolution, fun settings order => ?_⟩
  obtain ⟨precise, counters, hrun, -, -, -, -, hle⟩ :=
    Inclusion.solve_within settings order hp hc hsolution
  exact ⟨precise, counters, hrun, hle⟩

theorem solve_includes_inclusion_cyclicPool : Inclusion.cyclicPool.Fresh ∧
    (∀ c ∈ Inclusion.cyclicConstraints, c.Over Inclusion.cyclicPool) ∧
    ∃ out stats, solve Inclusion.cyclicPool Inclusion.cyclicConstraints = .ok (out, stats) ∧
      Solution Inclusion.cyclicPool Inclusion.cyclicConstraints out.family ∧
      ∀ (settings : Inclusion.Settings) (order : Inclusion.SetOrder), ∃ precise counters,
        Inclusion.solve settings order Inclusion.cyclicPool Inclusion.cyclicConstraints =
          .ok (precise, counters) ∧ ∀ e, precise.family e ⊆ out.family e :=
  ⟨by decide, by decide, solve_includes_inclusion _ (by decide) _ (by decide)⟩

end PointerChannels.Unification
