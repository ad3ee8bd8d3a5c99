import PointerChannels.Proofs.Inclusion.Seed
import Mathlib.Tactic.Ring

/-!
# Inclusion solving computes the least solution

Whatever the strategy and the order in which sets are listed, a run over a fresh pool ends with
an empty worklist.  Then everything is settled, so what the classes point to is a solution of
the constraints; and nothing in the state ever exceeded any solution, so it is the least one.
-/

namespace PointerChannels.Inclusion

variable {p : Pool} {constraints : List Constraint} {T : Family}

namespace State

variable {s t : State}

/-! ## The start -/

theorem linksAt_start (settings : Settings) (p : Pool) (r : Nat) :
    (start settings p).linksAt r = {} := by
  simp only [linksAt, start, Array.getElem?_replicate]
  split <;> rfl

/-- Before any constraint is known only what the pool holds is settled, and nothing exceeds a
solution. -/
theorem seeding_start (hp : p.Ready) {settings : Settings} (habove : T.Above p)
    (hT : SolutionBeyond p constraints (settings.spared p) T) :
    Seeding p T True (start settings p) := by
  have hlinks := linksAt_start settings p
  have hcalls : (start settings p).calls = #[] := rfl
  have hqueue : (start settings p).queue = [] := rfl
  refine ⟨?_, ⟨?_, ?_⟩, hp.forest, fun _ => rfl, fun hd r o ho => ?_,
    fun r o ho hskip => ?_, ?_⟩
  · constructor
    case joins => exact fun _ _ h => h
    case grows => exact fun _ _ h => h
    case closed => exact hp.toClosed
    case forest => exact hp.forest
    case links_size => simp [start, Pool.size]
    case objects => exact fun _ _ ho => hp.objects ho
    case rooted => exact fun _ _ ho => hp.rooted ho
    case below =>
      refine ⟨habove.uniform, fun r o ho => habove.le r (hp.mem_pointsTo ho), ?_,
        ?_, ?_, ?_, ?_⟩
      case refine_5 =>
        rw [exempt_rootOf hp.forest fun _ => rfl]
        exact hT.exposes
      all_goals simp [hlinks]
    all_goals simp [hlinks, hcalls, hqueue]
  · simp [hcalls]
  · simp [start]
  · refine ⟨hd, hp.mem_pointsTo ho.1, fun i hi => ?_⟩
    rw [Pool.rootOf_of_isRoot (hp.rooted ho.1)]
    exact hi
  · refine ⟨by simp [hlinks], by simp [hlinks], by simp [hlinks], fun he => ?_⟩
    exact absurd (.inr ⟨trivial, he.symm⟩) hskip
  · intro r o x hx
    simp [hlinks] at hx

theorem work_start (settings : Settings) (p : Pool) :
    (start settings p).work ≤ 2 * p.size * p.size + p.size := by
  have hslack : ∀ r ∈ p.roots, (start settings p).slack r ≤ 2 * p.size + 1 := by
    intro r _
    show p.size - (p.stored r).size +
      (p.size - ((start settings p).linksAt r).supersets.size) + 1 ≤ _
    omega
  have hsum : ∑ r ∈ p.roots, (start settings p).slack r ≤ p.size * (2 * p.size + 1) := by
    refine (Finset.sum_le_card_nsmul p.roots _ _ hslack).trans ?_
    rw [Nat.nsmul_eq_mul]
    exact Nat.mul_le_mul_right _ p.card_roots_le
  calc (start settings p).work = ∑ r ∈ p.roots, (start settings p).slack r :=
        Nat.zero_add _
    _ ≤ p.size * (2 * p.size + 1) := hsum
    _ = 2 * p.size * p.size + p.size := by ring

/-- The constraints are taken in one after the other. -/
theorem Seeding.addConstraints {pending : Prop} :
    ∀ {constraints : List Constraint} {s : State}, Seeding p T pending s →
    (∀ c ∈ constraints, c.Over s.pool ∧ T.MeetsBeyond s.pool (s.settings.spared p) c) →
    ∃ t, constraints.foldlM State.addConstraint s = .ok t ∧ Seeding p T pending t ∧ Keeps s t ∧
      t.work ≤ s.work + constraints.length ∧ ∀ c ∈ constraints, t.Recorded c := by
  intro constraints
  induction constraints with
  | nil =>
      intro s hs _
      exact ⟨s, rfl, hs, .refl s, le_rfl, by simp⟩
  | cons c rest ih =>
      intro s hs hall
      obtain ⟨hover, hmeets⟩ := hall c List.mem_cons_self
      obtain ⟨u, hok, hseeded, hrecorded⟩ := hs.addConstraint hover hmeets
      have hrest :
          ∀ c ∈ rest, c.Over u.pool ∧ T.MeetsBeyond u.pool (u.settings.spared p) c := by
        intro d hd
        obtain ⟨hover', hmeets'⟩ := hall d (List.mem_cons_of_mem c hd)
        rw [hseeded.keeps.settings_eq]
        exact ⟨hseeded.keeps.same.constraintOver hover',
          hseeded.keeps.same.meetsBeyond hmeets'⟩
      obtain ⟨t, hok', hseeding, hkeeps, hwork, hall'⟩ := ih hseeded.seeding hrest
      refine ⟨t, ?_, hseeding, hseeded.keeps.trans hkeeps, ?_, fun d hd => ?_⟩
      · rw [List.foldlM_cons, hok]
        exact hok'
      · have := hseeded.work_le
        rw [List.length_cons]
        omega
      · rcases List.mem_cons.1 hd with rfl | hd
        · exact hkeeps.recorded hrecorded
        · exact hall' d hd

/-- What a state has been told to respect. -/
structure Holds (p : Pool) (constraints : List Constraint) (s : State) : Prop where
  same : Pool.SameEntities p s.pool
  unknown : s.Planted Pool.unknown
  external : s.Planted Pool.external
  recorded : ∀ c ∈ constraints, s.Recorded c

theorem Holds.keep (h : Holds p constraints s) (hk : Keeps s t) : Holds p constraints t where
  same := h.same.trans hk.same
  unknown := hk.planted h.unknown
  external := hk.planted h.external
  recorded c hc := hk.recorded (h.recorded c hc)

/-- The state in which the sentinels are planted and the constraints, `count`
many, are still to come. -/
def plant (settings : Settings) (p : Pool) (count : Nat) : Except Fault State := do
  let s := start settings p
  let s := { s with stats := { s.stats with constraints := count } }
  let s ← s.seedSentinel Pool.unknown
  s.seedSentinel Pool.external

theorem seed_eq_ok {settings : Settings} : seed settings p constraints = .ok t ↔
    ∃ s, plant settings p constraints.length = .ok s ∧
      constraints.foldlM addConstraint s = .ok t := by
  simp only [seed, plant, bind_eq_ok]
  constructor
  · rintro ⟨u, hu, s, hs, ht⟩
    exact ⟨s, ⟨u, hu, hs⟩, ht⟩
  · rintro ⟨s, ⟨u, hu, hs⟩, ht⟩
    exact ⟨u, hu, s, hs, ht⟩

theorem seeding_plant (hp : p.Ready) {settings : Settings} (habove : T.Above p)
    (hT : SolutionBeyond p constraints (settings.spared p) T) (count : Nat) :
    ∃ s, plant settings p count = .ok s ∧ Seeding p T False s ∧ s.settings = settings ∧
      Holds p [] s ∧ s.work ≤ 2 * p.size * p.size + p.size + 2 := by
  have hagrees : Agrees (start settings p) { start settings p with
      stats := { (start settings p).stats with constraints := count } } :=
    ⟨rfl, rfl, rfl, rfl, rfl, rfl⟩
  have hstart := seeding_start hp habove hT
  have hseeding := hstart.follow (hstart.valid.congr hagrees) (hstart.obliged.congr hagrees)
    hagrees.extends_
  have hwork := hagrees.work_eq.trans_le (work_start settings p)
  have hsame : Pool.SameEntities p { start settings p with
      stats := { (start settings p).stats with constraints := count } }.pool := .refl p
  have hsettings : settings = { start settings p with
      stats := { (start settings p).stats with constraints := count } }.settings := rfl
  simp only [plant, bind_eq_ok]
  generalize { start settings p with
    stats := { (start settings p).stats with constraints := count } } = s₀ at *
  subst hsettings
  obtain ⟨s₁, hok₁, hseeded₁, hunknown, -⟩ := hseeding.seedSentinel
    (hsame.isObject_iff.2 hp.unknown_object) (hsame.sentinelBeyond hT.unknown)
  have hkeeps₁ := hseeded₁.keeps
  have hsame₁ := hsame.trans hkeeps₁.same
  obtain ⟨s₂, hok₂, hseeded₂, hexternal, hwaits⟩ := hseeded₁.seeding.seedSentinel
    (hsame₁.isObject_iff.2 hp.external_object)
    (hkeeps₁.settings_eq ▸ hsame₁.sentinelBeyond hT.external)
  have hkeeps₂ := hkeeps₁.trans hseeded₂.keeps
  refine ⟨s₂, ⟨s₁, hok₁, hok₂⟩, hseeded₂.seeding.planted hwaits, hkeeps₂.settings_eq,
    ⟨hsame.trans hkeeps₂.same, hseeded₂.keeps.planted hunknown, hexternal, by simp⟩, ?_⟩
  have h₁ := hseeded₁.work_le
  have h₂ := hseeded₂.work_le
  omega

theorem seed_ok (hp : p.Ready) (hc : ∀ c ∈ constraints, c.Over p) {settings : Settings}
    (habove : T.Above p) (hT : SolutionBeyond p constraints (settings.spared p) T) :
    ∃ s, seed settings p constraints = .ok s ∧ Seeding p T False s ∧ s.settings = settings ∧
      Holds p constraints s ∧ s.work < popBound p.size constraints.length := by
  obtain ⟨s₀, hplant, hseeding, hsettings, hholds, hwork⟩ :=
    seeding_plant hp habove hT constraints.length
  obtain ⟨s, hok, hs, hkeeps, hwork', hrecorded⟩ := hseeding.addConstraints fun c hmem =>
    ⟨hholds.same.constraintOver (hc c hmem),
      hsettings.symm ▸ hholds.same.meetsBeyond (hT.meets c hmem)⟩
  have hkept := hholds.keep hkeeps
  refine ⟨s, seed_eq_ok.2 ⟨s₀, hplant, hok⟩, hs, hkeeps.settings_eq.trans hsettings,
    ⟨hkept.same, hkept.unknown, hkept.external, hrecorded⟩, ?_⟩
  rw [popBound]
  omega

/-! ## The end -/

section Final

variable (hs : Steady p T s) (hqueue : s.queue = [])

include hs hqueue

/-- With nothing on the worklist every pointee is settled. -/
theorem Steady.settled {r o : Nat} (ho : o ∈ s.pool.stored r) : s.Settled r o := by
  have hwaits : ∀ r, ¬ s.Waits r := by
    rintro r ⟨e, he, -⟩
    rw [hqueue] at he
    exact List.not_mem_nil he
  by_cases hd : s.settings.differences = true
  · exact (settled_iff_fresh hd).2 ⟨ho, fun hf => hwaits r (hs.valid.fresh_waits hd r o hf)⟩
  · exact (settled_iff_waits hd).2 ⟨ho, hwaits r⟩

/-- Sets are included along edges. -/
theorem Steady.subset_of_hasEdge {x y : Nat} (h : s.HasEdge x y) :
    s.pool.family x ⊆ s.pool.family y :=
  fun _ ho => hs.flows.of_hasEdge h (hs.settled hqueue ho)

/-- What a class points to has been handled, unless difference propagation has missed it. -/
theorem Steady.handled {e o : Nat} (ho : o ∈ s.pool.family e)
    (hnot : o ∉ s.settings.missed p e) : s.Handled (s.pool.rootOf e) o := by
  refine hs.handles _ o (hs.settled hqueue ho) fun hover => hnot ⟨hover.1, ?_⟩
  rw [Pool.mem_family, Pool.pointsTo, hover.2.unmerged e rfl]
  exact hover.2.mem

theorem Steady.loads {v : Handle} {a : Nat} (hv : v ∈ (s.linksAt (s.pool.rootOf a)).loads) :
    Family.LoadsBeyond s.pool.family s.pool (s.settings.missed p) v.index a := by
  intro o ho hnot hk
  exact hs.subset_of_hasEdge hqueue ((hs.handled hqueue ho hnot).loads hk v hv)

theorem Steady.stores {v : Handle} {a : Nat} (hv : v ∈ (s.linksAt (s.pool.rootOf a)).stores) :
    Family.StoresBeyond s.pool.family s.pool (s.settings.missed p) a v.index := by
  intro o ho hnot hk
  exact hs.subset_of_hasEdge hqueue ((hs.handled hqueue ho hnot).stores hk v hv)

theorem Steady.sentinel {sentinel : Nat} (h : s.Planted sentinel) :
    Family.SentinelBeyond s.pool.family s.pool (s.settings.missed p) sentinel :=
  ⟨h.mem, hs.loads hqueue h.loads, hs.stores hqueue h.stores⟩

theorem Steady.meets {c : Constraint} (hc : s.Recorded c) :
    Family.MeetsBeyond s.pool.family s.pool (s.settings.missed p) c := by
  cases c with
  | pointsTo pointer pointee => exact hc
  | load value address => exact hs.loads hqueue hc
  | store address value => exact hs.stores hqueue hc
  | call callee site =>
      intro o ho hnot
      obtain ⟨c, hmem, hsite⟩ := hc
      obtain ⟨entry, hentry, hbound⟩ := (hs.handled hqueue ho hnot).calls c hmem
      rw [hentry, Option.map_some, Option.some.injEq] at hsite
      subst hsite
      exact (binds_iff_callEdges rfl).2 fun e he =>
        hs.subset_of_hasEdge hqueue (hs.obliged.bound hentry hbound e he)
  | superset whole part => exact hs.subset_of_hasEdge hqueue hc
  | external pointer => exact hs.subset_of_hasEdge hqueue hc
  | unknown pointer => exact hs.subset_of_hasEdge hqueue hc
  | escapes pointer => exact hs.subset_of_hasEdge hqueue hc

theorem Steady.exposes {o : Nat} (ho : o ∈ s.pool.family Pool.external)
    (hnot : o ∉ s.settings.missed p Pool.external) (hk : s.pool.kindOf o = .functionObject)
    {signature : Signature} (hsig : s.pool.signature? o = some signature) :
    Family.Exposes s.pool.family signature := by
  have hexposed := (hs.handled hqueue ho hnot).exposed rfl hk
  have hexternal : s.externalHandle.index = Pool.external := rfl
  refine (exposes_iff_exposureEdges hexternal).2 fun e he => ?_
  rw [← hsig] at he
  exact hs.subset_of_hasEdge hqueue (hs.obliged.exposed hexposed e he)

/-- **With nothing on the worklist, what the classes point to is a solution**, but for the
pointees that difference propagation has missed. -/
theorem Steady.solution (hholds : Holds p constraints s) :
    SolutionBeyond p constraints (s.settings.missed p) s.pool.family := by
  have hsolution : SolutionBeyond s.pool constraints (s.settings.missed p) s.pool.family :=
    ⟨hs.sentinel hqueue hholds.unknown, hs.sentinel hqueue hholds.external,
      fun c hc => hs.meets hqueue (hholds.recorded c hc),
      fun o ho hnot hk signature hsig => hs.exposes hqueue ho hnot hk hsig⟩
  exact hsolution.congr hholds.same.symm

end Final
end State

/-- What a run over a pool ends with. -/
structure Outcome (settings : Settings) (p : Pool) (constraints : List Constraint)
    (out : Pool) : Prop where
  same : Pool.SameEntities p out
  ready : out.Ready
  above : out.family.Above p
  solution : SolutionBeyond p constraints (settings.missed p) out.family

/-- **A run over a filled pool** ends in a family that meets the constraints but for the
pointees it has missed, and that lies within every family that meets them but for the
pointees it is sure to miss. -/
theorem solve_outcome (settings : Settings) (order : SetOrder) (hp : p.Ready)
    (hc : ∀ c ∈ constraints, c.Over p) (habove : T.Above p)
    (hT : SolutionBeyond p constraints (settings.spared p) T) :
    ∃ out stats, solve settings order p constraints = .ok (out, stats) ∧
      Outcome settings p constraints out ∧ out.family ≤ T := by
  obtain ⟨s, hseed, hseeding, hsettings, hholds, hwork⟩ := State.seed_ok hp hc habove hT
  obtain ⟨t, hrun, hsteady, hkeeps, hqueue⟩ := hseeding.steady.propagate order hwork.le
  have hholds' := hholds.keep hkeeps
  have hsolution := hsteady.solution hqueue hholds'
  rw [hkeeps.settings_eq, hsettings] at hsolution
  refine ⟨t.pool, t.report, ?_,
    ⟨hholds'.same, hsteady.valid.ready, hsteady.valid.above hp.forest,
    hsolution⟩, fun e o ho => ?_⟩
  · simp only [solve, hseed, hrun, bind, Except.bind]
    rfl
  · rw [← hsteady.valid.below.uniform]
    exact hsteady.valid.below.stored _ o ho

/-- A run over a fresh pool ends in a solution that lies within a given one. -/
theorem solve_within (settings : Settings) (order : SetOrder) (hp : p.Fresh)
    (hc : ∀ c ∈ constraints, c.Over p) (hT : Solution p constraints T) :
    ∃ out stats, solve settings order p constraints = .ok (out, stats) ∧
      Pool.SameEntities p out ∧ out.Forest ∧ Solution p constraints out.family ∧
      (∀ e, ∀ o ∈ out.family e, p.IsObject o) ∧ out.family ≤ T := by
  obtain ⟨out, stats, hok, hout, hle⟩ :=
    solve_outcome settings order hp.ready hc (.of_fresh hp T) (hT.beyond _)
  refine ⟨out, stats, hok, hout.same, hout.ready.forest, ?_, fun e o ho => ?_, hle⟩
  · -- nothing points anywhere at the start, so nothing is missed
    have hmissed : settings.missed p ≤ ⊥ :=
      Settings.missed_le.trans (Family.Above.of_fresh hp ⊥).le
    exact solutionBeyond_bot.1 (hout.solution.mono fun e _ => hmissed e)
  · exact hout.same.isObject_iff.1 (hout.ready.objects ho)

/-- What a run has found lies within every solution. -/
theorem family_le_of_solve {settings : Settings} {order : SetOrder} (hp : p.Fresh)
    (hc : ∀ c ∈ constraints, c.Over p) (hT : Solution p constraints T) {out : Pool}
    {stats : Stats} (hok : solve settings order p constraints = .ok (out, stats)) :
    out.family ≤ T := by
  obtain ⟨out', stats', hok', -, -, -, -, hle⟩ := solve_within settings order hp hc hT
  rw [hok, Except.ok.injEq, Prod.mk.injEq] at hok'
  rw [hok'.1]
  exact hle

/-- The family that points everywhere is a solution, so there always is one. -/
theorem solution_univ (p : Pool) (constraints : List Constraint) :
    Solution p constraints fun _ => Set.univ := by
  have hbinds : ∀ site signature, Family.Binds (fun _ => Set.univ) site signature := by
    intro site signature
    cases signature <;> simp [Family.Binds]
  refine ⟨⟨trivial, ?_, ?_⟩, ⟨trivial, ?_, ?_⟩, fun c _ => ?_, ?_⟩
  case refine_5 => cases c <;> simp [Family.Meets, Family.Loads, Family.Stores, hbinds]
  all_goals simp [Family.Loads, Family.Stores, Family.Exposes]

/-- **Solving by inclusion computes the least solution**, with every strategy and in every
order of the sets, and all it finds are memory objects. -/
theorem solve_isLeast (settings : Settings) (order : SetOrder) (p : Pool) (hp : p.Fresh)
    (constraints : List Constraint) (hc : ∀ c ∈ constraints, c.Over p) :
    ∃ out stats, solve settings order p constraints = .ok (out, stats) ∧
      (∀ e, ∀ o ∈ out.family e, p.IsObject o) ∧
      IsLeast {T | Solution p constraints T} out.family := by
  obtain ⟨out, stats, hok, -, -, hsolution, hobjects, -⟩ :=
    solve_within settings order hp hc (solution_univ p constraints)
  exact ⟨out, stats, hok, hobjects, hsolution, fun T hT => family_le_of_solve hp hc hT hok⟩

/-- Two registers on a subset cycle, an object, and a function with one parameter. -/
def cyclicPool : Pool where
  id := 0
  cells :=
    #[.fresh .unknownMemory "unknown" .synthetic 0,
      .fresh .externalMemory "external" .synthetic 1,
      .fresh .register "a" .synthetic 2, .fresh .register "b" .synthetic 3,
      .fresh .allocaObject "o" .synthetic 4, .fresh .register "x" .synthetic 5,
      { Pool.Cell.fresh .functionObject "f" .synthetic 6 with
        signature := some ⟨[some ⟨0, 5⟩], []⟩ }]
  registers := []
  capacity := none
  rootCount := 7

/-- The cycle points to the object and to the function, which is stored in
the object and called. -/
def cyclicConstraints : List Constraint :=
  [.superset ⟨0, 2⟩ ⟨0, 3⟩, .superset ⟨0, 3⟩ ⟨0, 2⟩, .pointsTo ⟨0, 2⟩ ⟨0, 4⟩,
    .pointsTo ⟨0, 3⟩ ⟨0, 6⟩, .store ⟨0, 2⟩ ⟨0, 3⟩, .call ⟨0, 3⟩ ⟨[some ⟨0, 2⟩], []⟩,
    .escapes ⟨0, 2⟩]

theorem solve_isLeast_cyclicPool :
    cyclicPool.Fresh ∧ (∀ c ∈ cyclicConstraints, c.Over cyclicPool) ∧
    ∃ out stats, solve ⟨true, .lifo, true⟩ .ascending cyclicPool cyclicConstraints =
        .ok (out, stats) ∧ (∀ e, ∀ o ∈ out.family e, cyclicPool.IsObject o) ∧
      IsLeast {T | Solution cyclicPool cyclicConstraints T} out.family :=
  ⟨by decide, by decide,
    solve_isLeast _ _ cyclicPool (by decide) cyclicConstraints (by decide)⟩

end PointerChannels.Inclusion
