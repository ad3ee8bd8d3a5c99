import PointerChannels.Proofs.Inclusion.Differences
import PointerChannels.Proofs.Inclusion.Restrict

/-!
# What can be observed during a run

A run can be observed when it has been seeded and after every root it takes.  From one
observation to the next sets only grow and classes only merge, sets are stored at roots only,
and over an untouched pool no set ever exceeds the least solution.  This holds for every run
for as long as it goes through, whatever its constraints and signatures name.

## Main definitions

* `Constraint.own?` — a constraint without the handles of other pools.
* `Pool.Untouched` — a pool in which nothing has been merged and nothing points anywhere.

## Main statements

* `exists_isLeast_solution` — constraints have a least solution.
* `State.seed_restrict`, `State.Steady.pops_restrict` — a run that goes through, restricted.
* `run_is_monotone` — what can be observed.
-/

namespace PointerChannels

/-! ## The least solution -/

/-- What is in all of some families. -/
def Family.inter (S : Set Family) : Family := fun e => {o | ∀ T ∈ S, o ∈ T e}

theorem Family.inter_le {S : Set Family} {T : Family} (hT : T ∈ S) : Family.inter S ≤ T :=
  fun _ _ ho => ho T hT

/-- Inclusions that hold in all of some families hold in what is in all of them. -/
theorem Family.inter_subset {S : Set Family} {x y : Nat} (h : ∀ T ∈ S, T x ⊆ T y) :
    Family.inter S x ⊆ Family.inter S y :=
  fun _ ho T hT => h T hT (ho T hT)

section Inter

variable {p : Pool} {constraints : List Constraint} {S : Set Family}

theorem Family.loads_inter {value address : Nat} (h : ∀ T ∈ S, T.Loads p value address) :
    (Family.inter S).Loads p value address :=
  fun o ho hk => Family.inter_subset fun T hT => h T hT o (ho T hT) hk

theorem Family.stores_inter {address value : Nat} (h : ∀ T ∈ S, T.Stores p address value) :
    (Family.inter S).Stores p address value :=
  fun o ho hk => Family.inter_subset fun T hT => h T hT o (ho T hT) hk

theorem Family.binds_inter {site : CallSite} {signature : Option Signature}
    (h : ∀ T ∈ S, T.Binds site signature) : (Family.inter S).Binds site signature := by
  cases signature with
  | none =>
      exact ⟨fun x hx => Family.inter_subset fun T hT => (h T hT).1 x hx,
        fun x hx => Family.inter_subset fun T hT => (h T hT).2 x hx⟩
  | some signature =>
      exact ⟨fun i x y hx hy => Family.inter_subset fun T hT => (h T hT).1 i x y hx hy,
        fun i x y hx hy => Family.inter_subset fun T hT => (h T hT).2 i x y hx hy⟩

theorem Family.meets_inter {c : Constraint} (h : ∀ T ∈ S, T.Meets p c) :
    (Family.inter S).Meets p c := by
  cases c with
  | pointsTo pointer pointee => exact h
  | load value address => exact Family.loads_inter h
  | store address value => exact Family.stores_inter h
  | call callee site => exact fun o ho => Family.binds_inter fun T hT => h T hT o (ho T hT)
  | superset whole part => exact Family.inter_subset h
  | external pointer => exact Family.inter_subset h
  | unknown pointer => exact Family.inter_subset h
  | escapes pointer => exact Family.inter_subset h

theorem Family.sentinel_inter {sentinel : Nat} (h : ∀ T ∈ S, T.Sentinel p sentinel) :
    (Family.inter S).Sentinel p sentinel :=
  ⟨fun T hT => (h T hT).mem, Family.loads_inter fun T hT => (h T hT).loads,
    Family.stores_inter fun T hT => (h T hT).stores⟩

/-- **Constraints have a least solution**: what is in all of their solutions. -/
theorem exists_isLeast_solution (p : Pool) (constraints : List Constraint) :
    ∃ L, IsLeast {T | Solution p constraints T} L := by
  refine ⟨Family.inter {T | Solution p constraints T}, ⟨?_, ?_, fun c hc => ?_, ?_⟩,
    fun T hT => Family.inter_le hT⟩
  · exact Family.sentinel_inter fun T hT => hT.unknown
  · exact Family.sentinel_inter fun T hT => hT.external
  · exact Family.meets_inter fun T hT => hT.meets c hc
  · intro o ho hk signature hsig
    have hexposes := fun T (hT : Solution p constraints T) =>
      hT.exposes o (ho T hT) hk signature hsig
    exact ⟨fun x hx => Family.inter_subset fun T hT => (hexposes T hT).1 x hx,
      fun x hx => Family.inter_subset fun T hT => (hexposes T hT).2 x hx⟩

end Inter

/-! ## Constraints without the handles of other pools -/

/-- A constraint without the handles of other pools.  Of a load or a store of an entity of
another pool nothing is left. -/
def Constraint.own? (p : Pool) : Constraint → Option Constraint
  | .load value address => (p.own? value).map (.load · address)
  | .store address value => (p.own? value).map (.store address ·)
  | .call callee site => some (.call callee (site.restrict p))
  | c => some c

/-- Constraints without the handles of other pools. -/
def Pool.ownConstraints (p : Pool) (constraints : List Constraint) : List Constraint :=
  constraints.filterMap (·.own? p)

section Own

variable {p q : Pool} {T : Family} {constraints : List Constraint}

theorem Pool.getElem?_ownOperands {operands : List (Option Handle)} {i : Nat} {h : Handle}
    (hi : (p.ownOperands operands)[i]? = some (some h)) : operands[i]? = some (some h) := by
  simp only [ownOperands, List.getElem?_map, Option.map_eq_some_iff, Option.bind_eq_some_iff,
    own?_eq_some] at hi
  obtain ⟨-, hi, x, rfl, -, rfl⟩ := hi
  exact hi

theorem Family.Binds.restrict {site : CallSite} {signature : Option Signature}
    (h : T.Binds site signature) :
    T.Binds (site.restrict p) (signature.map (·.restrict p)) := by
  cases signature with
  | none =>
      exact ⟨fun x hx => h.1 x (Pool.mem_ownOperands.1 hx).1,
        fun x hx => h.2 x (Pool.mem_ownOperands.1 hx).1⟩
  | some signature =>
      exact ⟨fun i x y hx hy => h.1 i x y (Pool.getElem?_ownOperands hx)
        (Pool.getElem?_ownOperands hy),
        fun i x y hx hy => h.2 i x y (Pool.getElem?_ownOperands hx)
          (Pool.getElem?_ownOperands hy)⟩

theorem Family.Exposes.restrict {signature : Signature} (h : T.Exposes signature) :
    T.Exposes (signature.restrict p) :=
  ⟨fun x hx => h.1 x (Pool.mem_ownOperands.1 hx).1,
    fun x hx => h.2 x (Pool.mem_ownOperands.1 hx).1⟩

theorem Family.Sentinel.restrict {sentinel : Nat} (h : T.Sentinel p sentinel) :
    T.Sentinel (p.restrict q) sentinel where
  mem := h.mem
  loads o ho hk := h.loads o ho (by rwa [Pool.kindOf_restrict] at hk)
  stores o ho hk := h.stores o ho (by rwa [Pool.kindOf_restrict] at hk)

theorem Family.Meets.restrict {c d : Constraint} (h : T.Meets p c) (hd : c.own? p = some d) :
    T.Meets (p.restrict p) d := by
  cases c with
  | load value address =>
      obtain ⟨x, hx, rfl⟩ := Option.map_eq_some_iff.1 hd
      obtain ⟨-, rfl⟩ := Pool.own?_eq_some.1 hx
      exact fun o ho hk => h o ho (by rwa [Pool.kindOf_restrict] at hk)
  | store address value =>
      obtain ⟨x, hx, rfl⟩ := Option.map_eq_some_iff.1 hd
      obtain ⟨-, rfl⟩ := Pool.own?_eq_some.1 hx
      exact fun o ho hk => h o ho (by rwa [Pool.kindOf_restrict] at hk)
  | call callee site =>
      obtain rfl := Option.some_injective _ hd
      intro o ho
      rw [Pool.calleeSignature?_restrict]
      exact (h o ho).restrict
  | _ =>
      obtain rfl := Option.some_injective _ hd
      exact h

/-- Without the handles of other pools less has to be met. -/
theorem Solution.restrict (h : Solution p constraints T) :
    Solution (p.restrict p) (p.ownConstraints constraints) T where
  unknown := h.unknown.restrict
  external := h.external.restrict
  meets d hd := by
    obtain ⟨c, hc, hd⟩ := List.mem_filterMap.1 hd
    exact (h.meets c hc).restrict hd
  exposes o ho hk signature hsig := by
    rw [Pool.kindOf_restrict] at hk
    rw [Pool.signature?_restrict] at hsig
    obtain ⟨whole, hwhole, rfl⟩ := Option.map_eq_some_iff.1 hsig
    exact (h.exposes o ho hk whole hwhole).restrict

namespace Pool

theorem Forest.restrict (h : p.Forest) (base : Pool) : (p.restrict base).Forest :=
  h.congr (view_restrict Cell.place fun _ => rfl) size_restrict

/-- The sentinels are there. -/
structure HasSentinels (p : Pool) : Prop where
  unknown : p.IsObject unknown
  external : p.IsObject external

/-- Without the handles of other pools signatures name entities of the pool. -/
theorem HasSentinels.closed_restrict (hs : p.HasSentinels) : (p.restrict p).Closed where
  unknown_object := isObject_restrict.2 hs.unknown
  external_object := isObject_restrict.2 hs.external
  owns_params hsig hh := by
    rw [signature?_restrict] at hsig
    obtain ⟨signature, -, rfl⟩ := Option.map_eq_some_iff.1 hsig
    exact owns_restrict.2 (mem_ownOperands.1 hh).2
  owns_results hsig hh := by
    rw [signature?_restrict] at hsig
    obtain ⟨signature, -, rfl⟩ := Option.map_eq_some_iff.1 hsig
    exact owns_restrict.2 (mem_ownOperands.1 hh).2

theorem Intact.restrict (hp : p.Intact) (base : Pool) : (p.restrict base).Intact where
  forest := hp.forest.restrict base
  objects ho := by
    rw [stored_restrict] at ho
    exact isObject_restrict.2 (hp.objects ho)
  rooted ho := by
    rw [stored_restrict] at ho
    rw [isRoot_restrict]
    exact hp.rooted ho

/-- Every entity is alone in its class and points to nothing, whatever the signatures name. -/
structure Untouched (p : Pool) : Prop where
  alone : ∀ {i : Nat} {c : Cell}, p.cells[i]? = some c → c.parent = i
  points_nowhere : ∀ {i : Nat} {c : Cell}, p.cells[i]? = some c → c.pointsTo = .empty

theorem Untouched.forest (hp : p.Untouched) : p.Forest where
  parent_lt hc := by
    rw [hp.alone hc]
    exact lt_size_iff.2 ⟨_, hc⟩
  rank_lt hc hne := absurd (hp.alone hc) hne

theorem Untouched.fresh_restrict (hp : p.Untouched) (hs : p.HasSentinels) :
    (p.restrict p).Fresh where
  toClosed := hs.closed_restrict
  alone hc := by
    rw [cells_restrict] at hc
    obtain ⟨cell, hcell, rfl⟩ := Option.map_eq_some_iff.1 hc
    have hparent := hp.alone hcell
    exact hparent
  points_nowhere hc := by
    rw [cells_restrict] at hc
    obtain ⟨cell, hcell, rfl⟩ := Option.map_eq_some_iff.1 hc
    have hempty := hp.points_nowhere hcell
    exact hempty

end Pool
end Own

namespace Inclusion

namespace State

variable {s t : State} {p : Pool} {T : Family} {constraints : List Constraint}

/-! ## Seeding -/

theorem start_restrict (settings : Settings) (p : Pool) :
    (start settings p).restrict p = start settings (p.restrict p) := by
  simp only [restrict, start, Array.map_replicate, Array.map_empty, Pool.size_restrict]
  rfl

theorem seedSentinel_restrict {base : Pool} {sentinel : Nat}
    (hown : base.Owns (s.pool.handle sentinel)) (h : s.seedSentinel sentinel = .ok t) :
    (s.restrict base).seedSentinel sentinel = .ok (t.restrict base) := by
  have hself :
      ∀ values : List Handle, (values ++ [s.pool.handle sentinel]).filterMap base.own? =
      values.filterMap base.own? ++ [s.pool.handle sentinel] := by
    intro values
    rw [List.filterMap_append, List.filterMap_cons_some (Pool.own?_of_owns hown)]
    rfl
  simp only [seedSentinel, bind_eq_ok, pure_eq_ok] at h
  obtain ⟨root, hroot, x, hpointees, y, hlinks, rfl⟩ := h
  have hhandle : (s.insertPointees root [sentinel]).2.pool.handle sentinel =
      s.pool.handle sentinel := (plain_insertPointees s _ _).same.handle_eq sentinel
  simp only [seedSentinel, bind_eq_ok, pure_eq_ok, pool_restrict, Pool.root_restrict,
    Pool.handle_restrict, checkPointees_restrict, check_links_restrict,
    insertPointees_restrict]
  refine ⟨root, hroot, x, hpointees, y, hlinks, ?_⟩
  rw [← push_restrict]
  refine congrArg (fun u : State => u.push root) (modifyLinks_restrict (fun l => ?_) root)
  simp only [Links.restrict, hhandle, hself]

theorem plant_restrict (hs : p.HasSentinels) {settings : Settings} {count : Nat}
    (h : plant settings p count = .ok s) :
    plant settings (p.restrict p) count = .ok (s.restrict p) := by
  have hstart : { start settings (p.restrict p) with
      stats := { (start settings (p.restrict p)).stats with constraints := count } } =
      { start settings p with
        stats := { (start settings p).stats with constraints := count } }.restrict p := by
    rw [← start_restrict]
    rfl
  have hunknown : p.Owns (p.handle Pool.unknown) := Pool.owns_handle hs.unknown.1
  have hexternal : p.Owns (p.handle Pool.external) := Pool.owns_handle hs.external.1
  obtain ⟨u, hu, h⟩ := bind_eq_ok.1 h
  unfold plant
  dsimp only
  rw [hstart]
  refine bind_eq_ok.2 ⟨_, seedSentinel_restrict hunknown hu, seedSentinel_restrict ?_ h⟩
  rw [(plain_seedSentinel hu).same.handle_eq]
  exact hexternal

/-- What a root is asked for, without the handles of other pools. -/
theorem ask_restrict {root : Nat} {loads stores : List Handle} {calls : List Nat} :
    (s.ask root loads stores calls).restrict p =
      (s.restrict p).ask root (loads.filterMap p.own?) (stores.filterMap p.own?) calls := by
  rw [ask, ask, ← push_restrict]
  refine congrArg (fun u : State => u.push root) (modifyLinks_restrict (fun l => ?_) root).symm
  simp only [Links.restrict, List.filterMap_append]

theorem enlist_restrict {root : Nat} {site : CallSite} :
    (s.enlist root site).restrict p = (s.restrict p).enlist root (site.restrict p) := by
  have hsize : (s.restrict p).calls.size = s.calls.size := Array.size_map
  have hlinks : (s.restrict p).modifyLinks root
      (fun l => { l with calls := l.calls ++ [(s.restrict p).calls.size] }) =
      (s.modifyLinks root fun l => { l with calls := l.calls ++ [s.calls.size] }).restrict p :=
    modifyLinks_restrict (fun l => by rw [hsize]; rfl) root
  have hcalls : (s.restrict p).calls.push ⟨site.restrict p, .empty⟩ =
      (s.calls.push ⟨site, .empty⟩).map (·.restrict p) := by
    rw [Array.map_push]
    rfl
  rw [enlist, enlist, ← push_restrict, hlinks, hcalls]
  rfl

/-- A constraint that could be taken in, without the handles of other pools, is about entities
of the pool and is taken in by the restricted state. -/
theorem addConstraint_restrict (hsame : Pool.SameEntities p s.pool) {c d : Constraint}
    (h : s.addConstraint c = .ok t) (hd : c.own? p = some d) :
    (s.restrict p).addConstraint d = .ok (t.restrict p) ∧ d.Over (s.restrict p).pool := by
  have howns : ∀ {x}, s.pool.Owns x → (s.restrict p).pool.Owns x :=
    fun hx => Pool.owns_restrict.2 hx
  have hlinks : ∀ {r}, r < (s.restrict p).links.size ↔ r < s.links.size := by simp [restrict]
  cases c with
  | pointsTo pointer pointee =>
      obtain rfl := Option.some_injective _ hd
      simp only [addConstraint, bind_eq_ok, pool_restrict, Pool.root_restrict,
        Pool.resolveObject_restrict, checkPointees_restrict] at h ⊢
      obtain ⟨root, hroot, object, hobject, x, hcheck, h⟩ := h
      obtain ⟨hpointer, -⟩ := Pool.root_eq_ok.1 hroot
      obtain ⟨hisObject, hpointee⟩ := Pool.resolveObject_eq_ok hobject
      refine ⟨⟨root, hroot, object, hobject, x, hcheck, ?_⟩, howns hpointer, howns ?_, ?_⟩
      · rw [insertPointees_restrict]
        cases hu : s.insertPointees root [object] with
        | mk learnt u =>
            rw [hu] at h
            cases learnt with
            | true =>
                obtain rfl := pure_eq_ok.1 h
                exact congrArg Except.ok (push_restrict root)
            | false =>
                obtain rfl := pure_eq_ok.1 h
                rfl
      · rw [hpointee]
        exact Pool.owns_handle hisObject.1
      · rw [hpointee]
        exact Pool.isObject_restrict.2 hisObject
  | superset whole part =>
      obtain rfl := Option.some_injective _ hd
      obtain ⟨-, hwhole, hpart⟩ := owns_of_addEdge h
      exact ⟨addEdge_restrict h, howns hwhole, howns hpart⟩
  | load value address =>
      obtain ⟨x, hx, rfl⟩ := Option.map_eq_some_iff.1 hd
      obtain ⟨hvalue, rfl⟩ := Pool.own?_eq_some.1 hx
      obtain ⟨root, hroot, hlt, rfl⟩ := addConstraint_load.1 h
      refine ⟨addConstraint_load.2
          ⟨root, (Pool.root_restrict _).trans hroot, hlinks.2 hlt, ?_⟩,
        howns (hsame.owns_iff.2 hvalue), howns (Pool.root_eq_ok.1 hroot).1⟩
      rw [ask_restrict, List.filterMap_cons_some hx]
      rfl
  | store address value =>
      obtain ⟨x, hx, rfl⟩ := Option.map_eq_some_iff.1 hd
      obtain ⟨hvalue, rfl⟩ := Pool.own?_eq_some.1 hx
      obtain ⟨root, hroot, hlt, rfl⟩ := addConstraint_store.1 h
      refine ⟨addConstraint_store.2
          ⟨root, (Pool.root_restrict _).trans hroot, hlinks.2 hlt, ?_⟩,
        howns (Pool.root_eq_ok.1 hroot).1, howns (hsame.owns_iff.2 hvalue)⟩
      rw [ask_restrict, List.filterMap_cons_some hx]
      rfl
  | call callee site =>
      obtain rfl := Option.some_injective _ hd
      obtain ⟨root, hroot, hlt, rfl⟩ := addConstraint_call.1 h
      have hsite : ∀ {x : Handle}, p.Owns x → (s.pool.restrict p).Owns x := fun hx =>
        howns (hsame.owns_iff.2 hx)
      refine ⟨addConstraint_call.2 ⟨root, (Pool.root_restrict _).trans hroot, hlinks.2 hlt,
        enlist_restrict.symm⟩, howns (Pool.root_eq_ok.1 hroot).1,
        fun x hx => hsite (Pool.mem_ownOperands.1 hx).2,
        fun x hx => hsite (Pool.mem_ownOperands.1 hx).2⟩
  | external pointer =>
      obtain rfl := Option.some_injective _ hd
      exact ⟨addEdge_restrict h, howns (owns_of_addEdge h).2.1⟩
  | unknown pointer =>
      obtain rfl := Option.some_injective _ hd
      exact ⟨addEdge_restrict h, howns (owns_of_addEdge h).2.1⟩
  | escapes pointer =>
      obtain rfl := Option.some_injective _ hd
      exact ⟨addEdge_restrict h, howns (owns_of_addEdge h).2.2⟩

theorem same_addConstraint {c : Constraint} (h : s.addConstraint c = .ok t) :
    Pool.SameEntities s.pool t.pool := by
  rcases addConstraint_cases h with ⟨hplain, -⟩ | ⟨callee, site, -, -, rfl⟩
  · exact hplain.same
  · rw [enlist, pool_push]
    exact .refl _

/-- Of a constraint of which nothing is left the restricted state only sees a root put on the
worklist. -/
theorem addConstraint_foreign {c : Constraint} (h : s.addConstraint c = .ok t)
    (hd : c.own? p = none) : ∃ address : Handle, s.pool.Owns address ∧
      t.restrict p = (s.restrict p).ask (s.pool.rootOf address.index) [] [] [] := by
  cases c with
  | load value address =>
      have hvalue : p.own? value = none := Option.map_eq_none_iff.1 hd
      obtain ⟨root, hroot, -, rfl⟩ := addConstraint_load.1 h
      obtain ⟨haddress, rfl, -⟩ := Pool.root_eq_ok.1 hroot
      refine ⟨address, haddress, ?_⟩
      rw [ask_restrict, List.filterMap_cons_none hvalue]
      rfl
  | store address value =>
      have hvalue : p.own? value = none := Option.map_eq_none_iff.1 hd
      obtain ⟨root, hroot, -, rfl⟩ := addConstraint_store.1 h
      obtain ⟨haddress, rfl, -⟩ := Pool.root_eq_ok.1 hroot
      refine ⟨address, haddress, ?_⟩
      rw [ask_restrict, List.filterMap_cons_none hvalue]
      rfl
  | _ => exact absurd hd (Option.some_ne_none _)

/-- Taking in constraints, seen from the restricted state. -/
theorem Seeding.addConstraints_restrict {base : Pool} {pending : Prop}
    {constraints : List Constraint} {s t : State} (hs : Seeding base T pending (s.restrict p))
    (hsame : Pool.SameEntities p s.pool) (hT : ∀ d ∈ p.ownConstraints constraints,
      T.MeetsBeyond (s.restrict p).pool (s.settings.spared base) d)
    (h : constraints.foldlM State.addConstraint s = .ok t) :
    Seeding base T pending (t.restrict p) ∧ Keeps (s.restrict p) (t.restrict p) ∧
      Pool.SameEntities p t.pool ∧
      (t.restrict p).work ≤ (s.restrict p).work + constraints.length ∧
      ∀ d ∈ p.ownConstraints constraints, (t.restrict p).Recorded d := by
  induction constraints generalizing s with
  | nil =>
      obtain rfl := pure_eq_ok.1 h
      exact ⟨hs, .refl _, hsame, le_rfl, by simp [Pool.ownConstraints]⟩
  | cons c rest ih =>
      rw [List.foldlM_cons, bind_eq_ok] at h
      obtain ⟨u, hu, h⟩ := h
      have hseeded : Seeded base T pending (s.restrict p) (u.restrict p) ∧
          ∀ d, c.own? p = some d → (u.restrict p).Recorded d := by
        cases hd : c.own? p with
        | none =>
            obtain ⟨address, haddress, heq⟩ := addConstraint_foreign hu hd
            rw [heq]
            refine ⟨hs.ask ?_ (by simp) (by simp) (by simp), by simp⟩
            have hroot := hs.valid.forest.isRoot_rootOf (Pool.owns_restrict.2 haddress).2
            rwa [pool_restrict, Pool.rootOf_restrict] at hroot
        | some d =>
            obtain ⟨hok, hover⟩ := addConstraint_restrict hsame hu hd
            have hmem : d ∈ p.ownConstraints (c :: rest) :=
              List.mem_filterMap.2 ⟨c, List.mem_cons_self, hd⟩
            obtain ⟨v, hv, hseeded, hrecorded⟩ := hs.addConstraint hover (hT d hmem)
            obtain rfl := Except.ok.inj (hok.symm.trans hv)
            exact ⟨hseeded, fun d' hd' => Option.some_injective _ hd' ▸ hrecorded⟩
      obtain ⟨⟨hseeding, hkeeps, hwork⟩, hrecorded⟩ := hseeded
      have hrest : ∀ d ∈ p.ownConstraints rest,
          T.MeetsBeyond (u.restrict p).pool (u.settings.spared base) d := by
        intro d hd
        obtain ⟨c', hc', hd'⟩ := List.mem_filterMap.1 hd
        have hmeets := hT d (List.mem_filterMap.2 ⟨c', List.mem_cons_of_mem c hc', hd'⟩)
        have hsettings : u.settings = s.settings := hkeeps.settings_eq
        rw [hsettings]
        exact hkeeps.same.meetsBeyond hmeets
      obtain ⟨ht, hkeeps', hsame', hwork', hall⟩ :=
        ih hseeding (hsame.trans (same_addConstraint hu)) hrest h
      refine ⟨ht, hkeeps.trans hkeeps', hsame', ?_, fun d hd => ?_⟩
      · rw [List.length_cons]
        omega
      · obtain ⟨c', hc', hd'⟩ := List.mem_filterMap.1 hd
        rcases List.mem_cons.1 hc' with rfl | hc'
        · exact hkeeps'.recorded (hrecorded d hd')
        · exact hall d (List.mem_filterMap.2 ⟨c', hc', hd'⟩)

/-- **A seeding that went through, restricted**: nothing exceeds a family that meets the
constraints without the handles of other pools. -/
theorem seed_restrict (hp : (p.restrict p).Ready) (hsentinels : p.HasSentinels)
    {settings : Settings} (habove : T.Above (p.restrict p))
    (hT : SolutionBeyond (p.restrict p) (p.ownConstraints constraints)
      (settings.spared (p.restrict p)) T)
    (h : seed settings p constraints = .ok s) :
    Seeding (p.restrict p) T False (s.restrict p) ∧ s.settings = settings ∧
      Holds (p.restrict p) (p.ownConstraints constraints) (s.restrict p) ∧
      Pool.SameEntities p s.pool ∧
      (s.restrict p).work < popBound p.size constraints.length := by
  obtain ⟨s₀, hplant, h⟩ := seed_eq_ok.1 h
  obtain ⟨s₁, hplant', hseeding, hsettings, hholds, hwork⟩ :=
    seeding_plant hp habove hT constraints.length
  obtain rfl := Except.ok.inj ((plant_restrict hsentinels hplant).symm.trans hplant')
  have hsame : Pool.SameEntities p s₀.pool := (plain_plant hplant).same
  have hmeets : ∀ d ∈ p.ownConstraints constraints,
      T.MeetsBeyond (s₀.restrict p).pool (s₀.settings.spared (p.restrict p)) d := by
    intro d hd
    have hs₀ : s₀.settings = settings := hsettings
    rw [hs₀]
    exact hholds.same.meetsBeyond (hT.meets d hd)
  obtain ⟨hs, hkeeps, hsame', hwork', hrecorded⟩ :=
    hseeding.addConstraints_restrict hsame hmeets h
  have hkept := hholds.keep hkeeps
  refine ⟨hs, hkeeps.settings_eq.trans hsettings, ⟨hkept.same, hkept.unknown, hkept.external,
    hrecorded⟩, hsame', ?_⟩
  rw [Pool.size_restrict] at hwork
  rw [popBound]
  omega

/-! ## Taking roots -/

/-- **Roots taken one after the other, restricted.** -/
theorem Steady.pops_restrict {base : Pool} {order : SetOrder} {k : Nat}
    (hs : Steady base T (s.restrict p)) (hown : ∀ x, s.pool.Owns x ↔ p.Owns x)
    (h : Pops order k s t) :
    Steady base T (t.restrict p) ∧ Keeps (s.restrict p) (t.restrict p) ∧
      Pops order k (s.restrict p) (t.restrict p) ∧ ∀ x, t.pool.Owns x ↔ p.Owns x := by
  induction h with
  | zero s => exact ⟨hs, .refl _, .zero _, hown⟩
  | @succ k s t u hqueue hok _ ih =>
      obtain ⟨v, hv, hsteady, hkeeps, -⟩ := hs.step order hqueue
      have hok' : (s.restrict p).step order = .ok (t.restrict p) :=
        step_restrict (fun hh => (hown _).1 hh) hok
      obtain rfl := Except.ok.inj (hok'.symm.trans hv)
      have hown' : ∀ x, t.pool.Owns x ↔ p.Owns x := by
        intro x
        have hkept : (t.restrict p).pool.Owns x ↔ (s.restrict p).pool.Owns x :=
          hkeeps.same.owns_iff
        rw [pool_restrict, pool_restrict, Pool.owns_restrict, Pool.owns_restrict] at hkept
        exact hkept.trans (hown x)
      obtain ⟨hsteady', hkeeps', hpops, hown''⟩ := ih hsteady hown'
      exact ⟨hsteady', hkeeps.trans hkeeps', .succ hqueue hok' hpops, hown''⟩

/-- **What holds of a state that a run is observed in**, seen from the restricted run. -/
theorem steady_of_pops (hp : (p.restrict p).Ready) (hsentinels : p.HasSentinels)
    {settings : Settings} {order : SetOrder} {k : Nat} (habove : T.Above (p.restrict p))
    (hT : SolutionBeyond (p.restrict p) (p.ownConstraints constraints)
      (settings.spared (p.restrict p)) T)
    (hseed : seed settings p constraints = .ok s) (h : Pops order k s t) :
    Steady (p.restrict p) T (t.restrict p) ∧ t.settings = settings ∧
      Holds (p.restrict p) (p.ownConstraints constraints) (t.restrict p) ∧
      ∀ x, t.pool.Owns x ↔ p.Owns x := by
  obtain ⟨hseeding, hsettings, hholds, hsame, -⟩ := seed_restrict hp hsentinels habove hT hseed
  obtain ⟨hsteady, hkeeps, -, hown⟩ :=
    hseeding.steady.pops_restrict (fun _ => hsame.owns_iff) h
  exact ⟨hsteady, hkeeps.settings_eq.trans hsettings, hholds.keep hkeeps, hown⟩

end State

open State

/-- **A run is monotone.**  Between any two states that a run is observed in, sets only grow,
class by class, and classes only merge.  In each of them a set is stored at a root, and if the
run began in an untouched pool, no set exceeds the least solution of the constraints. -/
theorem run_is_monotone (settings : Settings) (order : SetOrder) (p : Pool) (hp : p.Intact)
    (hsentinels : p.HasSentinels) (constraints : List Constraint) {s t u : State} {j k : Nat}
    (hseed : seed settings p constraints = .ok s) (ht : Pops order j s t)
    (hu : Pops order k t u) :
    (∀ e, t.pool.family e ⊆ u.pool.family e) ∧
    (∀ e e', t.pool.rootOf e = t.pool.rootOf e' → u.pool.rootOf e = u.pool.rootOf e') ∧
    (∀ e, u.pool.isRoot e = false → u.pool.stored e = .empty) ∧
    (p.Untouched → ∃ L, IsLeast {T | Solution p constraints T} L ∧ u.pool.family ≤ L) := by
  have hready : (p.restrict p).Ready := ⟨hsentinels.closed_restrict, hp.restrict p⟩
  obtain ⟨hsteady, -, -, hown⟩ := steady_of_pops hready hsentinels (above_univ _)
    ((solution_univ _ _).beyond _) hseed ht
  obtain ⟨hsteady', hkeeps, -, -⟩ := hsteady.pops_restrict hown hu
  refine ⟨fun e o ho => ?_, fun e e' he => ?_, fun e he => ?_, fun huntouched => ?_⟩
  · have hgrows := hkeeps.grows e o
    simp only [pool_restrict, Pool.pointsTo_restrict] at hgrows
    exact hgrows ho
  · have hjoins := hkeeps.joins e e'
    simp only [pool_restrict, Pool.rootOf_restrict] at hjoins
    exact hjoins he
  · refine IndexSet.ext_mem fun o =>
      ⟨fun ho => ?_, fun ho => absurd ho (IndexSet.not_mem_empty o)⟩
    have hroot := hsteady'.valid.rooted e o
    simp only [pool_restrict, Pool.stored_restrict, Pool.isRoot_restrict, he] at hroot
    exact absurd (hroot ho) Bool.false_ne_true
  · obtain ⟨L, hL⟩ := exists_isLeast_solution p constraints
    refine ⟨L, hL, fun e o ho => ?_⟩
    -- the least solution still is one when the handles of other pools are struck out
    obtain ⟨hbelow, -, -, hown'⟩ := steady_of_pops hready hsentinels
      (.of_fresh (huntouched.fresh_restrict hsentinels) L) (hL.1.restrict.beyond _) hseed ht
    have hwithin := (hbelow.pops_restrict hown' hu).1.valid.below
    rw [← hwithin.uniform e]
    refine hwithin.stored _ o ?_
    simp only [pool_restrict, Pool.stored_restrict, Pool.rootOf_restrict]
    exact ho

/-- The third root that is taken closes a cycle, and its two registers become one.  The load
writes to a register of another pool, so this run will fail once the register that it loads
through points somewhere. -/
theorem run_is_monotone_cyclicPool : cyclicPool.Intact ∧ cyclicPool.HasSentinels ∧
    cyclicPool.Untouched ∧ ∃ s t u,
      seed ⟨true, .lifo, true⟩ cyclicPool (.load ⟨9, 3⟩ ⟨0, 5⟩ :: cyclicConstraints) = .ok s ∧
      Pops .ascending 2 s t ∧ Pops .ascending 1 t u ∧ t.pool.rootOf 3 ≠ u.pool.rootOf 3 ∧
      (∀ e, t.pool.family e ⊆ u.pool.family e) ∧
      (∀ e e', t.pool.rootOf e = t.pool.rootOf e' → u.pool.rootOf e = u.pool.rootOf e') ∧
      (∀ e, u.pool.isRoot e = false → u.pool.stored e = .empty) ∧
      ∃ L, IsLeast {T | Solution cyclicPool (.load ⟨9, 3⟩ ⟨0, 5⟩ :: cyclicConstraints) T} L ∧
        u.pool.family ≤ L := by
  have hfresh : cyclicPool.Fresh := by decide
  have hsentinels : cyclicPool.HasSentinels := ⟨by decide, by decide⟩
  have huntouched : cyclicPool.Untouched := ⟨hfresh.alone, hfresh.points_nowhere⟩
  have hrun : (do
      let s ← (seed ⟨true, .lifo, true⟩ cyclicPool
        (.load ⟨9, 3⟩ ⟨0, 5⟩ :: cyclicConstraints)).toOption
      let t₁ ← (s.step .ascending).toOption
      let t₂ ← (t₁.step .ascending).toOption
      let u ← (t₂.step .ascending).toOption
      some (!s.queue.isEmpty && !t₁.queue.isEmpty && !t₂.queue.isEmpty &&
        t₂.pool.rootOf 3 != u.pool.rootOf 3)) = some true := by decide +kernel
  simp only [Option.bind_eq_bind, Option.bind_eq_some_iff, toOption_eq_some, Option.some.injEq,
    Bool.and_eq_true, Bool.not_eq_true', bne_iff_ne, List.isEmpty_eq_false_iff] at hrun
  obtain ⟨s, hseed, t₁, h₁, t, h₂, u, h₃, ⟨⟨hs, ht₁⟩, ht⟩, hmoved⟩ := hrun
  have hst : Pops .ascending 2 s t := .succ hs h₁ (.succ ht₁ h₂ (.zero t))
  have htu : Pops .ascending 1 t u := .succ ht h₃ (.zero u)
  obtain ⟨hgrow, hmerge, hempty, hwithin⟩ := run_is_monotone ⟨true, .lifo, true⟩ .ascending
    cyclicPool hfresh.ready.toIntact hsentinels _ hseed hst htu
  exact ⟨hfresh.ready.toIntact, hsentinels, huntouched, s, t, u, hseed, hst, htu, hmoved,
    hgrow, hmerge, hempty, hwithin huntouched⟩

end Inclusion
end PointerChannels
