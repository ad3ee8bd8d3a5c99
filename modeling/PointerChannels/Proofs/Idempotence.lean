import PointerChannels.Proofs.Inclusion.Differences
import PointerChannels.Proofs.Unification.Congruence

/-!
# Solving again

A solver may be run on a pool that it has already solved.  Such a run begins with the classes
and the sets of the first one, but knows none of its edges, pointee classes or calls.

By unification the second run is idle.  The classes are a congruence already, so whatever
it asks to be merged is in one class, and what it writes out is there.  By inclusion the
second run may still merge classes, since it may find a cycle that the first one did not
look for; but the sets are a solution already, and no run exceeds a solution that lies
above what it began with.

## Main definitions

* `Unification.Solved` — a pool that a run by unification has ended in.
* `Unification.State.Idle` — a state of a run over such a pool.

## Main statements

* `Unification.Solved.solve` — a second run by unification ends in the pool it began in.
* `solve_again_changes_nothing` — both solvers.
-/

namespace PointerChannels

/-- Writing the set that is there. -/
theorem Pool.store_of_stored {p : Pool} {i : Nat} {set : IndexSet} (h : p.stored i = set) :
    p.store i set = p := by
  have hcells : (p.store i set).cells = p.cells := by
    apply Array.ext_getElem?
    intro j
    rw [cells_store]
    cases hj : p.cells[j]? with
    | none => rfl
    | some c =>
        by_cases hij : i = j
        · subst hij
          rw [stored, hj, Option.map_some, Option.getD_some] at h
          rw [Option.map_some, if_pos rfl, ← h]
        · rw [Option.map_some, if_neg hij]
  exact congrArg (fun cells => { p with cells }) hcells

namespace Unification

variable {p out : Pool} {constraints : List Constraint}

/-- A pool with the entities of `p`, whose classes obey constraints over `p` and point where
the constraints lead. -/
structure Solved (p : Pool) (constraints : List Constraint) (out : Pool) : Prop where
  entities : Pool.SameEntities p out
  forest : out.Forest
  congruence : Congruence p constraints out.Same
  mem_pointsTo : ∀ e o, o ∈ out.pointsTo e ↔ p.IsObject o ∧ Leads constraints out.Same e o

/-- A run over a fresh pool solves it. -/
theorem exists_solved (hp : p.Fresh) (hc : ∀ c ∈ constraints, c.Over p) :
    ∃ out stats, solve p constraints = .ok (out, stats) ∧ Solved p constraints out := by
  obtain ⟨-, -, out, stats, -, -, hok, -, hentities, hforest, -⟩ := solve_run hp hc
  obtain ⟨out', stats', hok', hleast, hpoints⟩ := solve_congruence hp hc
  obtain ⟨rfl, rfl⟩ := Prod.mk.inj (Except.ok.inj (hok.symm.trans hok'))
  exact ⟨out, stats, hok, hentities, hforest, hleast.1, hpoints⟩

namespace State

variable {s : State}

/-! ## Nothing is left to merge -/

theorem join_of_same (hforest : s.pool.Forest) {x y : Handle} (hx : s.pool.Owns x)
    (hy : s.pool.Owns y) (h : s.Same x.index y.index) : s.join x y = .ok s := by
  simp only [join, joinFor, hforest.root_ok hx, hforest.root_ok hy, bind, Except.bind]
  exact if_pos h

theorem joinAll_of_same (hforest : s.pool.Forest) {pairs : List (Handle × Handle)}
    (h : ∀ e ∈ pairs, (s.pool.Owns e.1 ∧ s.pool.Owns e.2) ∧ s.Same e.1.index e.2.index) :
    s.joinAll pairs = .ok s := by
  induction pairs with
  | nil => rfl
  | cons e pairs ih =>
      obtain ⟨⟨hx, hy⟩, hsame⟩ := h e List.mem_cons_self
      rw [joinAll, List.foldlM_cons]
      exact bind_eq_ok.2 ⟨s, join_of_same hforest hx hy hsame,
        ih fun e' he' => h e' (List.mem_cons_of_mem e he')⟩

/-- A state of a run over a solved pool: nothing has been merged, and classes point only where
they point in the pool. -/
structure Idle (constraints : List Constraint) (out : Pool) (s : State) : Prop where
  pool_eq : s.pool = out
  forest : s.pool.Forest
  pointee_size : s.pointee.size = s.pool.size
  points : ∀ {r : Nat} {h : Handle}, s.pointeeOf r = some h →
    out.Owns h ∧ Leads constraints out.Same r h.index
  calls : ∀ {c : Nat} {callee : Handle} {site : CallSite}, s.calls[c]? = some (callee, site) →
    .call callee site ∈ constraints

theorem idle_start (constraints : List Constraint) (hforest : out.Forest) :
    (start out).Idle constraints out where
  pool_eq := rfl
  forest := hforest
  pointee_size := Array.size_replicate
  points {r h} hr := by
    simp only [pointeeOf, start, Array.getElem?_replicate] at hr
    split at hr <;> simp at hr
  calls hc := by simp [start] at hc

namespace Idle

theorem root_ok (hs : s.Idle constraints out) {h : Handle} (hown : out.Owns h) :
    s.pool.root h = .ok (s.pool.rootOf h.index) :=
  hs.forest.root_ok (hs.pool_eq ▸ hown)

theorem check_pointee (hs : s.Idle constraints out) {h : Handle} (hown : out.Owns h) :
    checkIndex s.pointee (s.pool.rootOf h.index) = .ok () := by
  refine checkIndex_of_lt ?_
  rw [hs.pointee_size]
  exact hs.forest.rootOf_lt (hs.pool_eq ▸ hown.2)

variable (h : Solved p constraints out) (hs : s.Idle constraints out)

include h hs

/-- A pointer that is said to point to a class points there already, as far as is known. -/
theorem point {pointer target : Handle} (hp : out.Owns pointer) (ht : out.Owns target)
    (haims : Aims constraints pointer.index target.index) :
    ∃ t, s.point pointer target = .ok t ∧ t.Idle constraints out := by
  have hlead : Leads constraints out.Same (out.rootOf pointer.index) target.index :=
    ⟨_, _, h.forest.rootOf_rootOf _, haims, rfl⟩
  simp only [State.point, hs.root_ok hp, hs.check_pointee hp, bind, Except.bind]
  cases hcurrent : s.pointeeOf (s.pool.rootOf pointer.index) with
  | none =>
      refine ⟨_, rfl, hs.pool_eq, hs.forest, (Array.size_modify ..).trans hs.pointee_size,
        fun {r x} hr => ?_, hs.calls⟩
      rw [pointeeOf, Array.getElem?_modify] at hr
      split at hr
      · next hroot =>
          cases hslot : s.pointee[r]? with
          | none => simp [hslot] at hr
          | some slot =>
              obtain rfl : target = x := by simpa [hslot] using hr
              rw [← hroot, hs.pool_eq]
              exact ⟨ht, hlead⟩
      · exact hs.points hr
  | some current =>
      obtain ⟨hown, hcurrent⟩ := hs.points hcurrent
      rw [hs.pool_eq] at hcurrent
      refine ⟨s, join_of_same hs.forest (hs.pool_eq ▸ hown) (hs.pool_eq ▸ ht) ?_, hs⟩
      have hsame : out.Same current.index target.index :=
        h.congruence.leads_unique rfl hcurrent hlead
      rw [State.Same, hs.pool_eq]
      exact hsame

omit h in
/-- Entities of one class have nothing to merge. -/
theorem join {x y : Handle} (hx : out.Owns x) (hy : out.Owns y)
    (hxy : out.Same x.index y.index) : ∃ t, s.join x y = .ok t ∧ t.Idle constraints out := by
  refine ⟨s, join_of_same hs.forest (hs.pool_eq ▸ hx) (hs.pool_eq ▸ hy) ?_, hs⟩
  rw [State.Same, hs.pool_eq]
  exact hxy

theorem joinAll {pairs : List (Handle × Handle)} (hown : ∀ e ∈ pairs, p.Owns e.1 ∧ p.Owns e.2)
    (hsame : ∀ e ∈ pairs, out.Same e.1.index e.2.index) : s.joinAll pairs = .ok s := by
  refine joinAll_of_same hs.forest fun e he => ?_
  rw [State.Same, hs.pool_eq, h.entities.owns_iff, h.entities.owns_iff]
  exact ⟨hown e he, hsame e he⟩

theorem addConstraint (hclosed : p.Closed) {c : Constraint} (hmem : c ∈ constraints)
    (hc : c.Over p) : ∃ t, s.addConstraint c = .ok t ∧ t.Idle constraints out := by
  have hcounted : Idle constraints out { s with
      stats := { s.stats with constraints := s.stats.constraints + 1 } } :=
    { hs with }
  have hunknown : out.Owns (s.pool.handle Pool.unknown) := by
    rw [hs.pool_eq]
    exact Pool.owns_handle (h.entities.isObject_iff.2 hclosed.unknown_object).1
  have hexternal : out.Owns (s.pool.handle Pool.external) := by
    rw [hs.pool_eq]
    exact Pool.owns_handle (h.entities.isObject_iff.2 hclosed.external_object).1
  have howns : ∀ {x : Handle}, p.Owns x → out.Owns x := h.entities.owns_iff.2
  rw [State.addConstraint.eq_def]
  cases c with
  | pointsTo pointer pointee =>
      exact hcounted.point h (howns hc.1) (howns hc.2.1) (.pointsTo hmem)
  | superset whole part =>
      exact hcounted.join (howns hc.1) (howns hc.2) (h.congruence.superset _ _ hmem)
  | load value address => exact hcounted.point h (howns hc.2) (howns hc.1) (.load hmem)
  | store address value => exact hcounted.point h (howns hc.1) (howns hc.2) (.store hmem)
  | call callee site =>
      refine ⟨_, rfl, hs.pool_eq, hs.forest, hs.pointee_size, hs.points,
        fun {i callee' site'} hi => ?_⟩
      rw [Array.getElem?_push] at hi
      split at hi
      · obtain ⟨rfl, rfl⟩ := Prod.mk.inj (Option.some_injective _ hi)
        exact hmem
      · exact hs.calls hi
  | external pointer => exact hcounted.join (howns hc) hexternal (h.congruence.external _ hmem)
  | unknown pointer => exact hcounted.join (howns hc) hunknown (h.congruence.unknown _ hmem)
  | escapes pointer =>
      exact hcounted.join hexternal (howns hc) (h.congruence.escapes _ hmem).symm

/-! ## Nothing is left to bind -/

theorem check {o : Nat} (ho : p.IsObject o) : s.pool.check o = .ok () := by
  refine Pool.check_of_lt ?_
  rw [hs.pool_eq, h.entities.size_eq]
  exact ho.1

/-- What a pointer may refer to, the constraints lead to. -/
theorem candidates {pointer : Handle} (hp : out.Owns pointer) :
    ∃ found, s.candidates out pointer = .ok found ∧
      ∀ o ∈ found, p.IsObject o ∧ Leads constraints out.Same pointer.index o := by
  simp only [State.candidates, hs.root_ok hp, hs.check_pointee hp, bind, Except.bind]
  cases htarget : s.pointeeOf (s.pool.rootOf pointer.index) with
  | none => exact ⟨[], rfl, by simp⟩
  | some target =>
      obtain ⟨hown, hlead⟩ := hs.points htarget
      simp only [hs.root_ok hown, check_members (congrArg Pool.size hs.pool_eq.symm)]
      refine ⟨_, rfl, fun o ho => ?_⟩
      obtain ⟨hobject, hroot⟩ := mem_objects.1 ho
      rw [hs.pool_eq] at hroot hlead
      refine ⟨h.entities.isObject_iff.1 hobject, ?_⟩
      exact h.congruence.leads_of_related (h.forest.rootOf_rootOf _).symm hlead hroot.symm

theorem bindCall (hclosed : p.Closed) {call o : Nat} {callee : Handle} {site : CallSite}
    (hmem : .call callee site ∈ constraints) (hsite : site.Over p) (ho : p.IsObject o)
    (hlead : Leads constraints out.Same callee.index o) :
    ∃ r, s.bindCall call site o = .ok r ∧ r.2.Idle constraints out ∧ r.2.calls = s.calls := by
  have hpairs : callPairs s.externalHandle site (s.pool.calleeSignature? o) =
      callPairs (p.handle Pool.external) site (p.calleeSignature? o) := by
    rw [externalHandle, hs.pool_eq, h.entities.handle_eq, h.entities.calleeSignature?_eq]
  have hshares := h.congruence.call callee site hmem o ho hlead
  have hexternal : (p.handle Pool.external).index = Pool.external := rfl
  rw [State.bindCall]
  split
  · exact ⟨_, rfl, hs, rfl⟩
  · have hcheck : s.pool.check o = .ok () := hs.check h ho
    have hnoted : Idle constraints out { s with
        bound := (call, o) :: s.bound
        stats := { s.stats with callBindings := s.stats.callBindings + 1 } } := { hs with }
    refine ⟨_, bind_eq_ok.2 ⟨(), hcheck, bind_eq_ok.2
      ⟨_, hnoted.joinAll h (fun e he => ?_) fun e he => ?_, rfl⟩⟩, hnoted, rfl⟩
    · exact owns_callPairs hclosed hsite (hpairs ▸ he)
    · exact (shares_iff_callPairs hexternal).1 hshares e (hpairs ▸ he)

theorem expose (hclosed : p.Closed) {o : Nat} (ho : p.IsObject o)
    (hlead : Leads constraints out.Same Pool.external o) :
    ∃ r, s.expose o = .ok r ∧ r.2.Idle constraints out ∧ r.2.calls = s.calls := by
  have hpairs : exposurePairs s.externalHandle (s.pool.signature? o) =
      exposurePairs (p.handle Pool.external) (p.signature? o) := by
    rw [externalHandle, hs.pool_eq, h.entities.handle_eq, h.entities.signature?_eq]
  simp only [State.expose, hs.check h ho, bind, Except.bind]
  split
  · exact ⟨_, rfl, hs, rfl⟩
  · next hskip =>
      have hkind : p.kindOf o = .functionObject := by
        rw [← h.entities.kindOf_eq, ← hs.pool_eq]
        exact not_not.1 (not_or.1 hskip).1
      have hnoted : Idle constraints out { s with exposed := s.exposed.insert o } :=
        { hs with }
      refine ⟨_, bind_eq_ok.2 ⟨_, hnoted.joinAll h (fun e he => ?_) fun e he => ?_, rfl⟩,
        hnoted, rfl⟩
      · exact owns_exposurePairs hclosed (hpairs ▸ he)
      · replace he : e ∈ exposurePairs (p.handle Pool.external) (p.signature? o) := hpairs ▸ he
        cases hsig : p.signature? o with
        | none => simp [hsig, exposurePairs] at he
        | some signature =>
            rw [hsig] at he
            obtain ⟨operand, hmem, rfl⟩ := List.mem_map.1 he
            exact h.congruence.exposed o ho hkind hlead signature hsig operand
              (mem_present.1 hmem)

omit h in
theorem each {objects : List Nat} {act : State → Nat → Except Fault (Bool × State)}
    (hact : ∀ u, u.Idle constraints out → u.calls = s.calls → ∀ o ∈ objects, ∃ r,
      act u o = .ok r ∧ r.2.Idle constraints out ∧ r.2.calls = u.calls) :
    ∃ r, State.each objects act s = .ok r ∧ r.2.Idle constraints out ∧
      r.2.calls = s.calls := by
  obtain ⟨r, hok, hr, -⟩ := foldlM_ok (f := fun (x : Bool × State) o => do
      let r ← act x.2 o
      return (x.1 || r.1, r.2))
    (G := fun x => x.2.Idle constraints out ∧ x.2.calls = s.calls) (R := fun _ _ => True)
    (D := fun _ _ => True) (fun _ => trivial) (fun _ _ => trivial) (fun _ _ => trivial)
    (l := objects)
    (fun x o ho hx => by
      obtain ⟨r, hr, hidle, hcalls⟩ := hact x.2 hx.1 hx.2 o ho
      exact ⟨_, bind_eq_ok.2 ⟨r, hr, rfl⟩, ⟨hidle, hcalls.trans hx.2⟩, trivial, trivial⟩)
    (s := (false, s)) ⟨hs, rfl⟩
  exact ⟨r, hok, hr⟩

theorem resolveCall (hclosed : p.Closed) (hc : ∀ c ∈ constraints, c.Over p) {call : Nat}
    (hcall : call < s.calls.size) :
    ∃ r, s.resolveCall out call = .ok r ∧ r.2.Idle constraints out ∧ r.2.calls = s.calls := by
  obtain ⟨entry, hentry⟩ : ∃ entry, s.calls[call]? = some entry :=
    ⟨_, Array.getElem?_eq_getElem hcall⟩
  have hmem := hs.calls hentry
  obtain ⟨hcallee, hsite⟩ := hc _ hmem
  obtain ⟨found, hfound, hlead⟩ := hs.candidates h (h.entities.owns_iff.2 hcallee)
  have hbinds : ∀ u : State, u.Idle constraints out → u.calls = s.calls → ∀ o ∈ found,
      ∃ r, u.bindCall call entry.2 o = .ok r ∧ r.2.Idle constraints out ∧
        r.2.calls = u.calls :=
    fun u hu _ o ho => hu.bindCall h hclosed hmem hsite (hlead o ho).1 (hlead o ho).2
  obtain ⟨r, hok, hr⟩ := hs.each hbinds
  exact ⟨r, bind_eq_ok.2 ⟨entry, entryAt_eq_ok.2 hentry, bind_eq_ok.2 ⟨found, hfound, hok⟩⟩, hr⟩

theorem round (hclosed : p.Closed) (hc : ∀ c ∈ constraints, c.Over p) :
    ∃ r, s.round = .ok r ∧ r.2.Idle constraints out := by
  have hnoted : Idle constraints out { s with
      stats := { s.stats with rounds := s.stats.rounds + 1 } } := { hs with }
  have hresolves : ∀ u : State, u.Idle constraints out → u.calls = s.calls →
      ∀ call ∈ List.range s.calls.size, ∃ r, u.resolveCall out call = .ok r ∧
        r.2.Idle constraints out ∧ r.2.calls = u.calls :=
    fun u hu hcalls call hmem =>
      hu.resolveCall h hclosed hc (by rw [hcalls]; exact List.mem_range.1 hmem)
  obtain ⟨⟨bound, v⟩, hbind, hv, -⟩ := hnoted.each hresolves
  have hexternal : out.Owns v.externalHandle := by
    rw [externalHandle, hv.pool_eq]
    exact Pool.owns_handle (h.entities.isObject_iff.2 hclosed.external_object).1
  obtain ⟨found, hfound, hlead⟩ := hv.candidates h hexternal
  obtain ⟨⟨exposed, w⟩, hexpose, hw, -⟩ := hv.each fun u hu _ o ho =>
    hu.expose h hclosed (hlead o ho).1 (hlead o ho).2
  refine ⟨(bound || exposed, w), ?_, hw⟩
  rw [← hs.pool_eq] at hbind hfound
  exact bind_eq_ok.2 ⟨(), hs.forest.checkClasses_ok, bind_eq_ok.2 ⟨_, hbind,
    bind_eq_ok.2 ⟨_, hfound, bind_eq_ok.2 ⟨_, hexpose, rfl⟩⟩⟩⟩

omit hs in
/-- **Rounds leave an idle run idle.** -/
theorem resolveFor (hclosed : p.Closed) (hc : ∀ c ∈ constraints, c.Over p) (bound : Nat) :
    ∀ {s : State}, s.Idle constraints out →
      ∃ t, State.resolveFor bound s = .ok t ∧ t.Idle constraints out := by
  induction bound with
  | zero => exact fun {s} hs => ⟨s, rfl, hs⟩
  | succ bound ih =>
      intro s hs
      obtain ⟨⟨changed, u⟩, hround, hu⟩ := hs.round h hclosed hc
      rw [State.resolveFor]
      cases changed with
      | true =>
          obtain ⟨t, hok, ht⟩ := ih hu
          exact ⟨t, bind_eq_ok.2 ⟨_, hround, hok⟩, ht⟩
      | false => exact ⟨u, bind_eq_ok.2 ⟨_, hround, rfl⟩, hu⟩

/-! ## Nothing is left to write -/

/-- What is written out at a root is there. -/
theorem materialize : ∃ t, s.materialize = .ok t ∧ t.pool = out := by
  simp only [State.materialize, hs.forest.checkClasses_ok, bind, Except.bind]
  refine (foldlM_ok (G := fun written : State => written.pool = out) (R := fun _ _ => True)
    (D := fun _ _ => True) (fun _ => trivial) (fun _ _ => trivial) (fun _ _ => trivial) ?round
    hs.pool_eq).imp fun t ht => ⟨ht.1, ht.2.1⟩
  case round =>
    intro written r hr hpool
    obtain ⟨hindex, hisRoot⟩ := List.mem_filter.1 hr
    have hcheck : checkIndex s.pointee r = .ok () :=
      checkIndex_of_lt (hs.pointee_size ▸ List.mem_range.1 hindex)
    simp only [writeClass, hcheck, bind, Except.bind]
    cases htarget : s.pointeeOf r with
    | none => exact ⟨written, rfl, hpool, trivial, trivial⟩
    | some target =>
        obtain ⟨hown, hlead⟩ := hs.points htarget
        rw [hs.pool_eq] at hisRoot
        have hroot : out.rootOf r = r := Pool.rootOf_of_isRoot hisRoot
        have hstored :
            out.stored r = .ofList (objects s.pool (s.pool.rootOf target.index)) := by
          refine IndexSet.ext_mem fun o => ?_
          have hpoints := h.mem_pointsTo r o
          rw [Pool.pointsTo, hroot] at hpoints
          rw [hpoints, IndexSet.mem_ofList, mem_objects, hs.pool_eq, h.entities.isObject_iff]
          refine and_congr_right fun _ => ⟨fun ho => ?_, fun ho => ?_⟩
          · exact (h.congruence.leads_unique rfl hlead ho).symm
          · exact h.congruence.leads_of_related rfl hlead ho.symm
        have hwritten : written.pool.checkRoot r = .ok () :=
          Pool.checkRoot_of_isRoot (hpool ▸ hisRoot)
        simp only [hs.root_ok hown, check_members rfl, hwritten]
        refine ⟨_, rfl, ?_, trivial, trivial⟩
        show written.pool.store r _ = out
        rw [hpool, Pool.store_of_stored hstored]

end Idle
end State

/-- **A second run by unification ends in the pool it began in.** -/
theorem Solved.solve (h : Solved p constraints out) (hclosed : p.Closed)
    (hc : ∀ c ∈ constraints, c.Over p) :
    ∃ stats, solve out constraints = .ok (out, stats) := by
  have hunknown : out.Owns (out.handle Pool.unknown) :=
    Pool.owns_handle (h.entities.isObject_iff.2 hclosed.unknown_object).1
  have hexternal : out.Owns (out.handle Pool.external) :=
    Pool.owns_handle (h.entities.isObject_iff.2 hclosed.external_object).1
  have hstart : (State.start out).Idle constraints out := State.idle_start constraints h.forest
  obtain ⟨s₁, hok₁, hs₁⟩ := hstart.point h hunknown hunknown .unknown
  obtain ⟨s₂, hok₂, hs₂⟩ := hs₁.point h hexternal hexternal .external
  obtain ⟨s₃, hok₃, hs₃, -⟩ := foldlM_ok (f := State.addConstraint)
    (G := fun u : State => u.Idle constraints out) (R := fun _ _ => True)
    (D := fun _ _ => True) (fun _ => trivial) (fun _ _ => trivial) (fun _ _ => trivial)
    (l := constraints) (fun u c hmem hu => by
      obtain ⟨v, hv, hidle⟩ := hu.addConstraint h hclosed hmem (hc c hmem)
      exact ⟨v, hv, hidle, trivial, trivial⟩) hs₂
  have hseed : State.seed out constraints = .ok s₃ :=
    bind_eq_ok.2 ⟨s₁, hok₁, bind_eq_ok.2 ⟨s₂, hok₂, hok₃⟩⟩
  obtain ⟨s₄, hok₄, hs₄⟩ := State.Idle.resolveFor h hclosed hc
    (s₃.calls.size * s₃.pool.size + s₃.pool.size + 1) hs₃
  obtain ⟨s₅, hok₅, hpool⟩ := hs₄.materialize h
  refine ⟨{ s₅.stats with classes := s₅.pool.rootCount }, ?_⟩
  refine bind_eq_ok.2 ⟨s₃, hseed, bind_eq_ok.2 ⟨s₄, hok₄, bind_eq_ok.2 ⟨s₅, hok₅, ?_⟩⟩⟩
  rw [hpool]
  rfl

end Unification

namespace Inclusion

variable {p : Pool} {constraints : List Constraint}

/-- A run over a pool whose sets are a solution leaves the sets as they are, and the
classes at least as large. -/
theorem solve_of_solution (settings : Settings) (order : SetOrder) (hp : p.Ready)
    (hc : ∀ c ∈ constraints, c.Over p) (hsolution : Solution p constraints p.family) :
    ∃ out stats, solve settings order p constraints = .ok (out, stats) ∧
      (∀ e, out.pointsTo e = p.pointsTo e) ∧ ∀ i j, p.Same i j → out.Same i j := by
  have habove : p.family.Above p :=
    ⟨le_rfl, fun i => by simp only [Pool.family, Pool.pointsTo, hp.forest.rootOf_rootOf]⟩
  obtain ⟨s, hseed, hseeding, -, -, hwork⟩ := State.seed_ok hp hc habove
    (hsolution.beyond (settings.spared p))
  obtain ⟨t, hrun, hsteady, -, -⟩ := hseeding.steady.propagate order hwork.le
  refine ⟨t.pool, t.report, bind_eq_ok.2 ⟨s, hseed, bind_eq_ok.2 ⟨t, hrun, rfl⟩⟩, fun e => ?_,
    hsteady.valid.joins⟩
  refine IndexSet.ext_mem fun o => ⟨fun ho => ?_, hsteady.valid.grows e o⟩
  have hwithin := hsteady.valid.below.stored _ o ho
  rwa [hsteady.valid.below.uniform] at hwithin

end Inclusion

/-- **Solving again changes nothing.**  By unification a second run over the solved pool ends
in that very pool.  By inclusion a second run, with whatever strategy and order of the sets,
leaves every set as it is, and what was in one class stays in one. -/
theorem solve_again_changes_nothing (p : Pool) (hp : p.Fresh) (constraints : List Constraint)
    (hc : ∀ c ∈ constraints, c.Over p) :
    (∃ out stats again, Unification.solve p constraints = .ok (out, stats) ∧
      Unification.solve out constraints = .ok (out, again)) ∧
    ∀ (settings settings' : Inclusion.Settings) (order order' : Inclusion.SetOrder),
      ∃ out stats out' again, Inclusion.solve settings order p constraints = .ok (out, stats) ∧
        Inclusion.solve settings' order' out constraints = .ok (out', again) ∧
        (∀ e, out'.pointsTo e = out.pointsTo e) ∧ ∀ i j, out.Same i j → out'.Same i j := by
  refine ⟨?_, fun settings settings' order order' => ?_⟩
  · obtain ⟨out, stats, hok, hsolved⟩ := Unification.exists_solved hp hc
    obtain ⟨again, hok'⟩ := hsolved.solve hp.toClosed hc
    exact ⟨out, stats, again, hok, hok'⟩
  · obtain ⟨out, stats, hok, hsame, -, hsolution, -⟩ :=
      Inclusion.solve_within settings order hp hc (Inclusion.solution_univ p constraints)
    have hready := (Inclusion.outcome_of_solve hp.ready hc hok).ready
    obtain ⟨out', again, hok', hsets, hclasses⟩ :=
      Inclusion.solve_of_solution settings' order' hready
        (fun c hmem => hsame.constraintOver (hc c hmem)) (hsolution.congr hsame)
    exact ⟨out, stats, out', again, hok, hok', hsets, hclasses⟩

/-- The first run does not collapse the cycle of two registers, the second one does. -/
theorem solve_again_changes_nothing_cyclicPool : Inclusion.cyclicPool.Fresh ∧
    (∀ c ∈ Inclusion.cyclicConstraints, c.Over Inclusion.cyclicPool) ∧
    (∃ out stats again,
      Unification.solve Inclusion.cyclicPool Inclusion.cyclicConstraints = .ok (out, stats) ∧
      Unification.solve out Inclusion.cyclicConstraints = .ok (out, again)) ∧
    ∃ out stats out' again,
      Inclusion.solve ⟨false, .fifo, true⟩ .ascending Inclusion.cyclicPool
        Inclusion.cyclicConstraints = .ok (out, stats) ∧
      Inclusion.solve ⟨true, .lifo, false⟩ .ascending out Inclusion.cyclicConstraints =
        .ok (out', again) ∧
      (∀ e, out'.pointsTo e = out.pointsTo e) ∧ ¬ out.Same 2 3 ∧ out'.Same 2 3 := by
  have hrun : (do
      let first ← (Inclusion.solve ⟨false, .fifo, true⟩ .ascending Inclusion.cyclicPool
        Inclusion.cyclicConstraints).toOption
      let second ← (Inclusion.solve ⟨true, .lifo, false⟩ .ascending first.1
        Inclusion.cyclicConstraints).toOption
      some (first.1.rootOf 2 != first.1.rootOf 3 &&
        second.1.rootOf 2 == second.1.rootOf 3)) = some true := by decide +kernel
  simp only [Option.bind_eq_bind, Option.bind_eq_some_iff, toOption_eq_some, Option.some.injEq,
    Bool.and_eq_true, bne_iff_ne, beq_iff_eq] at hrun
  obtain ⟨⟨first, stats₁⟩, hfirst, ⟨second, stats₂⟩, hsecond, happart, hmerged⟩ := hrun
  obtain ⟨hunification, hinclusion⟩ :=
    solve_again_changes_nothing Inclusion.cyclicPool (by decide)
    Inclusion.cyclicConstraints (by decide)
  obtain ⟨out, stats, out', again, hok, hok', hsets, -⟩ :=
    hinclusion ⟨false, .fifo, true⟩ ⟨true, .lifo, false⟩ .ascending .ascending
  obtain ⟨rfl, rfl⟩ := Prod.mk.inj (Except.ok.inj (hfirst.symm.trans hok))
  obtain ⟨rfl, rfl⟩ := Prod.mk.inj (Except.ok.inj (hsecond.symm.trans hok'))
  exact ⟨by decide, by decide, hunification, first, stats₁, second, stats₂, hok, hok',
    hsets, happart, hmerged⟩

end PointerChannels
