import PointerChannels.Proofs.Inclusion.Tally

/-!
# Difference propagation loses no work

With difference propagation a root that is taken off the worklist looks only at the pointees
that are fresh.  All others must have been looked at before: they have flowed along the edges
of the root, its loads, stores and calls have been met for them, and functions among them are
exposed if the root is that of external memory.  Nothing enforces this.  A new edge carries the
whole set at once, a collapsed cycle makes the survivor's whole set fresh and leaves the
remaining edges of the root that was taken alone, and the lists of a merged class name entities
that are no roots any more.

That what is settled has been handled and has flowed is known of the run without the handles of
other pools.  What is added here is that where something has been handled no handle was struck
out, because a run that meets a handle of another pool fails.

## Main definitions

* `State.Native` — where something is settled, what was met for it names entities of the pool.
* `State.Bookkept` — the fresh pointees are all that is left to do.

## Main statements

* `State.Native.step`, `State.Native.pops` — taking roots never meets a handle of another pool.
* `fresh_is_all_that_is_left` — the books of a run are right whenever it can be observed.
-/

namespace PointerChannels.Inclusion

namespace State

variable {s t u : State} {r : Nat}

/-! ## Making edges in a state that may hold handles of other pools -/

/-- The classes are a forest, every entity has its links, and edges lead to entities. -/
structure Laid (s : State) : Prop where
  forest : s.pool.Forest
  links_size : s.links.size = s.pool.size
  supersets_lt : ∀ r x, x ∈ (s.linksAt r).supersets → x < s.pool.size

theorem Laid.widens (hs : s.Laid) (h : Widens s t)
    (hlt : ∀ r x, x ∈ (t.linksAt r).supersets → x < s.pool.size) : t.Laid where
  forest := h.forest hs.forest
  links_size := by rw [h.links_size, hs.links_size, h.same.size_eq]
  supersets_lt r x hx := h.same.size_eq ▸ hlt r x hx

/-- What a state is after edges were made. -/
structure Wired (s t : State) (edges : List (Handle × Handle)) : Prop where
  laid : t.Laid
  ext : Extends s t
  calls_eq : t.calls = s.calls
  exposed_eq : t.exposed = s.exposed
  linked : t.Linked edges

theorem Laid.link (hs : s.Laid) {sup sub : Nat} (hsup : s.pool.isRoot sup = true)
    (hsub : s.pool.isRoot sub = true) : (s.link sup sub).Laid := by
  refine hs.widens (plain_link s sup sub).toWidens fun r x hx => ?_
  by_cases htriv : sup = sub ∨ sup ∈ (s.linksAt sub).supersets
  · rw [State.link, if_pos htriv] at hx
    exact hs.supersets_lt r x hx
  · obtain ⟨hne, hnew⟩ := not_or.1 htriv
    have hprimed := primed_beforeLink hsup hsub (hs.links_size ▸ Pool.lt_size_of_isRoot hsup)
    have hlt : sub < (s.beforeLink sup sub).links.size := by
      rw [hprimed.links_size, hs.links_size]
      exact Pool.lt_size_of_isRoot hsub
    rw [(agrees_link hne hnew).linksAt_eq, mem_supersets_addSuperset hlt,
      hprimed.supersets_eq] at hx
    rcases hx with hx | ⟨-, rfl⟩
    · exact hs.supersets_lt r x hx
    · exact Pool.lt_size_of_isRoot hsup

theorem Laid.addEdge (hs : s.Laid) {sup sub : Handle} (h : s.addEdge sup sub = .ok t) :
    Wired s t [(sup, sub)] := by
  simp only [State.addEdge, bind_eq_ok, pure_eq_ok, Pool.root_eq_ok] at h
  obtain ⟨-, ⟨hsup, rfl, -⟩, -, ⟨hsub, rfl, -⟩, -, -, rfl⟩ := h
  have hroot := hs.forest.isRoot_rootOf hsup.2
  have hroot' := hs.forest.isRoot_rootOf hsub.2
  obtain ⟨hext, hcalls, hexposed, hedge⟩ := extends_link hroot hroot' hs.links_size
  refine ⟨hs.link hroot hroot', hext, hcalls, hexposed, fun e he => ?_⟩
  rw [List.mem_singleton] at he
  subst he
  exact hedge.of_roots hs.forest hext.rootOf_eq

theorem Laid.addEdges (hs : s.Laid) {edges : List (Handle × Handle)}
    (h : s.addEdges edges = .ok t) : Wired s t edges := by
  obtain ⟨hlaid, ⟨hext, hcalls, hexposed⟩, hlinked⟩ := foldlM_of_ok (G := Laid)
    (R := fun u v => Extends u v ∧ v.calls = u.calls ∧ v.exposed = u.exposed)
    (D := fun (e : Handle × Handle) u => u.HasEdge e.2.index e.1.index)
    (fun u => ⟨.refl u, rfl, rfl⟩)
    (fun h h' => ⟨h.1.trans h'.1, h'.2.1.trans h.2.1, h'.2.2.trans h.2.2⟩)
    (fun h h' => h'.1.hasEdge _ _ h)
    (fun u v e _ hu hok => by
      have hwired := hu.addEdge hok
      exact ⟨hwired.laid, ⟨hwired.ext, hwired.calls_eq, hwired.exposed_eq⟩,
        hwired.linked e (List.mem_singleton_self e)⟩) hs h
  exact ⟨hlaid, hext, hcalls, hexposed, hlinked⟩

/-! ## What follows within a step -/

/-- A later state that is laid out like a state of a run, in which what was bound and exposed
has its edges and nothing was settled that was not. -/
structure Proceeds (s t : State) : Prop where
  laid : t.Laid
  obliged : t.Obliged
  follows : Follows s t

theorem Proceeds.refl (hs : s.Laid) (ho : s.Obliged) : Proceeds s s := ⟨hs, ho, .refl s⟩

theorem Proceeds.trans (h : Proceeds s t) (h' : Proceeds t u) : Proceeds s u :=
  ⟨h'.laid, h'.obliged, h.follows.trans h'.follows⟩

theorem Wired.proceeds {edges : List (Handle × Handle)} (h : Wired s t edges)
    (ho : s.Obliged) : Proceeds s t :=
  ⟨h.laid, h.ext.obliged ho (fun hc => .inl (h.calls_eq ▸ hc)) h.exposed_eq, h.ext.toFollows⟩

theorem Agrees.proceeds (h : Agrees s t) (hs : s.Laid) (ho : s.Obliged) : Proceeds s t where
  laid :=
    ⟨h.pool_eq ▸ hs.forest, by rw [h.links_eq, h.pool_eq, hs.links_size], fun r x hx => by
    rw [h.linksAt_eq] at hx
    exact h.pool_eq ▸ hs.supersets_lt r x hx⟩
  obliged := ho.congr h
  follows := h.extends_.toFollows

theorem Laid.bindCall (hs : s.Laid) (ho : s.Obliged) {call callee : Nat}
    (h : s.bindCall call callee = .ok t) : Proceeds s t := by
  obtain ⟨entry, hentry, ⟨-, rfl⟩ | ⟨-, -, h⟩⟩ := bindCall_eq_ok.1 h
  · exact .refl hs ho
  · have hnoted : (s.noteBound call callee).Laid := ⟨hs.forest, hs.links_size, hs.supersets_lt⟩
    have hwired := hnoted.addEdges h
    exact ⟨hwired.laid, ho.noteBound hentry hwired.ext hwired.calls_eq hwired.exposed_eq
      hwired.linked, ((extends_noteBound s call callee).trans hwired.ext).toFollows⟩

theorem Laid.expose (hs : s.Laid) (ho : s.Obliged) {object : Nat}
    (h : s.expose object = .ok t) : Proceeds s t := by
  obtain ⟨-, ⟨-, rfl⟩ | ⟨-, -, h⟩⟩ := expose_eq_ok.1 h
  · exact .refl hs ho
  · have hnoted : (s.noteExposed object).Laid := ⟨hs.forest, hs.links_size, hs.supersets_lt⟩
    have hwired := hnoted.addEdges h
    exact ⟨hwired.laid,
      ho.noteExposed hwired.ext hwired.calls_eq hwired.exposed_eq hwired.linked,
      ((extends_noteExposed s object).trans hwired.ext).toFollows⟩

theorem Laid.conditionals (hs : s.Laid) (ho : s.Obliged) {pointees : List Nat}
    (h : s.conditionals r pointees = .ok t) : Proceeds s t :=
  conditionals_induction (P := Proceeds s)
    (fun _ _ _ hu hok => hu.trans ((hu.laid.addEdges hok).proceeds hu.obliged))
    (fun _ _ _ _ _ _ hu hok => hu.trans (hu.laid.bindCall hu.obliged hok))
    (fun _ _ _ _ _ _ _ hu hok => hu.trans (hu.laid.expose hu.obliged hok)) (.refl hs ho) h

theorem Laid.learn (hs : s.Laid) (ho : s.Obliged) {root : Nat}
    (hroot : s.pool.isRoot root = true) (objects : List Nat) :
    Proceeds s (s.learn root objects) := by
  have hlt := Pool.lt_size_of_isRoot hroot
  have hlinks : root < s.links.size := hs.links_size ▸ hlt
  have htold := told_learn hlt hlinks objects
  have hext : Extends s (s.learn root objects) := extends_learn hroot hlinks
  refine ⟨⟨htold.forest hs.forest, ?_, fun r x hx => ?_⟩,
    hext.obliged ho (fun hc => .inl (htold.calls_eq ▸ hc)) htold.exposed_eq, hext.toFollows⟩
  · rw [htold.links_size, hs.links_size, htold.same.size_eq]
  · rw [htold.supersets_eq] at hx
    exact htold.same.size_eq ▸ hs.supersets_lt r x hx

theorem Laid.unifyRoots (hs : s.Laid) (ho : s.Obliged) {a b survivor : Nat}
    (h : s.unifyRoots a b = .ok (survivor, t)) : Proceeds s t := by
  obtain ⟨loser, hsurvivor, hne, hunified⟩ := unified_of_unifyRoots hs.forest hs.links_size h
  have hfollows := hunified.follows hsurvivor hne
  refine ⟨⟨hunified.joined.forest, ?_, fun r x hx => ?_⟩, hfollows.obliged ho
    (fun hc => .inl (hunified.calls_eq ▸ hc)) hunified.exposed_eq, hfollows⟩
  · rw [hunified.links_size, hs.links_size, hfollows.same.size_eq]
  · rw [hfollows.same.size_eq]
    by_cases hl : r = loser
    · rw [hl, hunified.linksAt_loser] at hx
      exact absurd hx (IndexSet.not_mem_empty x)
    by_cases hr : r = survivor
    · rw [hr] at hx
      exact (hunified.mem_supersets.1 hx).2.elim (hs.supersets_lt _ x) (hs.supersets_lt _ x)
    · rw [hunified.linksAt_other r hl hr] at hx
      exact hs.supersets_lt r x hx

theorem Laid.flowAll (hs : s.Laid) (ho : s.Obliged) {root : Nat} {pointees rest : List Nat}
    (hrest : ∀ x ∈ rest, x < s.pool.size) (h : flowAll root pointees rest s = .ok t) :
    Proceeds s t := by
  refine flowAll_induction (P := Proceeds s) (fun u detector hu => ?_)
    (fun _ _ _ _ _ hu hok => hu.trans (hu.laid.unifyRoots hu.obliged hok))
    (fun u v x hx learnt hu _ hagrees => ?_) (.refl hs ho) h
  · have hagrees : Agrees u { u with detector } := ⟨rfl, rfl, rfl, rfl, rfl, rfl⟩
    exact hu.trans (hagrees.proceeds hu.laid hu.obliged)
  · have hroot := hu.laid.forest.isRoot_rootOf (hu.follows.same.lt_size_iff.2 (hrest x hx))
    have hlearnt := hu.laid.learn hu.obliged hroot learnt
    exact (hu.trans hlearnt).trans (hagrees.proceeds hlearnt.laid hlearnt.obliged)

/-! ## What has been met names entities of the pool -/

/-- The values stored and loaded through a root are entities of the pool. -/
structure OwnsThrough (s : State) (r : Nat) : Prop where
  stores : ∀ v ∈ (s.linksAt r).stores, s.pool.Owns v
  loads : ∀ v ∈ (s.linksAt r).loads, s.pool.Owns v

/-- What was bound and exposed has its edges, and where data is settled, what is stored and
loaded through the root are entities of the pool; but for pointees that are skipped. -/
structure Native (skip : Nat → Nat → Prop) (s : State) : Prop where
  laid : s.Laid
  obliged : s.Obliged
  owns : ∀ r o, s.Settled r o → ¬ skip r o → s.pool.kindOf o ≠ .functionObject →
    s.OwnsThrough r

theorem Proceeds.native (h : Proceeds s t) {skip : Nat → Nat → Prop} (hs : s.Native skip) :
    t.Native skip := by
  refine ⟨h.laid, h.obliged, fun r o ho hskip hk => ?_⟩
  obtain ⟨hso, -, hloads, hstores, -, -⟩ := h.follows.settled r o ho
  rw [h.follows.same.kindOf_eq] at hk
  obtain ⟨hs', hl'⟩ := hs.owns r o hso hskip hk
  exact ⟨fun v hv => h.follows.same.owns_iff.2 (hs' v (hstores ▸ hv)),
    fun v hv => h.follows.same.owns_iff.2 (hl' v (hloads ▸ hv))⟩

/-- Edges between data and values could be made, so the values are entities of the pool. -/
theorem owns_of_through (edge : State → Handle → Nat → Handle × Handle) {values : List Handle}
    {data : List Nat} {o : Nat} (ho : o ∈ data)
    (hedge : ∀ u v, v = (edge u v o).1 ∨ v = (edge u v o).2)
    (h : values.foldlM (fun u v => u.addEdges (data.map (edge u v))) s = .ok t) :
    Pool.SameEntities s.pool t.pool ∧ ∀ v ∈ values, s.pool.Owns v := by
  obtain ⟨hsame, -, howns⟩ :=
    foldlM_of_ok (G := fun u : State => Pool.SameEntities s.pool u.pool)
      (R := fun _ _ => True) (D := fun v _ => s.pool.Owns v) (fun _ => trivial)
      (fun _ _ => trivial) (fun h _ => h)
      (fun u w v _ hu hok => by
        obtain ⟨hsame, howned⟩ := owns_of_addEdges hok
        obtain ⟨h₁, h₂⟩ := howned _ (List.mem_map_of_mem ho)
        refine ⟨hu.trans hsame, trivial, hu.owns_iff.1 ?_⟩
        rcases hedge u v with hv | hv
        · exact hv ▸ h₁
        · exact hv ▸ h₂) (.refl _) h
  exact ⟨hsame, howns⟩

theorem ownsThrough_of_conditionals {pointees : List Nat}
    (h : s.conditionals r pointees = .ok t) {o : Nat} (ho : o ∈ pointees)
    (hk : s.pool.kindOf o ≠ .functionObject) : s.OwnsThrough r := by
  simp only [conditionals, bind_eq_ok] at h
  obtain ⟨-, -, -, -, u, hstores, v, hloads, -⟩ := h
  have hdata : o ∈ pointees.filter fun o => s.pool.kindOf o ≠ .functionObject :=
    List.mem_filter.2 ⟨ho, decide_eq_true hk⟩
  obtain ⟨hsame, hs⟩ := owns_of_through (fun u v o => (u.pool.handle o, v)) hdata
    (fun _ _ => .inr rfl) hstores
  obtain ⟨-, hl⟩ := owns_of_through (fun u v o => (v, u.pool.handle o)) hdata
    (fun _ _ => .inl rfl) hloads
  exact ⟨hs, fun v hv => hsame.owns_iff.1 (hl v hv)⟩

/-- Once a root was taken, only the pointees that waited there may have to
do with another pool. -/
theorem Native.take (hs : s.Native fun _ _ => False) {next : Nat} {queue : List Nat}
    (stats : Stats) (hpop : s.queue.Perm (next :: queue))
    (hlinks : s.pool.rootOf next < s.links.size) :
    (s.take (s.pool.rootOf next) queue stats).Native
      fun r o => r = s.pool.rootOf next ∧ o ∈ s.waiting (s.pool.rootOf next) := by
  have hat : ∀ r, (s.take (s.pool.rootOf next) queue stats).linksAt r = _ :=
    linksAt_take hlinks
  refine ⟨⟨by rw [pool_take]; exact hs.laid.forest, ?_, fun r x hx => ?_⟩, ?_,
    fun r o ho hnew hk => ?_⟩
  · rw [size_links_take, pool_take, hs.laid.links_size]
  · rw [hat] at hx
    rw [pool_take]
    exact hs.laid.supersets_lt r x hx
  · exact (keeps_take hlinks).obliged hs.obliged (fun h => .inl (by rwa [calls_take] at h))
      exposed_take
  · rw [pool_take] at hk
    have hso : s.Settled r o :=
      settled_take hpop rfl hlinks ho fun ⟨hr, hw⟩ => hnew ⟨hr, hr ▸ hw⟩
    obtain ⟨hstores, hloads⟩ := hs.owns r o hso not_false hk
    refine ⟨fun v hv => ?_, fun v hv => ?_⟩
    · rw [hat] at hv
      rw [pool_take]
      exact hstores v hv
    · rw [hat] at hv
      rw [pool_take]
      exact hloads v hv

/-- **Taking a root never meets a handle of another pool.** -/
theorem Native.step {order : SetOrder} (hs : s.Native fun _ _ => False)
    (hqueue : ∀ e ∈ s.queue, e < s.pool.size) (h : s.step order = .ok t) :
    t.Native fun _ _ => False := by
  unfold State.step at h
  split at h
  · rwa [← Except.ok.inj h]
  next next queue hpop =>
  replace hpop := pop?_perm hpop
  have hnext : next < s.pool.size := hqueue next (hpop.mem_iff.2 List.mem_cons_self)
  have hlinks : s.pool.rootOf next < s.links.size := by
    rw [hs.laid.links_size]
    exact hs.laid.forest.rootOf_lt hnext
  obtain ⟨root, hroot, h⟩ := bind_eq_ok.1 h
  obtain ⟨-, rfl, -⟩ := Pool.root_handle_eq_ok.1 hroot
  dsimp only at h
  rw [process_eq order (s.pool.rootOf next) queue _ rfl] at h
  simp only [bind_eq_ok] at h
  obtain ⟨-, -, u, hu, -, -, h⟩ := h
  have htaken := hs.take { s.stats with iterations := s.stats.iterations + 1 } hpop hlinks
  generalize s.take (s.pool.rootOf next) queue
    { s.stats with iterations := s.stats.iterations + 1 } = c at hu htaken
  -- the pointees that waited have been handled by now, so they need not be skipped any more
  have hhandled : u.Native fun _ _ => False := by
    split at hu
    · next hempty =>
        obtain rfl := pure_eq_ok.1 hu
        refine ⟨htaken.laid, htaken.obliged,
          fun r o ho _ => htaken.owns r o ho fun hskip => ?_⟩
        rw [List.isEmpty_iff] at hempty
        exact absurd (hempty ▸ SetOrder.mem_arrange.2 hskip.2) List.not_mem_nil
    · have hproceeds := htaken.laid.conditionals htaken.obliged hu
      refine hproceeds.native ⟨htaken.laid, htaken.obliged, fun r o ho _ hk => ?_⟩
      by_cases hnew : r = s.pool.rootOf next ∧ o ∈ s.waiting (s.pool.rootOf next)
      · exact hnew.1 ▸ ownsThrough_of_conditionals hu (SetOrder.mem_arrange.2 hnew.2) hk
      · exact htaken.owns r o ho hnew hk
  refine (hhandled.laid.flowAll hhandled.obliged (fun x hx => ?_) h).native hhandled
  exact hhandled.laid.supersets_lt _ x (SetOrder.mem_arrange.1 hx)

/-- **A run never meets a handle of another pool.** -/
theorem Native.pops {p base : Pool} {T : Family} {order : SetOrder} {k : Nat}
    (hs : s.Native fun _ _ => False) (hsteady : Steady base T (s.restrict p))
    (hown : ∀ x, s.pool.Owns x ↔ p.Owns x) (h : Pops order k s t) :
    t.Native fun _ _ => False := by
  induction h with
  | zero s => exact hs
  | @succ k s t u hqueue hok _ ih =>
      have hlt : ∀ e ∈ s.queue, e < s.pool.size := by
        intro e he
        have := hsteady.valid.queue_lt e he
        rwa [pool_restrict, Pool.size_restrict] at this
      obtain ⟨hsteady', -, -, hown'⟩ := hsteady.pops_restrict hown (.succ hqueue hok (.zero t))
      exact ih (hs.step hlt hok) hsteady' hown'

/-! ## Seeding -/

/-- No call site has been bound and nothing has been exposed. -/
structure Unbound (s : State) : Prop where
  calls : ∀ (c : Nat) (entry : BoundCall), s.calls[c]? = some entry → entry.bound = .empty
  exposed : s.exposed = .empty

theorem Unbound.quiet (hs : s.Unbound) (h : Quiet s t) : t.Unbound :=
  ⟨h.calls_eq ▸ hs.calls, h.exposed_eq ▸ hs.exposed⟩

theorem Unbound.enlist (hs : s.Unbound) (root : Nat) (site : CallSite) :
    (s.enlist root site).Unbound := by
  have hbare :
      ({ s.modifyLinks root fun l => { l with calls := l.calls ++ [s.calls.size] } with
      calls := s.calls.push ⟨site, .empty⟩ } : State).Unbound := by
    refine ⟨fun c entry hc => ?_, hs.exposed⟩
    dsimp only at hc
    rw [Array.getElem?_push] at hc
    split at hc
    · rw [← Option.some_injective _ hc]
    · exact hs.calls c entry hc
  exact hbare.quiet (plain_push _ root).toQuiet

theorem Unbound.obliged (hs : s.Unbound) : s.Obliged where
  bound {c o entry} hc ho := by
    rw [hs.calls c entry hc] at ho
    exact absurd ho (IndexSet.not_mem_empty o)
  exposed {o} ho := by
    rw [hs.exposed] at ho
    exact absurd ho (IndexSet.not_mem_empty o)

theorem unbound_seed {settings : Settings} {p : Pool} {constraints : List Constraint}
    (h : seed settings p constraints = .ok s) : s.Unbound := by
  obtain ⟨s₀, hplant, h⟩ := seed_eq_ok.1 h
  have hstart : (start settings p).Unbound :=
    ⟨fun c entry hc => absurd hc (by simp [start]), rfl⟩
  refine foldlM_induction (P := Unbound) (fun u v c _ hu hv => ?_)
    (hstart.quiet (plain_plant hplant).toQuiet) h
  rcases addConstraint_cases hv with ⟨hplain, -⟩ | ⟨callee, site, -, -, rfl⟩
  · exact hu.quiet hplain.toQuiet
  · exact hu.enlist _ site

/-! ## The books -/

/-- A pointee of a root that is not fresh any more. -/
def Old (s : State) (r o : Nat) : Prop := o ∈ s.pool.stored r ∧ ¬ o ∈ (s.linksAt r).fresh

/-- **The fresh pointees are all that is left to do.**  They are pointees of a root that waits.
Any other pointee of a root has flowed along all its edges; what is stored and loaded through
the root has been joined to it by edges, along which all has flowed that is not fresh where it
comes from; the calls of the root have been bound to it; and if it is a function and the root
that of external memory, it has been exposed. -/
structure Bookkept (s : State) : Prop where
  fresh_sub : ∀ r o, o ∈ (s.linksAt r).fresh → o ∈ s.pool.stored r
  fresh_waits : ∀ r o, o ∈ (s.linksAt r).fresh → ∃ e ∈ s.queue, s.pool.rootOf e = r
  flowed : ∀ r, ∀ x ∈ (s.linksAt r).supersets, ∀ o, s.Old r o → o ∈ s.pool.pointsTo x
  stored : ∀ r o, s.Old r o → s.pool.kindOf o ≠ .functionObject → ∀ v ∈ (s.linksAt r).stores,
    s.pool.Owns v ∧ ∀ x, s.Old (s.pool.rootOf v.index) x → x ∈ s.pool.pointsTo o
  loaded : ∀ r o, s.Old r o → s.pool.kindOf o ≠ .functionObject → ∀ v ∈ (s.linksAt r).loads,
    s.pool.Owns v ∧ ∀ x, s.Old (s.pool.rootOf o) x → x ∈ s.pool.pointsTo v.index
  bound : ∀ r o, s.Old r o → ∀ c ∈ (s.linksAt r).calls, ∃ entry, s.calls[c]? = some entry ∧
    o ∈ entry.bound ∧
    s.Linked (callEdges s.externalHandle entry.site (s.pool.calleeSignature? o))
  exposed : ∀ o, s.Old (s.pool.rootOf Pool.external) o → s.pool.kindOf o = .functionObject →
    o ∈ s.exposed ∧ s.Linked (exposureEdges s.externalHandle (s.pool.signature? o))

theorem settled_restrict {p : Pool} (hd : s.settings.differences = true) {r o : Nat} :
    (s.restrict p).Settled r o ↔ s.Old r o := by
  have hd' : (s.restrict p).settings.differences = true := hd
  rw [settled_iff_fresh hd', pool_restrict, Pool.stored_restrict, linksAt_restrict]
  exact Iff.rfl

/-- The books follow from what is known of the run without the handles of other pools, if that
run has overlooked nothing. -/
theorem Steady.bookkept {base p : Pool} {T : Family} (hs : Steady base T (s.restrict p))
    (hempty : ∀ i, base.pointsTo i = .empty) (hd : s.settings.differences = true)
    (hnative : s.Native fun _ _ => False) (hown : ∀ x, s.pool.Owns x ↔ p.Owns x) :
    s.Bookkept := by
  have hsettled : ∀ {r o}, (s.restrict p).Settled r o ↔ s.Old r o := settled_restrict hd
  have hhandled : ∀ {r o}, s.Old r o → (s.restrict p).Handled r o := by
    intro r o ho
    refine hs.handles r o (hsettled.2 ho) fun hover => ?_
    have hmem := hover.2.mem
    rw [hempty] at hmem
    exact IndexSet.not_mem_empty o hmem
  have hcarries : ∀ {x y o}, (s.restrict p).HasEdge x y → s.Old (s.pool.rootOf x) o →
      o ∈ s.pool.pointsTo y := by
    intro x y o hedge ho
    have hflow := hs.flows.of_hasEdge hedge (o := o)
    rw [pool_restrict, Pool.rootOf_restrict, Pool.pointsTo_restrict, hsettled] at hflow
    exact hflow ho
  have howns : ∀ {r o}, s.Old r o → s.pool.kindOf o ≠ .functionObject → s.OwnsThrough r :=
    fun ho hk => hnative.owns _ _ ((settled_iff_fresh hd).2 ho) not_false hk
  have hkept : ∀ {v : Handle} {values : List Handle}, v ∈ values → s.pool.Owns v →
      v ∈ values.filterMap p.own? := fun hv hvalue =>
    List.mem_filterMap.2 ⟨_, hv, Pool.own?_of_owns ((hown _).1 hvalue)⟩
  constructor
  case fresh_sub =>
    intro r o ho
    have hsub := hs.valid.fresh_sub r o
    rw [linksAt_restrict, pool_restrict, Pool.stored_restrict] at hsub
    exact hsub ho
  case fresh_waits =>
    intro r o ho
    have hwaits := hs.valid.fresh_waits hd r o
    rw [linksAt_restrict] at hwaits
    obtain ⟨e, he, hroot⟩ := hwaits ho
    rw [pool_restrict, Pool.rootOf_restrict] at hroot
    exact ⟨e, he, hroot⟩
  case flowed =>
    intro r x hx o ho
    have hflow := hs.flows r o x
    rw [linksAt_restrict, pool_restrict, Pool.pointsTo_restrict] at hflow
    exact hflow hx (hsettled.2 ho) not_false
  case stored =>
    intro r o ho hk v hv
    have hvalue := (howns ho hk).stores v hv
    refine ⟨hvalue, fun x hx => hcarries ((hhandled ho).stores ?_ v ?_) hx⟩
    · rwa [pool_restrict, Pool.kindOf_restrict]
    · rw [linksAt_restrict]
      exact hkept hv hvalue
  case loaded =>
    intro r o ho hk v hv
    have hvalue := (howns ho hk).loads v hv
    refine ⟨hvalue, fun x hx => hcarries ((hhandled ho).loads ?_ v ?_) hx⟩
    · rwa [pool_restrict, Pool.kindOf_restrict]
    · rw [linksAt_restrict]
      exact hkept hv hvalue
  case bound =>
    intro r o ho c hc
    obtain ⟨entry, hentry, hmem⟩ := (hhandled ho).calls c (by rw [linksAt_restrict]; exact hc)
    rw [calls_restrict] at hentry
    obtain ⟨whole, hwhole, rfl⟩ := Option.map_eq_some_iff.1 hentry
    have hbound : o ∈ whole.bound := hmem
    exact ⟨whole, hwhole, hbound, hnative.obliged.bound hwhole hbound⟩
  case exposed =>
    intro o ho hk
    have hexposed : o ∈ s.exposed := (hhandled ho).exposed
      (by rw [pool_restrict, Pool.rootOf_restrict])
      (by rwa [pool_restrict, Pool.kindOf_restrict])
    exact ⟨hexposed, hnative.obliged.exposed hexposed⟩

end State

open State

/-- **Difference propagation loses no work.**  In every state that a run with
difference propagation is observed in, begun where nothing points anywhere, the fresh
pointees are all that is left to do, whatever has been merged and whatever its
constraints and signatures name. -/
theorem fresh_is_all_that_is_left (settings : Settings) (hd : settings.differences = true)
    (order : SetOrder) (p : Pool) (hp : p.Forest) (hsentinels : p.HasSentinels)
    (hempty : ∀ i, p.stored i = .empty) (constraints : List Constraint) {s t : State} {k : Nat}
    (hseed : seed settings p constraints = .ok s) (h : Pops order k s t) : t.Bookkept := by
  have hnothing : ∀ {i o}, ¬ o ∈ p.stored i := by
    intro i o ho
    rw [hempty] at ho
    exact IndexSet.not_mem_empty o ho
  have hintact : p.Intact := ⟨hp, fun ho => absurd ho hnothing, fun ho => absurd ho hnothing⟩
  have hready : (p.restrict p).Ready := ⟨hsentinels.closed_restrict, hintact.restrict p⟩
  have hbase : ∀ i, (p.restrict p).pointsTo i = .empty := fun i => by
    rw [Pool.pointsTo_restrict, Pool.pointsTo, hempty]
  obtain ⟨hseeding, hsettings, -, hsame, -⟩ := seed_restrict hready hsentinels (above_univ _)
    ((solution_univ _ _).beyond _) hseed
  have hds : s.settings.differences = true := hsettings ▸ hd
  have htallied := tallied_seed hp hseed
  -- in the beginning all pointees are fresh
  have hnative : s.Native fun _ _ => False := by
    refine ⟨⟨htallied.forest, htallied.links_size, fun r x hx => ?_⟩,
      (unbound_seed hseed).obliged, fun r o ho _ _ => ?_⟩
    · have hlt := hseeding.valid.supersets_lt r x
      rw [linksAt_restrict, pool_restrict, Pool.size_restrict] at hlt
      exact hlt hx
    · have hold : s.Old r o := (settled_iff_fresh hds).1 ho
      have hmem := (hseeding.overlooked hds r o ((settled_restrict hds).2 hold)).2.mem
      rw [hbase] at hmem
      exact absurd hmem (IndexSet.not_mem_empty o)
  obtain ⟨hsteady, htsettings, -, hown⟩ := steady_of_pops hready hsentinels (above_univ _)
    ((solution_univ _ _).beyond _) hseed h
  exact hsteady.bookkept hbase (htsettings ▸ hd)
    (hnative.pops hseeding.steady (fun _ => hsame.owns_iff) h) hown

/-- Two roots have been taken.  What is stored through the first has reached the object it
points to, but for the object itself, which is still fresh where it comes from.  The load
writes to a register of another pool, and nothing has been settled where it reads from. -/
theorem fresh_is_all_that_is_left_cyclicPool : cyclicPool.Forest ∧ cyclicPool.HasSentinels ∧
    (∀ i, cyclicPool.stored i = .empty) ∧ ∃ s t,
      seed ⟨true, .lifo, true⟩ cyclicPool (.load ⟨9, 3⟩ ⟨0, 5⟩ :: cyclicConstraints) = .ok s ∧
      Pops .ascending 2 s t ∧ t.Old 2 4 ∧ ⟨0, 3⟩ ∈ (t.linksAt 2).stores ∧ t.Old 3 6 ∧
      4 ∈ (t.linksAt 3).fresh ∧ ¬ 4 ∈ t.pool.pointsTo 4 ∧ t.Bookkept := by
  have hfresh : cyclicPool.Fresh := by decide
  have hsentinels : cyclicPool.HasSentinels := ⟨by decide, by decide⟩
  have hempty : ∀ i, cyclicPool.stored i = .empty := hfresh.stored_eq
  have hrun : (do
      let s ← (seed ⟨true, .lifo, true⟩ cyclicPool
        (.load ⟨9, 3⟩ ⟨0, 5⟩ :: cyclicConstraints)).toOption
      let u ← (s.step .ascending).toOption
      let t ← (u.step .ascending).toOption
      some (!s.queue.isEmpty && !u.queue.isEmpty && (t.pool.stored 2).contains 4 &&
        !(t.linksAt 2).fresh.contains 4 && (t.linksAt 2).stores.contains ⟨0, 3⟩ &&
        (t.pool.stored 3).contains 6 && !(t.linksAt 3).fresh.contains 6 &&
        (t.linksAt 3).fresh.contains 4 && !(t.pool.pointsTo 4).contains 4)) = some true := by
    decide +kernel
  simp only [Option.bind_eq_bind, Option.bind_eq_some_iff, toOption_eq_some, Option.some.injEq,
    Bool.and_eq_true, Bool.not_eq_true', ← Bool.not_eq_true, List.isEmpty_iff,
    IndexSet.contains_iff, List.contains_iff_mem] at hrun
  obtain ⟨s, hseed, u, hu, t, ht, ⟨⟨⟨⟨⟨⟨⟨⟨hs, hne⟩, h₁⟩, h₂⟩, h₃⟩, h₄⟩, h₅⟩, h₆⟩, h₇⟩⟩ := hrun
  have hpops : Pops .ascending 2 s t := .succ hs hu (.succ hne ht (.zero t))
  exact ⟨hfresh.ready.forest, hsentinels, hempty, s, t, hseed, hpops, ⟨h₁, h₂⟩, h₃,
    ⟨h₄, h₅⟩, h₆, h₇, fresh_is_all_that_is_left ⟨true, .lifo, true⟩ rfl .ascending cyclicPool
      hfresh.ready.forest hsentinels hempty _ hseed hpops⟩

end PointerChannels.Inclusion
