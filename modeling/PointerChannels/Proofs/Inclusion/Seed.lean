import PointerChannels.Proofs.Inclusion.Run

/-!
# Taking in constraints

Before anything has been taken off the worklist only what was there from the start is settled.
With difference propagation that is overlooked, and without it a root that is asked for
something waits, so a root may be asked for more loads, stores and calls without owing
anything for the pointees it has.  External memory is looked at without being asked, so it
owes something until it is planted.  Each constraint is recorded in the state, where no later
operation loses it, and puts at most one root on the worklist that is not paid for by
something that was missing.
-/

namespace PointerChannels.Inclusion.State

variable {s t u : State} {base p : Pool} {T : Family}

/-! ## Asking more of a root -/

/-- Ask a root for more loads, stores and calls, and let it wait. -/
def ask (s : State) (root : Nat) (loads stores : List Handle) (calls : List Nat) : State :=
  (s.modifyLinks root fun l => { l with
    loads := l.loads ++ loads
    stores := l.stores ++ stores
    calls := l.calls ++ calls }).push root

section Ask

variable {root : Nat} {loads stores : List Handle} {calls : List Nat}

@[simp] theorem pool_ask : (s.ask root loads stores calls).pool = s.pool := pool_push root

theorem linksAt_ask (h : root < s.links.size) (r : Nat) :
    (s.ask root loads stores calls).linksAt r = if r = root then { s.linksAt root with
      loads := (s.linksAt root).loads ++ loads
      stores := (s.linksAt root).stores ++ stores
      calls := (s.linksAt root).calls ++ calls } else s.linksAt r := by
  rw [ask, linksAt_push, linksAt_modifyLinks h]

theorem linksAt_ask_self (h : root < s.links.size) :
    (s.ask root loads stores calls).linksAt root = { s.linksAt root with
      loads := (s.linksAt root).loads ++ loads
      stores := (s.linksAt root).stores ++ stores
      calls := (s.linksAt root).calls ++ calls } := by
  rw [linksAt_ask h, if_pos rfl]

theorem linksAt_ask_of_ne (h : root < s.links.size) {r : Nat} (hr : r ≠ root) :
    (s.ask root loads stores calls).linksAt r = s.linksAt r := by
  rw [linksAt_ask h, if_neg hr]

/-- What a root has been asked for, it is still asked for; its edges and its fresh
pointees are as before. -/
theorem linksAt_ask_keeps (h : root < s.links.size) (loads stores : List Handle)
    (calls : List Nat) (r : Nat) :
    (∀ v ∈ (s.linksAt r).loads, v ∈ ((s.ask root loads stores calls).linksAt r).loads) ∧
    (∀ v ∈ (s.linksAt r).stores, v ∈ ((s.ask root loads stores calls).linksAt r).stores) ∧
    (∀ c ∈ (s.linksAt r).calls, c ∈ ((s.ask root loads stores calls).linksAt r).calls) ∧
    ((s.ask root loads stores calls).linksAt r).supersets = (s.linksAt r).supersets ∧
    ((s.ask root loads stores calls).linksAt r).fresh = (s.linksAt r).fresh := by
  by_cases hr : r = root
  · subst hr
    rw [linksAt_ask_self h]
    simp +contextual
  · rw [linksAt_ask_of_ne h hr]
    exact ⟨fun _ hv => hv, fun _ hv => hv, fun _ hc => hc, rfl, rfl⟩

theorem waits_ask {r : Nat} :
    (s.ask root loads stores calls).Waits r ↔ s.Waits r ∨ s.pool.rootOf root = r :=
  waits_push

theorem settled_of_ask (h : root < s.links.size) {r o : Nat}
    (ho : (s.ask root loads stores calls).Settled r o) : s.Settled r o := by
  obtain ⟨-, -, -, -, hfresh⟩ := linksAt_ask_keeps h loads stores calls r
  by_cases hd : s.settings.differences = true
  · rw [settled_iff_fresh (by rwa [ask, settings_push]), pool_ask, hfresh] at ho
    exact (settled_iff_fresh hd).2 ho
  · rw [settled_iff_waits (by rwa [ask, settings_push]), pool_ask, waits_ask] at ho
    exact (settled_iff_waits hd).2 ⟨ho.1, fun hw => ho.2 (.inl hw)⟩

theorem keeps_ask (h : root < s.links.size) : Keeps s (s.ask root loads stores calls) where
  settings_eq := settings_push root
  same := by rw [pool_ask]; exact .refl _
  joins i j e := by rwa [pool_ask]
  grows i o ho := by rwa [pool_ask]
  hasEdge x y e := by
    simpa only [HasEdge, pool_ask, (linksAt_ask_keeps h loads stores calls _).2.2.2.1] using e
  loads i v hv := by rw [pool_ask]; exact (linksAt_ask_keeps h loads stores calls _).1 v hv
  stores i v hv := by rw [pool_ask]; exact (linksAt_ask_keeps h loads stores calls _).2.1 v hv
  calls i c hc := by rw [pool_ask]; exact (linksAt_ask_keeps h loads stores calls _).2.2.1 c hc
  site c x hx := by rw [ask, calls_push]; exact hx
  bound c o hb := by rw [Bound, ask, calls_push]; exact hb
  exposed o ho := by rw [ask, exposed_push]; exact ho

theorem Valid.ask (hs : s.Valid base T) (hroot : s.pool.isRoot root = true)
    (hloads : ∀ v ∈ loads, s.pool.Owns v ∧ T.LoadsBeyond s.pool (s.exempt base) v.index root)
    (hstores : ∀ v ∈ stores, s.pool.Owns v ∧
      T.StoresBeyond s.pool (s.exempt base) root v.index)
    (hcalls : ∀ c ∈ calls, c < s.calls.size ∧ ∀ entry, s.calls[c]? = some entry →
      ∀ o ∈ T root, o ∉ s.exempt base root → T.Binds entry.site (s.pool.calleeSignature? o)) :
    (s.ask root loads stores calls).Valid base T := by
  have hlt := Pool.lt_size_of_isRoot hroot
  have hlinks := hs.lt_links hlt
  have hkeeps := linksAt_ask_keeps hlinks loads stores calls
  refine hs.extend (settings_push root) (by rw [pool_ask]; exact .refl _)
    (by rw [pool_ask]; exact hs.forest) (fun i => by rw [pool_ask]) (keeps_ask hlinks).grows
    (by rw [State.ask, links_push, size_links_modifyLinks])
    (fun r o h => .inl (by rwa [pool_ask] at h))
    (fun r x h => .inl (by rwa [(hkeeps r).2.2.2.1] at h))
    (fun r v h => ?_) (fun r v h => ?_) (fun r c h => ?_)
    (fun c => by rw [State.ask, calls_push]; rfl) (fun e he => ?_) (fun r o h => ?_)
    (fun hd r o h => ?_) (fun r o h => .inl (by rwa [(hkeeps r).2.2.2.2] at h))
  · by_cases hr : r = root
    · subst hr
      rw [linksAt_ask_self hlinks] at h
      exact (List.mem_append.1 h).imp_right (hloads v)
    · exact .inl (by rwa [linksAt_ask_of_ne hlinks hr] at h)
  · by_cases hr : r = root
    · subst hr
      rw [linksAt_ask_self hlinks] at h
      exact (List.mem_append.1 h).imp_right (hstores v)
    · exact .inl (by rwa [linksAt_ask_of_ne hlinks hr] at h)
  · by_cases hr : r = root
    · subst hr
      rw [linksAt_ask_self hlinks] at h
      exact (List.mem_append.1 h).imp_right (hcalls c)
    · exact .inl (by rwa [linksAt_ask_of_ne hlinks hr] at h)
  · rcases mem_queue_push.1 he with he | rfl
    · exact hs.queue_lt e he
    · exact hlt
  · rw [(hkeeps r).2.2.2.2] at h
    rw [pool_ask]
    exact hs.fresh_sub r o h
  · rw [State.ask, settings_push] at hd
    rw [(hkeeps r).2.2.2.2] at h
    exact waits_ask.2 (.inl (hs.fresh_waits hd r o h))

theorem work_ask_le (h : root < s.links.size) :
    (s.ask root loads stores calls).work ≤ s.work + 1 := by
  have hlen : (s.ask root loads stores calls).queue.length ≤ s.queue.length + 1 :=
    length_queue_push root
  have hsum : ∑ r ∈ (s.ask root loads stores calls).pool.roots,
      (s.ask root loads stores calls).slack r = ∑ r ∈ s.pool.roots, s.slack r := by
    simp only [slack, pool_ask, (linksAt_ask_keeps h loads stores calls _).2.2.2.1]
  rw [work, work, hsum]
  omega

end Ask

/-! ## Recorded constraints -/

/-- A constraint is recorded in the state. -/
def Recorded (s : State) : Constraint → Prop
  | .pointsTo pointer pointee => pointee.index ∈ s.pool.pointsTo pointer.index
  | .superset whole part => s.HasEdge part.index whole.index
  | .load value address => value ∈ (s.linksAt (s.pool.rootOf address.index)).loads
  | .store address value => value ∈ (s.linksAt (s.pool.rootOf address.index)).stores
  | .call callee site => ∃ c ∈ (s.linksAt (s.pool.rootOf callee.index)).calls,
      s.calls[c]?.map BoundCall.site = some site
  | .external pointer => s.HasEdge Pool.external pointer.index
  | .unknown pointer => s.HasEdge Pool.unknown pointer.index
  | .escapes pointer => s.HasEdge pointer.index Pool.external

/-- A sentinel points to itself and is loaded from and stored through itself. -/
structure Planted (s : State) (sentinel : Nat) : Prop where
  mem : sentinel ∈ s.pool.pointsTo sentinel
  loads : s.pool.handle sentinel ∈ (s.linksAt (s.pool.rootOf sentinel)).loads
  stores : s.pool.handle sentinel ∈ (s.linksAt (s.pool.rootOf sentinel)).stores

theorem Keeps.recorded (h : Keeps s t) {c : Constraint} (hc : s.Recorded c) :
    t.Recorded c := by
  cases c with
  | pointsTo pointer pointee => exact h.grows _ _ hc
  | superset whole part => exact h.hasEdge _ _ hc
  | load value address => exact h.loads _ _ hc
  | store address value => exact h.stores _ _ hc
  | call callee site =>
      obtain ⟨c, hmem, hsite⟩ := hc
      exact ⟨c, h.calls _ c hmem, h.site c site hsite⟩
  | external pointer => exact h.hasEdge _ _ hc
  | unknown pointer => exact h.hasEdge _ _ hc
  | escapes pointer => exact h.hasEdge _ _ hc

theorem Keeps.planted (h : Keeps s t) {sentinel : Nat} (hs : s.Planted sentinel) :
    t.Planted sentinel where
  mem := h.grows _ _ hs.mem
  loads := by rw [h.same.handle_eq]; exact h.loads _ _ hs.loads
  stores := by rw [h.same.handle_eq]; exact h.stores _ _ hs.stores

/-- While no class has been merged, what is exempt at a root is what the settings spare the
entities of its class. -/
theorem exempt_rootOf (hforest : base.Forest) (hroot : ∀ i, s.pool.rootOf i = base.rootOf i)
    (a : Nat) : s.exempt base (s.pool.rootOf a) = s.settings.spared base a := by
  have hpoints : base.pointsTo (s.pool.rootOf a) = base.pointsTo a := by
    rw [Pool.pointsTo, hroot, hforest.rootOf_rootOf, Pool.pointsTo]
  ext o
  constructor
  · intro h
    obtain ⟨hcycles, hd, hmem, -⟩ := h
    rw [hpoints] at hmem
    exact ⟨hcycles, hd, hmem⟩
  · intro h
    obtain ⟨hcycles, hd, hmem⟩ := h
    refine ⟨hcycles, hd, hpoints.symm ▸ hmem, fun i hi => ?_⟩
    rw [← hroot i, hi, hroot, hforest.rootOf_rootOf]

/-- A state in which only what was there from the start is settled.  While external memory is
`pending`, it may have pointees that have not been looked at. -/
structure Seeding (base : Pool) (T : Family) (pending : Prop) (s : State) : Prop where
  valid : s.Valid base T
  obliged : s.Obliged
  forest : base.Forest
  rootOf_eq : ∀ i, s.pool.rootOf i = base.rootOf i
  overlooked : s.settings.differences = true → ∀ r o, s.Settled r o → s.Overlooked base r o
  handles : s.Handles fun r o => s.Overlooked base r o ∨ pending ∧
    r = s.pool.rootOf Pool.external
  flows : s.Flows fun _ _ _ => False

/-- A step of the seeding: it leaves at most one more root to take. -/
structure Seeded (base : Pool) (T : Family) (pending : Prop) (s t : State) : Prop where
  seeding : Seeding base T pending t
  keeps : Keeps s t
  work_le : t.work ≤ s.work + 1

namespace Seeding

variable {pending : Prop}

theorem follow (hs : Seeding base T pending s) (hvalid : t.Valid base T) (hobliged : t.Obliged)
    (hext : Extends s t) : Seeding base T pending t where
  valid := hvalid
  obliged := hobliged
  forest := hs.forest
  rootOf_eq i := (hext.rootOf_eq i).trans (hs.rootOf_eq i)
  overlooked hd r o ho :=
    hext.overlooked ho (hs.overlooked (hext.settings_eq ▸ hd) r o (hext.settled r o ho).1)
  handles := by
    refine hext.handles hs.handles fun r o ho hskip => ?_
    rw [hext.rootOf_eq]
    exact hskip.imp_left (hext.overlooked ho)
  flows := hext.flows hs.flows

theorem steady (hs : Seeding base T False s) : Steady base T s where
  valid := hs.valid
  obliged := hs.obliged
  handles r o ho hover := hs.handles r o ho fun hskip => hskip.elim hover fun h => h.1
  flows := hs.flows

/-- Once external memory waits, all its pointees will be looked at or are overlooked. -/
theorem planted (hs : Seeding base T pending s)
    (hwaits : s.Waits (s.pool.rootOf Pool.external)) : Seeding base T False s where
  valid := hs.valid
  obliged := hs.obliged
  forest := hs.forest
  rootOf_eq := hs.rootOf_eq
  overlooked := hs.overlooked
  handles r o ho hskip := by
    refine hs.handles r o ho fun h => ?_
    rcases h with hover | ⟨-, rfl⟩
    · exact hskip (.inl hover)
    by_cases hd : s.settings.differences = true
    · exact hskip (.inl (hs.overlooked hd _ o ho))
    · exact ((settled_iff_waits hd).1 ho).2 hwaits
  flows := hs.flows

theorem loadsBeyond (hs : Seeding base T pending s) {v a : Nat}
    (hT : T.LoadsBeyond s.pool (s.settings.spared base) v a) :
    T.LoadsBeyond s.pool (s.exempt base) v (s.pool.rootOf a) := by
  rw [Family.LoadsBeyond, hs.valid.below.uniform, exempt_rootOf hs.forest hs.rootOf_eq]
  exact hT

theorem storesBeyond (hs : Seeding base T pending s) {a v : Nat}
    (hT : T.StoresBeyond s.pool (s.settings.spared base) a v) :
    T.StoresBeyond s.pool (s.exempt base) (s.pool.rootOf a) v := by
  rw [Family.StoresBeyond, hs.valid.below.uniform, exempt_rootOf hs.forest hs.rootOf_eq]
  exact hT

theorem ask (hs : Seeding base T pending s) {root : Nat} {loads stores : List Handle}
    {calls : List Nat} (hroot : s.pool.isRoot root = true)
    (hloads : ∀ v ∈ loads, s.pool.Owns v ∧ T.LoadsBeyond s.pool (s.exempt base) v.index root)
    (hstores : ∀ v ∈ stores, s.pool.Owns v ∧
      T.StoresBeyond s.pool (s.exempt base) root v.index)
    (hcalls : ∀ c ∈ calls, c < s.calls.size ∧ ∀ entry, s.calls[c]? = some entry →
      ∀ o ∈ T root, o ∉ s.exempt base root → T.Binds entry.site (s.pool.calleeSignature? o)) :
    Seeded base T pending s (s.ask root loads stores calls) := by
  have hlinks := hs.valid.lt_links (Pool.lt_size_of_isRoot hroot)
  have hkeeps : Keeps s (s.ask root loads stores calls) := keeps_ask hlinks
  have hsettled : ∀ {r o}, (s.ask root loads stores calls).Settled r o → s.Settled r o :=
    settled_of_ask hlinks
  have hover : ∀ {r o}, (s.ask root loads stores calls).Overlooked base r o ↔
      s.Overlooked base r o := overlooked_congr hkeeps.settings_eq fun i => by rw [pool_ask]
  refine ⟨⟨hs.valid.ask hroot hloads hstores hcalls, ?_, hs.forest, fun i => ?_,
    fun hd r o ho => ?_, fun r o ho hskip => ?_, fun r o x hx ho _ => ?_⟩, hkeeps,
      work_ask_le hlinks⟩
  · exact hkeeps.obliged hs.obliged (fun hc => .inl (by rwa [State.ask, calls_push] at hc))
      (exposed_push root)
  · rw [pool_ask]
    exact hs.rootOf_eq i
  · exact hover.2 (hs.overlooked (hkeeps.settings_eq ▸ hd) r o (hsettled ho))
  · simp only [hover, pool_ask] at hskip
    by_cases hr : r = root
    · -- the root that was asked is overlooked or waits, so that nothing is owed
      subst hr
      by_cases hd : s.settings.differences = true
      · exact absurd (.inl (hs.overlooked hd r o (hsettled ho))) hskip
      · rw [settled_iff_waits (hkeeps.settings_eq ▸ hd), waits_ask] at ho
        exact absurd (.inr (Pool.rootOf_of_isRoot hroot)) ho.2
    · have hat : (s.ask root loads stores calls).linksAt r = s.linksAt r :=
        linksAt_ask_of_ne hlinks hr
      exact hkeeps.handled (fun i hi => by rwa [pool_ask] at hi) (by rw [hat]) (by rw [hat])
        (by rw [hat]) (hs.handles r o (hsettled ho) hskip)
  · rw [(linksAt_ask_keeps hlinks loads stores calls r).2.2.2.1] at hx
    rw [pool_ask]
    exact hs.flows r o x hx (hsettled ho) not_false

theorem learn (hs : Seeding base T pending s) {root : Nat} (hroot : s.pool.isRoot root = true)
    {objects : List Nat} (hobjects : ∀ o ∈ objects, s.pool.IsObject o ∧ o ∈ T root) :
    Seeding base T pending (s.learn root objects) ∧ Grown base T s (s.learn root objects) := by
  have hlt := Pool.lt_size_of_isRoot hroot
  have htold := told_learn hlt (hs.valid.lt_links hlt) objects
  have hgrown := hs.valid.grown_learn hroot hobjects
  refine ⟨hs.follow hgrown.valid ?_ hgrown.ext, hgrown⟩
  exact hgrown.ext.obliged hs.obliged (fun hc => .inl (htold.calls_eq ▸ hc)) htold.exposed_eq

theorem addEdge (hs : Seeding base T pending s) {sup sub : Handle} (hsup : s.pool.Owns sup)
    (hsub : s.pool.Owns sub) (hT : T sub.index ⊆ T sup.index) :
    ∃ t, s.addEdge sup sub = .ok t ∧ Seeded base T pending s t ∧
      t.HasEdge sub.index sup.index := by
  obtain ⟨t, hok, hedged⟩ := hs.valid.addEdge hsup hsub hT
  exact ⟨t, hok,
    ⟨hs.follow hedged.valid (hs.obliged.edged hedged) hedged.ext, hedged.ext.toKeeps,
    hedged.work_le.trans (Nat.le_succ _)⟩,
    hedged.linked _ (List.mem_singleton_self _)⟩

/-- Note a call site that has been bound to nothing. -/
theorem pushCall (hs : Seeding base T pending s) {site : CallSite} (hsite : site.Over s.pool) :
    Seeding base T pending { s with calls := s.calls.push ⟨site, .empty⟩ } ∧
      Keeps s { s with calls := s.calls.push ⟨site, .empty⟩ } := by
  have hget : ∀ {c : Nat} {entry : BoundCall}, (s.calls.push ⟨site, .empty⟩)[c]? = some entry →
      s.calls[c]? = some entry ∨ c = s.calls.size ∧ entry = ⟨site, .empty⟩ := by
    intro c entry hc
    rw [Array.getElem?_push] at hc
    split at hc
    · rename_i h
      exact .inr ⟨h, (Option.some.inj hc).symm⟩
    · exact .inl hc
  have hold : ∀ {c : Nat} {entry : BoundCall}, s.calls[c]? = some entry →
      (s.calls.push ⟨site, .empty⟩)[c]? = some entry := by
    intro c entry hc
    have hlt := (Array.getElem?_eq_some_iff.1 hc).1
    rw [Array.getElem?_push, if_neg (Nat.ne_of_lt hlt), hc]
  have hkeeps : Keeps s { s with calls := s.calls.push ⟨site, .empty⟩ } := by
    refine { Keeps.refl s with site := fun c x hx => ?_, bound := fun c o hb => ?_ }
    · obtain ⟨entry, hc, rfl⟩ := Option.map_eq_some_iff.1 hx
      exact congrArg (Option.map BoundCall.site) (hold hc)
    · obtain ⟨entry, hc, ho⟩ := hb
      exact ⟨entry, hold hc, ho⟩
  have hvalid : Valid base T { s with calls := s.calls.push ⟨site, .empty⟩ } := by
    refine { hs.valid with
      calls_lt := fun r c hc => ?_
      sites := fun c entry hc => ?_
      below := { hs.valid.below with calls := fun r c hc entry hentry o ho hnot => ?_ } }
    · have := hs.valid.calls_lt r c hc
      simp only [Array.size_push]
      omega
    · rcases hget hc with hc | ⟨-, rfl⟩
      · exact hs.valid.sites c entry hc
      · exact hsite
    · rcases hget hentry with hentry | ⟨rfl, -⟩
      · exact hs.valid.below.calls r c hc entry hentry o ho hnot
      · exact absurd (hs.valid.calls_lt r _ hc) (Nat.lt_irrefl _)
  refine ⟨⟨hvalid, hkeeps.obliged hs.obliged (fun hc => ?_) rfl, hs.forest, hs.rootOf_eq,
    hs.overlooked, fun r o ho hskip => ?_, hs.flows⟩, hkeeps⟩
  · exact (hget hc).imp_right fun h => by rw [h.2]
  · exact hkeeps.handled (fun i hi => hi) rfl rfl rfl (hs.handles r o ho hskip)

theorem addPointsTo (hs : Seeding base T pending s) {pointer pointee : Handle}
    (hc : (Constraint.pointsTo pointer pointee).Over s.pool)
    (hT : T.Meets s.pool (.pointsTo pointer pointee)) :
    ∃ t, s.addConstraint (.pointsTo pointer pointee) = .ok t ∧ Seeded base T pending s t ∧
      t.Recorded (.pointsTo pointer pointee) := by
  obtain ⟨hpointer, hpointee, hobject⟩ := hc
  have hroot := hs.valid.forest.isRoot_rootOf hpointer.2
  have hobjects : ∀ o ∈ [pointee.index],
      s.pool.IsObject o ∧ o ∈ T (s.pool.rootOf pointer.index) := by
    intro o ho
    rw [List.mem_singleton] at ho
    subst ho
    exact ⟨hobject, by rw [hs.valid.below.uniform]; exact hT⟩
  obtain ⟨hseeding, hgrown⟩ := hs.learn hroot hobjects
  refine ⟨s.learn (s.pool.rootOf pointer.index) [pointee.index], ?_,
    ⟨hseeding, hgrown.ext.toKeeps, hgrown.work_le.trans (Nat.le_succ _)⟩, ?_⟩
  · have hcheck := hs.valid.checkPointees hroot fun o ho => (hobjects o ho).1
    simp only [State.addConstraint, hs.valid.forest.root_ok hpointer,
      hpointee.resolveObject hobject, hcheck, bind, Except.bind, State.learn]
    cases s.insertPointees (s.pool.rootOf pointer.index) [pointee.index] with
    | mk learnt t => cases learnt <;> rfl
  · have hlt := Pool.lt_size_of_isRoot hroot
    have htold := told_learn hlt (hs.valid.lt_links hlt) [pointee.index]
    show _ ∈ Pool.pointsTo _ _
    rw [Pool.pointsTo, htold.rootOf_eq, htold.mem_stored]
    exact .inr ⟨rfl, List.mem_singleton_self _⟩

theorem addLoad (hs : Seeding base T pending s) {value address : Handle}
    (hc : (Constraint.load value address).Over s.pool)
    (hT : T.MeetsBeyond s.pool (s.settings.spared base) (.load value address)) :
    ∃ t, s.addConstraint (.load value address) = .ok t ∧ Seeded base T pending s t ∧
      t.Recorded (.load value address) := by
  have hroot := hs.valid.forest.isRoot_rootOf hc.2.2
  have hlinks := hs.valid.lt_links (Pool.lt_size_of_isRoot hroot)
  have hseeded :
      Seeded base T pending s (s.ask (s.pool.rootOf address.index) [value] [] []) := by
    refine hs.ask hroot (fun v hv => ?_) (by simp) (by simp)
    rw [List.mem_singleton] at hv
    subst hv
    exact ⟨hc.1, hs.loadsBeyond hT⟩
  refine ⟨_, ?_, hseeded, ?_⟩
  · simp only [State.addConstraint, hs.valid.forest.root_ok hc.2,
      checkIndex_of_lt hlinks, bind, Except.bind, State.ask, List.append_nil]
    rfl
  · show value ∈ (State.linksAt _ _).loads
    rw [pool_ask, linksAt_ask_self hlinks]
    simp

theorem addStore (hs : Seeding base T pending s) {address value : Handle}
    (hc : (Constraint.store address value).Over s.pool)
    (hT : T.MeetsBeyond s.pool (s.settings.spared base) (.store address value)) :
    ∃ t, s.addConstraint (.store address value) = .ok t ∧ Seeded base T pending s t ∧
      t.Recorded (.store address value) := by
  have hroot := hs.valid.forest.isRoot_rootOf hc.1.2
  have hlinks := hs.valid.lt_links (Pool.lt_size_of_isRoot hroot)
  have hseeded :
      Seeded base T pending s (s.ask (s.pool.rootOf address.index) [] [value] []) := by
    refine hs.ask hroot (by simp) (fun v hv => ?_) (by simp)
    rw [List.mem_singleton] at hv
    subst hv
    exact ⟨hc.2, hs.storesBeyond hT⟩
  refine ⟨_, ?_, hseeded, ?_⟩
  · simp only [State.addConstraint, hs.valid.forest.root_ok hc.1,
      checkIndex_of_lt hlinks, bind, Except.bind, State.ask, List.append_nil]
    rfl
  · show value ∈ (State.linksAt _ _).stores
    rw [pool_ask, linksAt_ask_self hlinks]
    simp

theorem addCall (hs : Seeding base T pending s) {callee : Handle} {site : CallSite}
    (hc : (Constraint.call callee site).Over s.pool)
    (hT : T.MeetsBeyond s.pool (s.settings.spared base) (.call callee site)) :
    ∃ t, s.addConstraint (.call callee site) = .ok t ∧ Seeded base T pending s t ∧
      t.Recorded (.call callee site) := by
  obtain ⟨hseeding, hkeeps⟩ := hs.pushCall hc.2
  have hroot := hs.valid.forest.isRoot_rootOf hc.1.2
  have hlinks := hs.valid.lt_links (Pool.lt_size_of_isRoot hroot)
  generalize hpushed : { s with calls := s.calls.push ⟨site, .empty⟩ } =
    pushed at hseeding hkeeps
  have hpool : pushed.pool = s.pool := by rw [← hpushed]
  have hcalls : pushed.calls = s.calls.push ⟨site, .empty⟩ := by rw [← hpushed]
  have hseeded : Seeded base T pending pushed
      (pushed.ask (s.pool.rootOf callee.index) [] [] [s.calls.size]) := by
    refine hseeding.ask (by rwa [hpool]) (by simp) (by simp) fun c hmem => ?_
    rw [List.mem_singleton] at hmem
    subst hmem
    refine ⟨by simp [hcalls], fun entry hentry o ho hnot => ?_⟩
    rw [hcalls, Array.getElem?_push_size, Option.some.injEq] at hentry
    rw [← hentry, hpool]
    rw [hs.valid.below.uniform] at ho
    rw [← hpool, exempt_rootOf hseeding.forest hseeding.rootOf_eq, hkeeps.settings_eq] at hnot
    exact hT o ho hnot
  have hwork : pushed.work = s.work := by rw [← hpushed]; rfl
  refine ⟨_, ?_, ⟨hseeded.seeding, hkeeps.trans hseeded.keeps, hwork ▸ hseeded.work_le⟩,
    s.calls.size, ?_, ?_⟩
  · simp only [State.addConstraint, hs.valid.forest.root_ok hc.1,
      checkIndex_of_lt hlinks, bind, Except.bind, State.ask, List.append_nil, ← hpushed]
    rfl
  · rw [pool_ask, hpool, linksAt_ask_self (by rw [← hpushed]; exact hlinks)]
    simp
  · rw [State.ask, calls_push]
    show pushed.calls[s.calls.size]?.map BoundCall.site = some site
    rw [hcalls, Array.getElem?_push_size]
    rfl

/-- **A constraint that the family meets is taken in and recorded.** -/
theorem addConstraint (hs : Seeding base T pending s) {c : Constraint} (hc : c.Over s.pool)
    (hT : T.MeetsBeyond s.pool (s.settings.spared base) c) :
    ∃ t, s.addConstraint c = .ok t ∧ Seeded base T pending s t ∧ t.Recorded c := by
  cases c with
  | pointsTo pointer pointee => exact hs.addPointsTo hc hT
  | superset whole part => exact hs.addEdge hc.1 hc.2 hT
  | load value address => exact hs.addLoad hc hT
  | store address value => exact hs.addStore hc hT
  | call callee site => exact hs.addCall hc hT
  | external pointer =>
      exact hs.addEdge hc (Pool.owns_handle hs.valid.closed.external_object.1) hT
  | unknown pointer =>
      exact hs.addEdge hc (Pool.owns_handle hs.valid.closed.unknown_object.1) hT
  | escapes pointer =>
      exact hs.addEdge (Pool.owns_handle hs.valid.closed.external_object.1) hc hT

/-- Asking a root that was just told of objects: it is put on the worklist once. -/
theorem ask_learn {root : Nat} {objects : List Nat} {loads stores : List Handle} :
    (s.learn root objects).ask root loads stores [] =
      ((s.insertPointees root objects).2.modifyLinks root fun l =>
        { l with loads := l.loads ++ loads, stores := l.stores ++ stores }).push root := by
  simp only [State.learn, State.ask, List.append_nil]
  split
  · generalize (s.insertPointees root objects).2 = t
    unfold push
    by_cases hq : root ∈ t.queue
    · rw [if_pos hq]
    · rw [if_neg hq, if_pos (by simp [modifyLinks]), if_neg (by simpa [modifyLinks] using hq)]
      rfl
  · rfl

/-- **A sentinel is planted.** -/
theorem seedSentinel (hs : Seeding base T pending s) {sentinel : Nat}
    (hobject : s.pool.IsObject sentinel)
    (hT : T.SentinelBeyond s.pool (s.settings.spared base) sentinel) :
    ∃ t, s.seedSentinel sentinel = .ok t ∧ Seeded base T pending s t ∧ t.Planted sentinel ∧
      t.Waits (t.pool.rootOf sentinel) := by
  have hroot := hs.valid.forest.isRoot_rootOf hobject.1
  have hlt := Pool.lt_size_of_isRoot hroot
  have huniform := hs.valid.below.uniform sentinel
  have hobjects : ∀ o ∈ [sentinel], s.pool.IsObject o ∧ o ∈ T (s.pool.rootOf sentinel) := by
    intro o ho
    rw [List.mem_singleton] at ho
    subst ho
    exact ⟨hobject, by rw [huniform]; exact hT.mem⟩
  obtain ⟨hlearnt, hgrown⟩ := hs.learn hroot hobjects
  have htold := told_learn hlt (hs.valid.lt_links hlt) [sentinel]
  have hinserted := (told_insertPointees hlt (hs.valid.lt_links hlt) [sentinel]).1
  generalize hself : s.pool.handle sentinel = self
  have hself' : self.index = sentinel := by rw [← hself]; rfl
  have hcheck := hs.valid.checkPointees hroot fun o ho => (hobjects o ho).1
  have heq : s.seedSentinel sentinel = .ok ((s.learn (s.pool.rootOf sentinel) [sentinel]).ask
      (s.pool.rootOf sentinel) [self] [self] []) := by
    rw [ask_learn, ← hself, ← hinserted.same.handle_eq]
    simp only [State.seedSentinel, hs.valid.forest.root_handle hobject.1, hcheck,
      hs.valid.check_links hlt, bind, Except.bind]
    rfl
  generalize s.learn (s.pool.rootOf sentinel) [sentinel] = learnt at hlearnt hgrown htold heq
  have hown : learnt.pool.Owns self := by
    rw [htold.same.owns_iff, ← hself]
    exact Pool.owns_handle hobject.1
  have hasked :
      Seeded base T pending learnt (learnt.ask (s.pool.rootOf sentinel) [self] [self] []) := by
    refine hlearnt.ask (by rwa [htold.isRoot_eq]) (fun v hv => ?_) (fun v hv => ?_) (by simp)
    · rw [List.mem_singleton] at hv
      subst hv
      refine ⟨hown, ?_⟩
      rw [hself', ← htold.rootOf_eq]
      refine hlearnt.loadsBeyond ?_
      rw [htold.settings_eq, htold.same.loadsBeyond_iff]
      exact hT.loads
    · rw [List.mem_singleton] at hv
      subst hv
      refine ⟨hown, ?_⟩
      rw [hself', ← htold.rootOf_eq]
      refine hlearnt.storesBeyond ?_
      rw [htold.settings_eq, htold.same.storesBeyond_iff]
      exact hT.stores
  have hlinks : s.pool.rootOf sentinel < learnt.links.size := by
    rw [htold.links_size]
    exact hs.valid.lt_links hlt
  refine ⟨_, heq, ⟨hasked.seeding, hgrown.ext.toKeeps.trans hasked.keeps,
    hasked.work_le.trans (Nat.add_le_add_right hgrown.work_le 1)⟩, ⟨?_, ?_, ?_⟩, ?_⟩
  · rw [Pool.pointsTo, pool_ask, htold.rootOf_eq, htold.mem_stored]
    exact .inr ⟨rfl, List.mem_singleton_self _⟩
  · rw [pool_ask, htold.rootOf_eq, htold.same.handle_eq, hself, linksAt_ask_self hlinks]
    simp
  · rw [pool_ask, htold.rootOf_eq, htold.same.handle_eq, hself, linksAt_ask_self hlinks]
    simp
  · rw [pool_ask, waits_ask, htold.rootOf_eq, htold.rootOf_eq, hs.valid.forest.rootOf_rootOf]
    exact .inr rfl

end Seeding

end PointerChannels.Inclusion.State
