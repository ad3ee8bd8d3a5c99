import PointerChannels.Proofs.Unification.Join
import Mathlib.Data.Finset.Prod

/-!
# Resolving calls in rounds

A round binds calls to the objects that the classes of its beginning say they may reach.
Binding merges classes, so a later call of the same round may be judged by classes that are out
of date.  That does no harm: a round that binds or exposes anything new is followed by another,
each adds to what has been bound, which is bounded, and the last one found nothing new and so
judged by classes that are up to date.
-/

namespace PointerChannels.Unification.State

variable {s t u : State}

/-- What has been bound and exposed is in range, is noted once, and has
had its classes merged. -/
structure Kept (s : State) : Prop where
  nodup : s.bound.Nodup
  bound_lt : ∀ x ∈ s.bound, x.1 < s.calls.size ∧ x.2 < s.pool.size
  bound : ∀ {c o : Nat} {callee : Handle} {site : CallSite}, (c, o) ∈ s.bound →
    s.calls[c]? = some (callee, site) →
    ∀ e ∈ callPairs s.externalHandle site (s.pool.calleeSignature? o),
      s.Same e.1.index e.2.index
  exposed_lt : ∀ o, o ∈ s.exposed → o < s.pool.size
  exposed : ∀ {o : Nat}, o ∈ s.exposed →
    ∀ e ∈ exposurePairs s.externalHandle (s.pool.signature? o), s.Same e.1.index e.2.index

/-- How much has been bound and exposed. -/
def tally (s : State) : Nat := s.bound.length + s.exposed.size

theorem Kept.tally_le (hs : s.Kept) :
    s.tally ≤ s.calls.size * s.pool.size + s.pool.size := by
  have hsub : s.bound.toFinset ⊆ Finset.range s.calls.size ×ˢ Finset.range s.pool.size := by
    intro x hx
    obtain ⟨h1, h2⟩ := hs.bound_lt x (List.mem_toFinset.1 hx)
    exact Finset.mem_product.2 ⟨Finset.mem_range.2 h1, Finset.mem_range.2 h2⟩
  have hcard := Finset.card_le_card hsub
  rw [List.toFinset_card_of_nodup hs.nodup, Finset.card_product, Finset.card_range,
    Finset.card_range] at hcard
  have hexposed := IndexSet.size_le_of_lt hs.exposed_lt
  rw [tally]
  omega

theorem Later.externalHandle_eq (h : Later s t) : t.externalHandle = s.externalHandle :=
  h.entities.handle_eq _

/-- What a step of call resolution does; the flag tells whether it changed anything. -/
structure Progress (s : State) (changed : Bool) (t : State) : Prop where
  sound : t.Sound
  kept : t.Kept
  later : Later s t
  calls_eq : t.calls = s.calls
  still : changed = false → t = s
  more : changed = true → s.tally < t.tally

theorem Progress.refl (hs : s.Sound) (hk : s.Kept) : Progress s false s :=
  ⟨hs, hk, .refl s, rfl, fun _ => rfl, by simp⟩

theorem Progress.trans {b c : Bool} (h : Progress s b t) (h' : Progress t c u) :
    Progress s (b || c) u where
  sound := h'.sound
  kept := h'.kept
  later := h.later.trans h'.later
  calls_eq := h'.calls_eq.trans h.calls_eq
  still hbc := by
    rw [Bool.or_eq_false_iff] at hbc
    exact (h'.still hbc.2).trans (h.still hbc.1)
  more hbc := by
    cases b with
    | true =>
        cases c with
        | true => exact (h.more rfl).trans (h'.more rfl)
        | false =>
            rw [h'.still rfl]
            exact h.more rfl
    | false =>
        rw [Bool.false_or] at hbc
        rw [← h.still rfl]
        exact h'.more hbc

/-! ## Binding and exposing -/

theorem owns_callPairs {p : Pool} (hp : p.Closed) {site : CallSite}
    (hsite : site.Over p) {o : Nat} {e : Handle × Handle}
    (he : e ∈ callPairs (p.handle Pool.external) site (p.calleeSignature? o)) :
    p.Owns e.1 ∧ p.Owns e.2 := by
  cases hsig : p.calleeSignature? o with
  | none =>
      rw [hsig] at he
      simp only [callPairs, List.mem_map, mem_present, List.mem_append] at he
      obtain ⟨x, hx, rfl⟩ := he
      exact ⟨Pool.owns_handle hp.external_object.1,
        hx.elim (hsite.arguments x) (hsite.results x)⟩
  | some signature =>
      rw [hsig] at he
      have hsig' := Pool.signature?_of_calleeSignature? hsig
      rcases List.mem_append.1 he with he | he
      · exact owns_of_mem_paired (fun h => hp.owns_params hsig') hsite.arguments he
      · exact owns_of_mem_paired hsite.results (fun h => hp.owns_results hsig') he

theorem owns_exposurePairs {p : Pool} (hp : p.Closed) {o : Nat} {e : Handle × Handle}
    (he : e ∈ exposurePairs (p.handle Pool.external) (p.signature? o)) :
    p.Owns e.1 ∧ p.Owns e.2 := by
  cases hsig : p.signature? o with
  | none => simp [hsig, exposurePairs] at he
  | some signature =>
      rw [hsig] at he
      simp only [exposurePairs, List.mem_map, mem_present, List.mem_append] at he
      obtain ⟨x, hx, rfl⟩ := he
      exact ⟨Pool.owns_handle hp.external_object.1,
        hx.elim (hp.owns_params hsig) (hp.owns_results hsig)⟩

/-- What was kept is kept later, when all that is bound and exposed since
has its classes merged. -/
theorem Kept.later (hk : s.Kept) (h : Later s t) (hcalls : t.calls = s.calls)
    (hnodup : t.bound.Nodup)
    (hbound : ∀ c o, (c, o) ∈ t.bound → (c, o) ∈ s.bound ∨ c < s.calls.size ∧ o < s.pool.size ∧
      ∀ callee site, s.calls[c]? = some (callee, site) →
        ∀ e ∈ callPairs s.externalHandle site (s.pool.calleeSignature? o),
          t.Same e.1.index e.2.index)
    (hexposed : ∀ o, o ∈ t.exposed → o ∈ s.exposed ∨ o < s.pool.size ∧
      ∀ e ∈ exposurePairs s.externalHandle (s.pool.signature? o), t.Same e.1.index e.2.index) :
    t.Kept := by
  refine ⟨hnodup, fun x hx => ?_, fun {c o callee site} hmem hc => ?_, fun o ho => ?_,
    fun {o} ho => ?_⟩
  · rw [hcalls, h.entities.size_eq]
    rcases hbound x.1 x.2 hx with hx | ⟨h1, h2, -⟩
    · exact hk.bound_lt x hx
    · exact ⟨h1, h2⟩
  · rw [h.externalHandle_eq, h.entities.calleeSignature?_eq]
    rw [hcalls] at hc
    rcases hbound c o hmem with hmem | ⟨-, -, hpairs⟩
    · exact fun e he => h.same _ _ (hk.bound hmem hc e he)
    · exact hpairs callee site hc
  · rw [h.entities.size_eq]
    exact (hexposed o ho).elim (hk.exposed_lt o) And.left
  · rw [h.externalHandle_eq, h.entities.signature?_eq]
    rcases hexposed o ho with ho | ⟨-, hpairs⟩
    · exact fun e he => h.same _ _ (hk.exposed ho e he)
    · exact hpairs

/-- Binding a call to a callee. -/
theorem Sound.bindCall (hs : s.Sound) (hk : s.Kept) {call o : Nat} {callee : Handle}
    {site : CallSite} (hcall : s.calls[call]? = some (callee, site)) (ho : o < s.pool.size) :
    ∃ new t, s.bindCall call site o = .ok (new, t) ∧ Progress s new t ∧
      (new = false → (call, o) ∈ s.bound) := by
  rw [State.bindCall]
  by_cases hin : (call, o) ∈ s.bound
  · rw [if_pos hin]
    exact ⟨false, s, rfl, .refl hs hk, fun _ => hin⟩
  rw [if_neg hin]
  obtain ⟨noted, hnoted⟩ : ∃ u, ({ s with
    bound := (call, o) :: s.bound
    stats := { s.stats with callBindings := s.stats.callBindings + 1 } } : State) = u :=
      ⟨_, rfl⟩
  have hsound : noted.Sound := hnoted ▸ { hs with }
  have hlater : Later s noted :=
    hnoted ▸ ⟨.refl _, fun _ _ h => h, fun _ _ h => h, fun _ _ h => h,
    fun x hx => List.mem_cons_of_mem _ hx, fun _ h => h⟩
  have hcalls : noted.calls = s.calls := hnoted ▸ rfl
  have hbound : noted.bound = (call, o) :: s.bound := hnoted ▸ rfl
  have hexposed : noted.exposed = s.exposed := hnoted ▸ rfl
  have hown : ∀ e ∈ callPairs noted.externalHandle site (s.pool.calleeSignature? o),
      noted.pool.Owns e.1 ∧ noted.pool.Owns e.2 := by
    rw [← hlater.entities.calleeSignature?_eq]
    exact fun e he => owns_callPairs hsound.closed (hsound.calls (hcalls ▸ hcall)).2 he
  obtain ⟨t, hok, ht, hjoins, hpairs⟩ := hsound.joinAll hown
  rw [hlater.externalHandle_eq] at hpairs
  have hbound' : t.bound = (call, o) :: s.bound := hjoins.bound_eq.trans hbound
  have hexposed' : t.exposed = s.exposed := hjoins.exposed_eq.trans hexposed
  have hcalls' : t.calls = s.calls := hjoins.calls_eq.trans hcalls
  have hall := hlater.trans hjoins.toLater
  have hkept : t.Kept := by
    refine hk.later hall hcalls' ?_ (fun c o' hmem => ?_) fun o' ho' => .inl (hexposed' ▸ ho')
    · rw [hbound']
      exact List.nodup_cons.2 ⟨hin, hk.nodup⟩
    · rw [hbound'] at hmem
      rcases List.mem_cons.1 hmem with heq | hmem
      · obtain ⟨rfl, rfl⟩ := Prod.mk.inj heq
        refine .inr ⟨(Array.getElem?_eq_some_iff.1 hcall).1, ho, fun callee' site' hc => ?_⟩
        rw [hcall, Option.some.injEq, Prod.mk.injEq] at hc
        rw [← hc.2]
        exact hpairs
      · exact .inl hmem
  refine ⟨true, t, ?_, ⟨ht, hkept, hall, hcalls', by simp, fun _ => ?_⟩, by simp⟩
  · simp only [Pool.check_of_lt ho, hnoted, hok, bind, Except.bind]
    rfl
  · rw [tally, tally, hbound', hexposed', List.length_cons]
    omega

/-- Exposing an object. -/
theorem Sound.expose (hs : s.Sound) (hk : s.Kept) {o : Nat} (ho : o < s.pool.size) :
    ∃ new t, s.expose o = .ok (new, t) ∧ Progress s new t ∧
      (new = false → s.pool.kindOf o = .functionObject → o ∈ s.exposed) := by
  simp only [State.expose, Pool.check_of_lt ho, bind, Except.bind]
  by_cases hskip : s.pool.kindOf o ≠ .functionObject ∨ o ∈ s.exposed
  · rw [if_pos hskip]
    exact ⟨false, s, rfl, .refl hs hk, fun _ hkind => hskip.resolve_left (not_not.2 hkind)⟩
  rw [if_neg hskip]
  obtain ⟨noted, hnoted⟩ : ∃ u, ({ s with exposed := s.exposed.insert o } : State) = u :=
    ⟨_, rfl⟩
  have hsound : noted.Sound := hnoted ▸ { hs with }
  have hlater : Later s noted :=
    hnoted ▸ ⟨.refl _, fun _ _ h => h, fun _ _ h => h, fun _ _ h => h,
    fun _ h => h, fun x hx => IndexSet.mem_insert.2 (.inr hx)⟩
  have hcalls : noted.calls = s.calls := hnoted ▸ rfl
  have hbound : noted.bound = s.bound := hnoted ▸ rfl
  have hexposed : noted.exposed = s.exposed.insert o := hnoted ▸ rfl
  have hown : ∀ e ∈ exposurePairs noted.externalHandle (s.pool.signature? o),
      noted.pool.Owns e.1 ∧ noted.pool.Owns e.2 := by
    rw [← hlater.entities.signature?_eq]
    exact fun e he => owns_exposurePairs hsound.closed he
  obtain ⟨t, hok, ht, hjoins, hpairs⟩ := hsound.joinAll hown
  rw [hlater.externalHandle_eq] at hpairs
  have hbound' : t.bound = s.bound := hjoins.bound_eq.trans hbound
  have hexposed' : t.exposed = s.exposed.insert o := hjoins.exposed_eq.trans hexposed
  have hcalls' : t.calls = s.calls := hjoins.calls_eq.trans hcalls
  have hall := hlater.trans hjoins.toLater
  have hkept : t.Kept := by
    refine hk.later hall hcalls' (hbound' ▸ hk.nodup) (fun c o' hmem => .inl (hbound' ▸ hmem))
      fun o' ho' => ?_
    rw [hexposed'] at ho'
    rcases IndexSet.mem_insert.1 ho' with rfl | ho'
    · exact .inr ⟨ho, hpairs⟩
    · exact .inl ho'
  refine ⟨true, t, ?_, ⟨ht, hkept, hall, hcalls', by simp, fun _ => ?_⟩, by simp⟩
  · simp only [hnoted, hok]
    rfl
  · have hmore : s.exposed.size < t.exposed.size := by
      rw [hexposed']
      exact IndexSet.size_lt_of_subset (fun x hx => IndexSet.mem_insert.2 (.inr hx))
        (IndexSet.mem_insert.2 (.inl rfl)) (not_or.1 hskip).2
    rw [tally, tally, hbound']
    omega

/-! ## A round -/

/-- A loop over steps of call resolution.  When it changed nothing, no step of it did. -/
theorem Sound.each (hs : s.Sound) (hk : s.Kept) (objects : List Nat)
    (act : State → Nat → Except Fault (Bool × State))
    (hact : ∀ u, u.Sound → u.Kept → Later s u → u.calls = s.calls →
      ∀ o ∈ objects, ∃ new t, act u o = .ok (new, t) ∧ Progress u new t) :
    ∃ changed t, State.each objects act s = .ok (changed, t) ∧ Progress s changed t ∧
      (changed = false → ∀ o ∈ objects, act s o = .ok (false, s)) := by
  -- the flag so far is carried along, so the induction is for any flag
  have hfrom : ∀ (l : List Nat) (u : State) (flag : Bool), (∀ o ∈ l, o ∈ objects) → u.Sound →
      u.Kept → Later s u → u.calls = s.calls → ∃ changed t,
      l.foldlM (fun (x : Bool × State) o => do
        let r ← act x.2 o
        return (x.1 || r.1, r.2)) (flag, u) = .ok (flag || changed, t) ∧ Progress u changed t ∧
      (changed = false → ∀ o ∈ l, act u o = .ok (false, u)) := by
    intro l
    induction l with
    | nil =>
        intro u flag _ hu hku _ _
        exact ⟨false, u, by rw [Bool.or_false]; rfl, .refl hu hku, by simp⟩
    | cons o l ih =>
        intro u flag hmem hu hku hlater hcalls
        obtain ⟨new, v, hok, hprogress⟩ :=
          hact u hu hku hlater hcalls o (hmem o List.mem_cons_self)
        obtain ⟨changed, t, hrest, hprogress', hstill⟩ := ih v (flag || new)
          (fun x hx => hmem x (List.mem_cons_of_mem o hx)) hprogress.sound hprogress.kept
          (hlater.trans hprogress.later) (hprogress.calls_eq.trans hcalls)
        refine ⟨new || changed, t, ?_, hprogress.trans hprogress', fun hno x hx => ?_⟩
        · rw [← Bool.or_assoc, List.foldlM_cons]
          simp only [hok, bind, Except.bind, pure, Except.pure]
          exact hrest
        · rw [Bool.or_eq_false_iff] at hno
          obtain ⟨rfl, rfl⟩ := hno
          have hvu := hprogress.still rfl
          subst hvu
          rcases List.mem_cons.1 hx with rfl | hx
          · exact hok
          · exact hstill rfl x hx
  obtain ⟨changed, t, hok, hprogress, hstill⟩ :=
    hfrom objects s false (fun _ h => h) hs hk (.refl s) rfl
  rw [Bool.false_or] at hok
  exact ⟨changed, t, hok, hprogress, hstill⟩

theorem mem_objects {p : Pool} {r o : Nat} :
    o ∈ objects p r ↔ p.IsObject o ∧ p.rootOf o = r := by
  simp only [objects, Pool.members, Pool.indices, List.mem_filter, List.mem_range, beq_iff_eq,
    Pool.IsObject]
  tauto

/-- The members of a class are entities of every pool that is as large. -/
theorem check_members {p q : Pool} (h : p.size = q.size) (r : Nat) :
    (p.members r).forM q.check = .ok () := by
  refine forM_eq_ok.2 fun m hm => Pool.check_of_lt ?_
  rw [← h]
  exact List.mem_range.1 (List.mem_of_mem_filter hm)

/-- The objects a pointer may refer to, by the classes of a snapshot. -/
theorem Sound.candidates (hs : s.Sound) {pointer : Handle} (hp : s.pool.Owns pointer)
    {snapshot : Pool} (hsize : snapshot.size = s.pool.size) :
    ∃ found, s.candidates snapshot pointer = .ok found ∧
      (∀ o ∈ found, o < snapshot.size) ∧
      (snapshot = s.pool → ∀ o, o ∈ found ↔ s.pool.IsObject o ∧ s.Points pointer.index o) := by
  simp only [State.candidates, hs.forest.root_ok hp,
    hs.check_pointee (hs.forest.rootOf_lt hp.2), bind, Except.bind]
  cases hpointee : s.pointeeOf (s.pool.rootOf pointer.index) with
  | none =>
      refine ⟨[], rfl, by simp, fun _ o => ?_⟩
      simp [Points, hpointee]
  | some target =>
      simp only [hs.forest.root_ok (hs.owns hpointee), check_members hsize]
      refine ⟨_, rfl, fun o ho => (mem_objects.1 ho).1.1, ?_⟩
      rintro rfl o
      rw [mem_objects]
      simp only [Points, hpointee, Option.some.injEq, exists_eq_left', Same]
      exact and_congr_right fun _ => eq_comm

theorem Sound.resolveCall (hs : s.Sound) (hk : s.Kept) {snapshot : Pool}
    (hsnapshot : Pool.SameEntities snapshot s.pool) {call : Nat}
    (hcall : call < s.calls.size) :
    ∃ new t, s.resolveCall snapshot call = .ok (new, t) ∧ Progress s new t ∧
      (new = false → snapshot = s.pool → ∀ callee site, s.calls[call]? = some (callee, site) →
        ∀ o, s.pool.IsObject o → s.Points callee.index o → (call, o) ∈ s.bound) := by
  obtain ⟨⟨callee, site⟩, hget⟩ : ∃ x, s.calls[call]? = some x :=
    ⟨_, Array.getElem?_eq_getElem hcall⟩
  obtain ⟨found, hfound, hlt, hexact⟩ :=
    hs.candidates (hs.calls hget).1 hsnapshot.size_eq.symm
  obtain ⟨changed, t, hok, hprogress, hstill⟩ := hs.each hk found
    (fun u o => u.bindCall call site o) fun u hu hku hlater hcalls o ho => by
      obtain ⟨new, v, hok, hprogress, -⟩ := hu.bindCall hku (hcalls ▸ hget)
        (by rw [hlater.entities.size_eq, hsnapshot.size_eq]; exact hlt o ho)
      exact ⟨new, v, hok, hprogress⟩
  refine ⟨changed, t, ?_, hprogress, fun hno hsame callee' site' hget' o hobject hpoints => ?_⟩
  · simp only [State.resolveCall, entryAt_eq_ok.2 hget, hfound, bind, Except.bind]
    exact hok
  · rw [hget, Option.some.injEq, Prod.mk.injEq] at hget'
    rw [← hget'.1] at hpoints
    have hin := (hexact hsame o).2 ⟨hobject, hpoints⟩
    obtain ⟨new, v, hok', -, hbound⟩ := hs.bindCall hk hget hobject.1
    rw [hstill hno o hin, Except.ok.injEq, Prod.mk.injEq] at hok'
    exact hbound hok'.1.symm

/-- Every call has been bound to all it may reach, and all functions that external memory
points to have been exposed. -/
structure Resolved (s : State) : Prop where
  calls : ∀ {c : Nat} {callee : Handle} {site : CallSite}, s.calls[c]? = some (callee, site) →
    ∀ o, s.pool.IsObject o → s.Points callee.index o → (c, o) ∈ s.bound
  external : ∀ o, s.pool.IsObject o → s.pool.kindOf o = .functionObject →
    s.Points Pool.external o → o ∈ s.exposed

/-- **A round that changes nothing has resolved everything.** -/
theorem Sound.round (hs : s.Sound) (hk : s.Kept) : ∃ changed u t, s.round = .ok (changed, t) ∧
    Progress u changed t ∧ Later s u ∧ u.tally = s.tally ∧ u.calls = s.calls ∧
    (changed = false → u.Resolved) := by
  obtain ⟨u, hu⟩ : ∃ u,
    ({ s with stats := { s.stats with rounds := s.stats.rounds + 1 } } : State) = u := ⟨_, rfl⟩
  have hsound : u.Sound := hu ▸ { hs with }
  have hkept : u.Kept := hu ▸ { hk with }
  have hlater : Later s u := hu ▸ ⟨.refl _, fun _ _ h => h, fun _ _ h => h, fun _ _ h => h,
    fun _ h => h, fun _ h => h⟩
  have hcalls : u.calls = s.calls := hu ▸ rfl
  have hpool : u.pool = s.pool := hu ▸ rfl
  obtain ⟨bound, v, hok, hprogress, hstill⟩ := hsound.each hkept
    (List.range u.calls.size) (State.resolveCall s.pool) fun w hw hkw hl hc call hcall => by
      rw [List.mem_range, ← hc] at hcall
      obtain ⟨new, x, hok, hprogress, -⟩ := hw.resolveCall hkw (hlater.trans hl).entities hcall
      exact ⟨new, x, hok, hprogress⟩
  have hexternal : v.pool.Owns v.externalHandle :=
    Pool.owns_handle hprogress.sound.closed.external_object.1
  obtain ⟨found, hfound, hlt, hexact⟩ := hprogress.sound.candidates hexternal
    (hlater.trans hprogress.later).entities.size_eq.symm
  obtain ⟨exposed, t, hok', hprogress', hstill'⟩ := hprogress.sound.each hprogress.kept found
    State.expose fun w hw hkw hl hc o ho => by
      obtain ⟨new, x, hok, hprogress'', -⟩ := hw.expose hkw (o := o)
        (by rw [((hlater.trans hprogress.later).trans hl).entities.size_eq]; exact hlt o ho)
      exact ⟨new, x, hok, hprogress''⟩
  refine ⟨bound || exposed, u, t, ?_, hprogress.trans hprogress', hlater, hu ▸ rfl, hcalls,
    fun hno => ?_⟩
  · have hok₀ := hok
    rw [hcalls] at hok₀
    simp only [State.round, hs.forest.checkClasses_ok, hu, hok₀, hfound, hok',
      bind, Except.bind]
    rfl
  · rw [Bool.or_eq_false_iff] at hno
    have hvu := hprogress.still hno.1
    subst hvu
    refine ⟨fun {c callee site} hc o hobject hpoints => ?_, fun o hobject hkind hpoints => ?_⟩
    · have hcall := (Array.getElem?_eq_some_iff.1 hc).1
      obtain ⟨new, x, hok'', -, hbound⟩ := hsound.resolveCall hkept hlater.entities hcall
      rw [hstill hno.1 c (List.mem_range.2 hcall), Except.ok.injEq, Prod.mk.injEq] at hok''
      exact hbound hok''.1.symm hpool.symm callee site hc o hobject hpoints
    · have hin := (hexact hpool.symm o).2 ⟨hobject, hpoints⟩
      obtain ⟨new, x, hok'', -, hexposed⟩ := hsound.expose hkept hobject.1
      rw [hstill' hno.2 o hin, Except.ok.injEq, Prod.mk.injEq] at hok''
      exact hexposed hok''.1.symm hkind

/-- **Rounds come to an end.** -/
theorem Sound.resolveFor : ∀ {bound : Nat} {s : State}, s.Sound → s.Kept →
    s.calls.size * s.pool.size + s.pool.size < s.tally + bound →
    ∃ t, State.resolveFor bound s = .ok t ∧ t.Sound ∧ t.Kept ∧ Later s t ∧ t.Resolved := by
  intro bound
  induction bound with
  | zero =>
      intro s _ hk hbound
      have := hk.tally_le
      omega
  | succ bound ih =>
      intro s hs hk hbound
      obtain ⟨changed, u, t, hok, hprogress, hlater, htally, hcalls, hresolved⟩ := hs.round hk
      rw [State.resolveFor]
      simp only [hok, bind, Except.bind]
      cases changed with
      | true =>
          have hmore := hprogress.more rfl
          have hsize := (hlater.trans hprogress.later).entities.size_eq
          have hcalls' : t.calls.size = s.calls.size := by rw [hprogress.calls_eq, hcalls]
          obtain ⟨v, hok', hv, hkv, hlater', hresolved'⟩ :=
            ih hprogress.sound hprogress.kept (by
            rw [hsize, hcalls']
            omega)
          exact ⟨v, hok', hv, hkv, (hlater.trans hprogress.later).trans hlater', hresolved'⟩
      | false =>
          have htu := hprogress.still rfl
          subst htu
          exact ⟨t, rfl, hprogress.sound, hprogress.kept, hlater, hresolved rfl⟩

theorem Sound.resolveCalls (hs : s.Sound) (hk : s.Kept) :
    ∃ t, s.resolveCalls = .ok t ∧ t.Sound ∧ t.Kept ∧ Later s t ∧ t.Resolved :=
  hs.resolveFor hk (by omega)

end PointerChannels.Unification.State
