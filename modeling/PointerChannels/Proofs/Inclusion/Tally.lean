import PointerChannels.Proofs.Inclusion.Observed

/-!
# What the counters of calls and escaped functions count

The same call site and callee are met many times during a run: every time the callee's class
changes or is merged with another, all it points to may be new again.  A site remembers what it
has been bound to, so each pair is counted once, and none is left out: when the worklist is
empty, a site has been bound to all that its callee points to.  The same goes for the functions
that external memory points to.

Nothing of this depends on the strategy, so neither do the two counters.

## Main definitions

* `State.Tallied` — the call sites, whom they call, and what has been counted so far.

## Main statements

* `State.Tallied.step`, `State.Tallied.pops` — taking roots keeps the tally.
* `counters_of_solve` — the counters at the end of a run.
-/

namespace PointerChannels

theorem IndexSet.size_insert {s : IndexSet} {x : Nat} (h : ¬ x ∈ s) :
    (s.insert x).size = s.size + 1 := by
  have hset : (s.insert x).toList.toFinset = Insert.insert x s.toList.toFinset := by
    ext y
    simp
  rw [size_eq_card, size_eq_card, hset, Finset.card_insert_of_notMem]
  simpa using h

namespace Inclusion

/-- One number of a sum goes up by one. -/
theorem sum_map_modify {α : Type} {f : α → Nat} {change : α → α} {xs : List α}
    {i : Nat} {x : α} (hx : xs[i]? = some x) (hchange : f (change x) = f x + 1) :
    ((xs.modify i change).map f).sum = (xs.map f).sum + 1 := by
  induction xs generalizing i with
  | nil => simp at hx
  | cons y ys ih =>
      cases i with
      | zero =>
          obtain rfl : y = x := by simpa using hx
          simp only [List.modify_zero_cons, List.map_cons, List.sum_cons, hchange]
          omega
      | succ i =>
          have hrest := ih (by simpa using hx)
          simp only [List.modify_succ_cons, List.map_cons, List.sum_cons] at hrest ⊢
          omega

/-- The entities that constraints call, one for each call. -/
def calleesOf (constraints : List Constraint) : List Nat :=
  (constraints.filterMap Constraint.callee?).map Handle.index

theorem calleesOf_concat (constraints : List Constraint) (c : Constraint) :
    calleesOf (constraints ++ [c]) =
      calleesOf constraints ++ c.callee?.toList.map Handle.index := by
  simp only [calleesOf, List.filterMap_append, List.map_append]
  cases hc : c.callee? <;> simp [hc]

namespace State

variable {s t : State} {callees : List Nat} {r : Nat}

/-! ## The tally -/

/-- The call sites of a run call some entities, in this order.  A site waits at the root of its
callee, has been bound only to what the callee points to, and the counters say how much has
been bound and exposed. -/
structure Tallied (callees : List Nat) (s : State) : Prop where
  forest : s.pool.Forest
  links_size : s.links.size = s.pool.size
  calls_size : s.calls.size = callees.length
  called : ∀ r c, c ∈ (s.linksAt r).calls ↔ ∃ e, callees[c]? = some e ∧ s.pool.rootOf e = r
  bound : ∀ c o, s.Bound c o → ∃ e, callees[c]? = some e ∧ o ∈ s.pool.pointsTo e
  exposed : ∀ o, o ∈ s.exposed →
    s.pool.kindOf o = .functionObject ∧ o ∈ s.pool.pointsTo Pool.external
  callsBound_eq : s.stats.callsBound = (s.calls.toList.map fun entry => entry.bound.size).sum
  escaped_eq : s.stats.escapedFunctions = s.exposed.size

namespace Tallied

theorem plain (hs : Tallied callees s) (h : Plain s t) : Tallied callees t where
  forest := h.forest hs.forest
  links_size := by rw [h.links_size, hs.links_size, h.same.size_eq]
  calls_size := by rw [h.calls_eq, hs.calls_size]
  called r c := by simp only [h.callsAt_eq, h.rootOf_eq, hs.called]
  bound c o ho := by
    rw [Bound, h.calls_eq] at ho
    obtain ⟨e, he, hmem⟩ := hs.bound c o ho
    exact ⟨e, he, h.grows e o hmem⟩
  exposed o ho := by
    rw [h.exposed_eq] at ho
    rw [h.same.kindOf_eq]
    exact ⟨(hs.exposed o ho).1, h.grows _ o (hs.exposed o ho).2⟩
  callsBound_eq := by rw [h.callsBound_eq, h.calls_eq, hs.callsBound_eq]
  escaped_eq := by rw [h.escapedFunctions_eq, h.exposed_eq, hs.escaped_eq]

/-- A pair of a call site and a callee is counted when it is new. -/
theorem noteBound (hs : Tallied callees s) {call o e : Nat} {entry : BoundCall}
    (hentry : s.calls[call]? = some entry) (hnew : ¬ o ∈ entry.bound)
    (he : callees[call]? = some e) (ho : o ∈ s.pool.pointsTo e) :
    Tallied callees (s.noteBound call o) where
  forest := hs.forest
  links_size := hs.links_size
  calls_size := by rw [State.noteBound, Array.size_modify, hs.calls_size]
  called := hs.called
  bound c x hx := by
    obtain ⟨changed, hchanged, hx⟩ := hx
    rw [calls_noteBound] at hchanged
    obtain ⟨old, hold, rfl⟩ := Option.map_eq_some_iff.1 hchanged
    by_cases hc : call = c
    · subst hc
      rw [if_pos rfl] at hx
      rcases IndexSet.mem_insert.1 hx with rfl | hx
      · exact ⟨e, he, ho⟩
      · exact hs.bound call x ⟨old, hold, hx⟩
    · rw [if_neg hc] at hx
      exact hs.bound c x ⟨old, hold, hx⟩
  exposed := hs.exposed
  callsBound_eq := by
    have hlist : s.calls.toList[call]? = some entry := by rw [Array.getElem?_toList, hentry]
    rw [State.noteBound, hs.callsBound_eq, Array.toList_modify,
      sum_map_modify hlist (IndexSet.size_insert hnew)]
  escaped_eq := hs.escaped_eq

theorem bindCall (hs : Tallied callees s) {call o : Nat}
    (ho : ∃ e, callees[call]? = some e ∧ o ∈ s.pool.pointsTo e)
    (h : s.bindCall call o = .ok t) : Tallied callees t ∧ Widens s t := by
  obtain ⟨entry, hentry, ⟨-, rfl⟩ | ⟨hin, -, h⟩⟩ := bindCall_eq_ok.1 h
  · exact ⟨hs, .refl s⟩
  · obtain ⟨e, he, ho⟩ := ho
    have hnoted := hs.noteBound hentry hin he ho
    have hplain : Plain (s.noteBound call o) t := plain_addEdges h
    have hwidens : Widens s (s.noteBound call o) :=
      ⟨.refl _, rfl, id, fun _ => rfl, fun _ _ hx => hx, fun _ => rfl⟩
    exact ⟨hnoted.plain hplain, hwidens.trans hplain.toWidens⟩

/-- A function is counted when it is exposed for the first time. -/
theorem noteExposed (hs : Tallied callees s) {o : Nat} (hnew : ¬ o ∈ s.exposed)
    (hkind : s.pool.kindOf o = .functionObject) (ho : o ∈ s.pool.pointsTo Pool.external) :
    Tallied callees (s.noteExposed o) where
  forest := hs.forest
  links_size := hs.links_size
  calls_size := hs.calls_size
  called := hs.called
  bound := hs.bound
  exposed x hx := by
    rcases IndexSet.mem_insert.1 hx with rfl | hx
    · exact ⟨hkind, ho⟩
    · exact hs.exposed x hx
  callsBound_eq := hs.callsBound_eq
  escaped_eq := by rw [State.noteExposed, hs.escaped_eq, IndexSet.size_insert hnew]

theorem expose (hs : Tallied callees s) {o : Nat} (ho : o ∈ s.pool.pointsTo Pool.external)
    (h : s.expose o = .ok t) : Tallied callees t ∧ Widens s t := by
  obtain ⟨-, ⟨-, rfl⟩ | ⟨hkind, hnew, h⟩⟩ := expose_eq_ok.1 h
  · exact ⟨hs, .refl s⟩
  · have hnoted := hs.noteExposed hnew hkind ho
    have hplain : Plain (s.noteExposed o) t := plain_addEdges h
    have hwidens : Widens s (s.noteExposed o) :=
      ⟨.refl _, rfl, id, fun _ => rfl, fun _ _ hx => hx, fun _ => rfl⟩
    exact ⟨hnoted.plain hplain, hwidens.trans hplain.toWidens⟩

/-- Call sites of a root are bound to what the root points to, and functions are exposed that
external memory points to. -/
theorem conditionals (hs : Tallied callees s) {pointees : List Nat}
    (hpointees : ∀ o ∈ pointees, o ∈ s.pool.stored r) (h : s.conditionals r pointees = .ok t) :
    Tallied callees t := by
  refine (conditionals_induction (P := fun u => Tallied callees u ∧ Widens s u) ?_ ?_ ?_
    ⟨hs, .refl s⟩ h).1
  · rintro u v edges ⟨hu, hwidens⟩ hok
    exact ⟨hu.plain (plain_addEdges hok), hwidens.trans (plain_addEdges hok).toWidens⟩
  · rintro u v c hc o ho ⟨hu, hwidens⟩ hok
    obtain ⟨e, he, hroot⟩ := (hs.called r c).1 hc
    have hmem : o ∈ s.pool.pointsTo e := by
      rw [Pool.pointsTo, hroot]
      exact hpointees o ho
    obtain ⟨hv, hwidens'⟩ := hu.bindCall ⟨e, he, hwidens.grows e o hmem⟩ hok
    exact ⟨hv, hwidens.trans hwidens'⟩
  · rintro u v w ⟨-, hw⟩ hroot o ho ⟨hu, hwidens⟩ hok
    have hmem : o ∈ s.pool.pointsTo Pool.external := by
      rw [Pool.pointsTo, ← hw.rootOf_eq, hroot]
      exact hpointees o ho
    obtain ⟨hv, hwidens'⟩ := hu.expose (hwidens.grows _ o hmem) hok
    exact ⟨hv, hwidens.trans hwidens'⟩

/-- The call sites of two roots that are merged wait at the survivor. -/
theorem called_of_unified (hs : Tallied callees s) {loser survivor : Nat}
    (h : s.Unified loser survivor t) (hne : loser ≠ survivor) (r c : Nat) :
    c ∈ (t.linksAt r).calls ↔ ∃ e, callees[c]? = some e ∧ t.pool.rootOf e = r := by
  simp only [h.joined.rootOf_eq]
  by_cases hl : r = loser
  · subst hl
    rw [h.linksAt_loser]
    refine ⟨fun hc => absurd hc List.not_mem_nil, ?_⟩
    rintro ⟨e, -, he⟩
    split at he
    · exact absurd he.symm hne
    · exact absurd he ‹_›
  · by_cases hsv : r = survivor
    · subst hsv
      rw [h.linksAt_survivor, List.mem_append, hs.called, hs.called]
      constructor
      · rintro (⟨e, he, hroot⟩ | ⟨e, he, hroot⟩)
        · exact ⟨e, he, by rw [hroot, if_neg hl]⟩
        · exact ⟨e, he, if_pos hroot⟩
      · rintro ⟨e, he, hroot⟩
        split at hroot
        · exact .inr ⟨e, he, ‹_›⟩
        · exact .inl ⟨e, he, hroot⟩
    · rw [h.linksAt_other r hl hsv, hs.called]
      refine exists_congr fun e => and_congr_right fun _ => ?_
      split
      · next hroot => exact ⟨fun he => absurd (he.symm.trans hroot) hl,
          fun he => absurd he.symm hsv⟩
      · exact Iff.rfl

theorem unifyRoots (hs : Tallied callees s) {a b survivor : Nat}
    (h : s.unifyRoots a b = .ok (survivor, t)) : Tallied callees t := by
  obtain ⟨loser, hsurvivor, hne, hunified⟩ := unified_of_unifyRoots hs.forest hs.links_size h
  have hfollows := hunified.follows hsurvivor hne
  have hquiet := quiet_unifyRoots h
  refine ⟨hunified.joined.forest, ?_, by rw [hquiet.calls_eq, hs.calls_size],
    hs.called_of_unified hunified hne, fun c o ho => ?_, fun o ho => ?_, ?_, ?_⟩
  · rw [hunified.links_size, hs.links_size, hfollows.same.size_eq]
  · rw [Bound, hquiet.calls_eq] at ho
    obtain ⟨e, he, hmem⟩ := hs.bound c o ho
    exact ⟨e, he, hfollows.grows e o hmem⟩
  · rw [hquiet.exposed_eq] at ho
    rw [hfollows.same.kindOf_eq]
    exact ⟨(hs.exposed o ho).1, hfollows.grows _ o (hs.exposed o ho).2⟩
  · rw [hquiet.callsBound_eq, hquiet.calls_eq, hs.callsBound_eq]
  · rw [hquiet.escapedFunctions_eq, hquiet.exposed_eq, hs.escaped_eq]

theorem take (hs : Tallied callees s) {root : Nat} {queue : List Nat} {stats : Stats}
    (hbound : stats.callsBound = s.stats.callsBound)
    (hescaped : stats.escapedFunctions = s.stats.escapedFunctions) :
    Tallied callees (s.take root queue stats) := by
  have htaken : Tallied callees { s with queue, stats } :=
    ⟨hs.forest, hs.links_size, hs.calls_size, hs.called, hs.bound, hs.exposed,
      hbound.trans hs.callsBound_eq, hescaped.trans hs.escaped_eq⟩
  unfold State.take
  dsimp only
  split
  · exact htaken.plain (plain_modifyLinks fun l => rfl)
  · exact htaken

/-- **Taking a root keeps the tally.** -/
theorem step {order : SetOrder} (hs : Tallied callees s)
    (hfresh : ∀ r o, o ∈ (s.linksAt r).fresh → o ∈ s.pool.stored r)
    (h : s.step order = .ok t) : Tallied callees t := by
  unfold State.step at h
  split at h
  · rwa [← Except.ok.inj h]
  · next next queue hpop =>
      obtain ⟨root, hroot, h⟩ := bind_eq_ok.1 h
      obtain ⟨-, rfl, -⟩ := Pool.root_handle_eq_ok.1 hroot
      dsimp only at h
      rw [process_eq order (s.pool.rootOf next) queue _ rfl] at h
      simp only [bind_eq_ok] at h
      obtain ⟨-, -, u, hu, -, -, h⟩ := h
      have htaken : Tallied callees (s.take (s.pool.rootOf next) queue
        { s.stats with iterations := s.stats.iterations + 1 }) := hs.take rfl rfl
      have hhandled : Tallied callees u := by
        split at hu
        · rwa [← pure_eq_ok.1 hu]
        · refine htaken.conditionals (fun o ho => ?_) hu
          rw [pool_take]
          exact stored_of_waiting hfresh (SetOrder.mem_arrange.1 ho)
      exact flowAll_induction
        (fun v _ hv => ⟨hv.forest, hv.links_size, hv.calls_size, hv.called,
          hv.bound, hv.exposed, hv.callsBound_eq, hv.escaped_eq⟩)
        (fun _ _ _ _ _ hv hok => hv.unifyRoots hok)
        (fun _ _ _ _ _ hv hplain _ => hv.plain hplain) hhandled h

/-- **A run keeps the tally.** -/
theorem pops {p base : Pool} {T : Family} {order : SetOrder} {k : Nat}
    (hs : Tallied callees s) (hsteady : Steady base T (s.restrict p))
    (hown : ∀ x, s.pool.Owns x ↔ p.Owns x) (h : Pops order k s t) : Tallied callees t := by
  induction h with
  | zero s => exact hs
  | @succ k s t u hqueue hok _ ih =>
      have hfresh : ∀ r o, o ∈ (s.linksAt r).fresh → o ∈ s.pool.stored r := by
        intro r o ho
        have hsub := hsteady.valid.fresh_sub r o
        rw [linksAt_restrict, pool_restrict, Pool.stored_restrict] at hsub
        exact hsub ho
      obtain ⟨hsteady', -, -, hown'⟩ := hsteady.pops_restrict hown (.succ hqueue hok (.zero t))
      exact ih (hs.step hfresh hok) hsteady' hown'

end Tallied

/-! ## Seeding -/

theorem tallied_start (settings : Settings) {p : Pool} (hp : p.Forest) :
    Tallied [] (start settings p) where
  forest := hp
  links_size := Array.size_replicate
  calls_size := rfl
  called r c := by simp [linksAt_start]
  bound c o h := by
    obtain ⟨entry, hentry, -⟩ := h
    exact absurd hentry (by simp [start])
  exposed o h := absurd h (IndexSet.not_mem_empty o)
  callsBound_eq := rfl
  escaped_eq := rfl

theorem getElem?_concat_eq_some {α : Type} {xs : List α} {x y : α} {i : Nat} :
    (xs ++ [x])[i]? = some y ↔ xs[i]? = some y ∨ i = xs.length ∧ x = y := by
  rcases Nat.lt_trichotomy i xs.length with hi | rfl | hi
  · simp [List.getElem?_append_left hi, hi.ne]
  · simp
  · have hout : xs[i]? = none := List.getElem?_eq_none hi.le
    have hout' : (xs ++ [x])[i]? = none := List.getElem?_eq_none (by
      rw [List.length_append, List.length_singleton]
      omega)
    simp [hout, hout', hi.ne']

/-- A call site waits at the root of its callee and has not been bound to anything. -/
theorem Tallied.enlist (hs : Tallied callees s) {e : Nat} (he : e < s.pool.size)
    (site : CallSite) : Tallied (callees ++ [e]) (s.enlist (s.pool.rootOf e) site) := by
  have hlt : s.pool.rootOf e < s.links.size := hs.links_size ▸ hs.forest.rootOf_lt he
  have hcalls : ∀ r c, c ∈ ((s.modifyLinks (s.pool.rootOf e) fun l =>
      { l with calls := l.calls ++ [s.calls.size] }).linksAt r).calls ↔
      c ∈ (s.linksAt r).calls ∨ r = s.pool.rootOf e ∧ c = callees.length := by
    intro r c
    rw [linksAt_modifyLinks hlt, ← hs.calls_size]
    by_cases hr : r = s.pool.rootOf e
    · simp [hr]
    · simp [hr]
  have hbare : Tallied (callees ++ [e]) { s.modifyLinks (s.pool.rootOf e) fun l =>
      { l with calls := l.calls ++ [s.calls.size] } with
      calls := s.calls.push ⟨site, .empty⟩ } := by
    refine ⟨hs.forest, size_links_modifyLinks.trans hs.links_size, ?_, fun r c => ?_,
      fun c o hb => ?_, hs.exposed, ?_, hs.escaped_eq⟩
    · rw [Array.size_push, List.length_append, hs.calls_size]
      rfl
    · refine (hcalls r c).trans ?_
      simp only [hs.called, getElem?_concat_eq_some]
      constructor
      · rintro (⟨x, hx, hroot⟩ | ⟨rfl, rfl⟩)
        · exact ⟨x, .inl hx, hroot⟩
        · exact ⟨e, .inr ⟨rfl, rfl⟩, rfl⟩
      · rintro ⟨x, hx | ⟨rfl, rfl⟩, hroot⟩
        · exact .inl ⟨x, hx, hroot⟩
        · exact .inr ⟨hroot.symm, rfl⟩
    · obtain ⟨entry, hentry, ho⟩ := hb
      rw [Array.getElem?_push] at hentry
      split at hentry
      · obtain rfl := Option.some_injective _ hentry
        exact absurd ho (IndexSet.not_mem_empty o)
      · obtain ⟨x, hx, hmem⟩ := hs.bound c o ⟨entry, hentry, ho⟩
        exact ⟨x, getElem?_concat_eq_some.2 (.inl hx), hmem⟩
    · rw [Array.toList_push, List.map_append, List.sum_append]
      exact hs.callsBound_eq
  exact hbare.plain (plain_push _ _)

theorem tallied_seed {settings : Settings} {p : Pool} (hp : p.Forest)
    {constraints : List Constraint} (h : seed settings p constraints = .ok s) :
    Tallied (calleesOf constraints) s := by
  obtain ⟨s₀, hplant, h⟩ := seed_eq_ok.1 h
  refine foldlM_prefix (I := fun done u => Tallied (calleesOf done) u) (k := [])
    (fun done u c v hu hv => ?_)
    ((tallied_start settings hp).plain (plain_plant hplant)) h
  rw [calleesOf_concat]
  rcases addConstraint_cases hv with ⟨hplain, hc⟩ | ⟨callee, site, rfl, hcallee, rfl⟩
  · rw [hc]
    simpa using hu.plain hplain
  · exact hu.enlist hcallee.2 site

/-! ## The end of a run -/

/-- A run takes roots until the worklist is empty or it may take no more. -/
theorem exists_pops {order : SetOrder} {bound : Nat} (h : s.propagate order bound = .ok t) :
    ∃ k, Pops order k s t ∧ (t.queue ≠ [] → k = bound) := by
  induction bound generalizing s with
  | zero =>
      obtain rfl := Except.ok.inj h
      exact ⟨0, .zero s, fun _ => rfl⟩
  | succ bound ih =>
      rw [propagate] at h
      split at h
      · next hempty =>
          obtain rfl := Except.ok.inj h
          exact ⟨0, .zero s, fun hne => absurd (List.isEmpty_iff.1 hempty) hne⟩
      · next hne =>
          obtain ⟨u, hu, h⟩ := bind_eq_ok.1 h
          obtain ⟨k, hpops, hk⟩ := ih h
          exact ⟨k + 1, .succ (fun he => hne (List.isEmpty_iff.2 he)) hu hpops,
            fun hqueue => by rw [hk hqueue]⟩

/-- No more roots are taken than there is work left. -/
theorem Steady.pops_le {base : Pool} {T : Family} {order : SetOrder} {k : Nat}
    (hs : Steady base T s) (h : Pops order k s t) : k ≤ s.work := by
  induction h with
  | zero s => exact Nat.zero_le _
  | succ hqueue hok _ ih =>
      obtain ⟨v, hv, hsteady, -, hwork⟩ := hs.step order hqueue
      obtain rfl := Except.ok.inj (hok.symm.trans hv)
      have hrest := ih hsteady
      omega

/-- With an empty worklist every site has been bound to all that its callee points to,
and every function that external memory points to has been exposed, so the counters
say how many there are. -/
theorem Tallied.counters (hs : Tallied callees s)
    (hbound : ∀ e, ∀ o ∈ s.pool.family e, ∀ c ∈ (s.linksAt (s.pool.rootOf e)).calls,
      s.Bound c o)
    (hexposed : ∀ o ∈ s.pool.family Pool.external,
      s.pool.kindOf o = .functionObject → o ∈ s.exposed) :
    s.stats.callsBound = (callees.map fun e => (s.pool.pointsTo e).size).sum ∧
    s.stats.escapedFunctions = ((s.pool.pointsTo Pool.external).filter fun o =>
      s.pool.kindOf o = .functionObject).size := by
  constructor
  · rw [hs.callsBound_eq]
    refine congrArg List.sum (List.ext_getElem? fun c => ?_)
    rw [List.getElem?_map, List.getElem?_map, Array.getElem?_toList]
    cases hc : s.calls[c]? with
    | none =>
        have hlen : callees.length ≤ c := hs.calls_size ▸ Array.getElem?_eq_none_iff.1 hc
        rw [List.getElem?_eq_none hlen]
        rfl
    | some entry =>
        have hlt : c < callees.length := hs.calls_size ▸ (Array.getElem?_eq_some_iff.1 hc).1
        have hcallee : callees[c]? = some callees[c] := List.getElem?_eq_getElem hlt
        have hsame : entry.bound = s.pool.pointsTo callees[c] := by
          refine IndexSet.ext_mem fun o => ⟨fun ho => ?_, fun ho => ?_⟩
          · obtain ⟨e, he, hmem⟩ := hs.bound c o ⟨entry, hc, ho⟩
            obtain rfl := Option.some_injective _ (hcallee.symm.trans he)
            exact hmem
          · obtain ⟨entry', hentry, hmem⟩ :=
              hbound _ o ho c ((hs.called _ c).2 ⟨_, hcallee, rfl⟩)
            obtain rfl := Option.some_injective _ (hc.symm.trans hentry)
            exact hmem
        rw [hcallee, Option.map_some, Option.map_some, hsame]
  · rw [hs.escaped_eq]
    refine congrArg IndexSet.size (IndexSet.ext_mem fun o => ?_)
    rw [IndexSet.mem_filter, decide_eq_true_eq]
    exact ⟨fun ho => ⟨(hs.exposed o ho).2, (hs.exposed o ho).1⟩,
      fun ho => hexposed o ho.1 ho.2⟩

end State

open State

section Solved

variable {p out : Pool} {constraints : List Constraint} {settings : Settings}
  {order : SetOrder} {stats : Stats}

/-- A run that goes through ends with an empty worklist. -/
theorem pops_of_solve (hp : (p.restrict p).Ready) (hsentinels : p.HasSentinels)
    (hok : solve settings order p constraints = .ok (out, stats)) :
    ∃ s t k, seed settings p constraints = .ok s ∧ Pops order k s t ∧ t.queue = [] ∧
      out = t.pool ∧ stats = t.report := by
  simp only [solve, bind_eq_ok, pure_eq_ok, Prod.mk.injEq] at hok
  obtain ⟨s, hseed, t, hrun, rfl, rfl⟩ := hok
  obtain ⟨k, hpops, hbound⟩ := exists_pops hrun
  refine ⟨s, t, k, hseed, hpops, ?_, rfl, rfl⟩
  obtain ⟨hseeding, -, -, hsame, hwork⟩ := seed_restrict hp hsentinels (above_univ _)
    ((solution_univ _ _).beyond _) hseed
  obtain ⟨-, -, hpops', -⟩ := hseeding.steady.pops_restrict (fun _ => hsame.owns_iff) hpops
  by_contra hqueue
  have hle := hseeding.steady.pops_le hpops'
  have hk := hbound hqueue
  omega

/-- What holds at the end of a run over an untouched pool, seen from the restricted run. -/
theorem ends_of_solve (hp : p.Untouched) (hsentinels : p.HasSentinels) {T : Family}
    (hT : Solution (p.restrict p) (p.ownConstraints constraints) T)
    (hok : solve settings order p constraints = .ok (out, stats)) :
    ∃ t, Steady (p.restrict p) T (t.restrict p) ∧
      Holds (p.restrict p) (p.ownConstraints constraints) (t.restrict p) ∧
      Tallied (calleesOf constraints) t ∧ t.queue = [] ∧ out = t.pool ∧ stats = t.report := by
  have hfresh := hp.fresh_restrict hsentinels
  obtain ⟨s, t, k, hseed, hpops, hqueue, hout, hstats⟩ :=
    pops_of_solve hfresh.ready hsentinels hok
  obtain ⟨hseeding, -, hholds, hsame, -⟩ := seed_restrict hfresh.ready hsentinels
    (.of_fresh hfresh T) (hT.beyond _) hseed
  have hown : ∀ x, s.pool.Owns x ↔ p.Owns x := fun _ => hsame.owns_iff
  obtain ⟨hsteady, hkeeps, -, -⟩ := hseeding.steady.pops_restrict hown hpops
  exact ⟨t, hsteady, hholds.keep hkeeps,
    (tallied_seed hp.forest hseed).pops hseeding.steady hown hpops, hqueue, hout, hstats⟩

/-- Nothing points anywhere in an untouched pool, so nothing is missed. -/
theorem missed_of_untouched (hp : p.Untouched) (hsentinels : p.HasSentinels)
    (settings : Settings) : settings.missed (p.restrict p) ≤ ⊥ :=
  Settings.missed_le.trans (Family.Above.of_fresh (hp.fresh_restrict hsentinels) ⊥).le

/-- **A run over an untouched pool that goes through computes the least solution** of the
constraints without the handles of other pools. -/
theorem isLeast_of_untouched (hp : p.Untouched) (hsentinels : p.HasSentinels)
    (hok : solve settings order p constraints = .ok (out, stats)) :
    IsLeast {T | Solution (p.restrict p) (p.ownConstraints constraints) T} out.family := by
  refine ⟨?_, fun T hT e o ho => ?_⟩
  · obtain ⟨t, hsteady, hholds, -, hqueue, rfl, -⟩ :=
      ends_of_solve hp hsentinels (solution_univ _ _) hok
    have hsolution := hsteady.solution hqueue hholds
    have hmissed := missed_of_untouched hp hsentinels (t.restrict p).settings
    have hfamily : (t.restrict p).pool.family = t.pool.family := by
      funext e
      ext o
      simp only [Pool.mem_family, pool_restrict, Pool.pointsTo_restrict]
    rw [← hfamily]
    exact solutionBeyond_bot.1 (hsolution.mono fun e _ => hmissed e)
  · obtain ⟨t, hsteady, -, -, -, rfl, -⟩ := ends_of_solve hp hsentinels hT hok
    have hbelow := hsteady.valid.below
    rw [← hbelow.uniform e]
    refine hbelow.stored _ o ?_
    simp only [pool_restrict, Pool.stored_restrict, Pool.rootOf_restrict]
    exact ho

/-- The two counters at the end of a run over an untouched pool. -/
theorem counters_of_untouched (hp : p.Untouched) (hsentinels : p.HasSentinels)
    (hok : solve settings order p constraints = .ok (out, stats)) :
    stats.callsBound = ((calleesOf constraints).map fun e => (out.pointsTo e).size).sum ∧
    stats.escapedFunctions = ((out.pointsTo Pool.external).filter fun o =>
      out.kindOf o = .functionObject).size ∧
    ∀ o, out.kindOf o = p.kindOf o := by
  obtain ⟨t, hsteady, hholds, htallied, hqueue, rfl, rfl⟩ :=
    ends_of_solve hp hsentinels (solution_univ _ _) hok
  have hhandled : ∀ e, ∀ o ∈ t.pool.family e, (t.restrict p).Handled (t.pool.rootOf e) o := by
    intro e o ho
    have hmem : o ∈ (t.restrict p).pool.family e := by
      rw [Pool.mem_family, pool_restrict, Pool.pointsTo_restrict]
      exact ho
    have hhandled := hsteady.handled hqueue hmem fun hmissed =>
      (missed_of_untouched hp hsentinels _ e hmissed)
    rwa [pool_restrict, Pool.rootOf_restrict] at hhandled
  have hkinds : ∀ o, t.pool.kindOf o = p.kindOf o := by
    intro o
    have hkind : (t.pool.restrict p).kindOf o = (p.restrict p).kindOf o :=
      hholds.same.kindOf_eq o
    rwa [Pool.kindOf_restrict, Pool.kindOf_restrict] at hkind
  rw [← and_assoc]
  refine ⟨htallied.counters (fun e o ho c hc => ?_) fun o ho hkind => ?_, hkinds⟩
  · obtain ⟨entry, hentry, hmem⟩ :=
      (hhandled e o ho).calls c (by rw [linksAt_restrict]; exact hc)
    rw [calls_restrict] at hentry
    obtain ⟨whole, hwhole, rfl⟩ := Option.map_eq_some_iff.1 hentry
    exact ⟨whole, hwhole, hmem⟩
  · refine (hhandled _ o ho).exposed ?_ ?_
    · rw [pool_restrict, Pool.rootOf_restrict]
    · rw [pool_restrict, Pool.kindOf_restrict]
      exact hkind

end Solved

/-- **Every call site is bound to every callee once.**  Over an untouched pool the counter of
bound calls is the number of pairs of a call and an object that its callee points to, and that
of escaped functions the number of functions that external memory points to.  So both are the
same with every strategy and in every order of the sets. -/
theorem counters_of_solve (p : Pool) (hp : p.Untouched) (hsentinels : p.HasSentinels)
    (constraints : List Constraint) :
    (p.Closed → (∀ c ∈ constraints, c.Over p) → ∀ settings order, ∃ out stats,
      solve settings order p constraints = .ok (out, stats)) ∧
    ∀ settings order out stats, solve settings order p constraints = .ok (out, stats) →
      stats.callsBound = ((calleesOf constraints).map fun e => (out.pointsTo e).size).sum ∧
      stats.escapedFunctions = ((out.pointsTo Pool.external).filter fun o =>
        out.kindOf o = .functionObject).size ∧
      ∀ settings' order' out' stats', solve settings' order' p constraints =
        .ok (out', stats') →
        stats'.callsBound = stats.callsBound ∧
        stats'.escapedFunctions = stats.escapedFunctions := by
  refine ⟨fun hclosed hc settings order => ?_, fun settings order out stats hok => ?_⟩
  · have hfresh : p.Fresh := ⟨hclosed, hp.alone, hp.points_nowhere⟩
    obtain ⟨out, stats, hok, -⟩ :=
      solve_within settings order hfresh hc (solution_univ p constraints)
    exact ⟨out, stats, hok⟩
  obtain ⟨hbound, hescaped, hkinds⟩ := counters_of_untouched hp hsentinels hok
  refine ⟨hbound, hescaped, fun settings' order' out' stats' hok' => ?_⟩
  obtain ⟨hbound', hescaped', hkinds'⟩ := counters_of_untouched hp hsentinels hok'
  -- both runs end in the least solution
  have hfamily : out'.family = out.family :=
    (isLeast_of_untouched hp hsentinels hok').unique (isLeast_of_untouched hp hsentinels hok)
  have hsets : ∀ e, out'.pointsTo e = out.pointsTo e := fun e =>
    IndexSet.ext_mem fun o => Set.ext_iff.1 (congrFun hfamily e) o
  simp only [hbound, hescaped, hbound', hescaped', hsets, hkinds, hkinds', and_self]

/-- Two calls of a register that points to an object and to a function, which escapes. -/
theorem counters_of_solve_cyclicPool : cyclicPool.Untouched ∧ cyclicPool.HasSentinels ∧
    ∃ out stats, solve ⟨true, .lifo, true⟩ .ascending cyclicPool
        (.call ⟨0, 3⟩ ⟨[], [some ⟨0, 5⟩]⟩ :: cyclicConstraints) = .ok (out, stats) ∧
      stats.callsBound = 4 ∧ stats.escapedFunctions = 1 ∧
      stats.callsBound = ([3, 3].map fun e => (out.pointsTo e).size).sum ∧
      stats.escapedFunctions = ((out.pointsTo Pool.external).filter fun o =>
        out.kindOf o = .functionObject).size ∧
      ∀ settings' order' out' stats', solve settings' order' cyclicPool
          (.call ⟨0, 3⟩ ⟨[], [some ⟨0, 5⟩]⟩ :: cyclicConstraints) = .ok (out', stats') →
        stats'.callsBound = stats.callsBound ∧
        stats'.escapedFunctions = stats.escapedFunctions := by
  have hfresh : cyclicPool.Fresh := by decide
  have huntouched : cyclicPool.Untouched := ⟨hfresh.alone, hfresh.points_nowhere⟩
  have hsentinels : cyclicPool.HasSentinels := ⟨by decide, by decide⟩
  have hrun : (solve ⟨true, .lifo, true⟩ .ascending cyclicPool
      (.call ⟨0, 3⟩ ⟨[], [some ⟨0, 5⟩]⟩ :: cyclicConstraints)).toOption.map
        (fun result => (result.2.callsBound, result.2.escapedFunctions)) = some (4, 1) := by
    decide +kernel
  obtain ⟨⟨out, stats⟩, hok, hcounts⟩ := Option.map_eq_some_iff.1 hrun
  obtain ⟨hbound, hescaped⟩ := Prod.mk.inj hcounts
  obtain ⟨-, hcounters⟩ := counters_of_solve cyclicPool huntouched hsentinels
    (.call ⟨0, 3⟩ ⟨[], [some ⟨0, 5⟩]⟩ :: cyclicConstraints)
  exact ⟨huntouched, hsentinels, out, stats, toOption_eq_some.1 hok, hbound, hescaped,
    hcounters _ _ out stats (toOption_eq_some.1 hok)⟩

end Inclusion
end PointerChannels
