import PointerChannels.Proofs.Inclusion.Edge

/-!
# Loads, stores and calls through a root

When a root has come to point to objects, the values stored through it flow into the objects,
what the objects hold flows into the values loaded through it, its call sites are bound to the
objects, and, if it is the root of external memory, functions among the objects are exposed.
All of this makes edges and nothing else, so all of it keeps a valid state valid; afterwards
the objects are handled.
-/

namespace PointerChannels.Inclusion.State

variable {s t u : State} {base : Pool} {T : Family}

/-! ## What calls ask for -/

/-- A family binds a call site exactly when it respects the edges of the binding. -/
theorem binds_iff_callEdges {external : Handle} (hext : external.index = Pool.external)
    {site : CallSite} {signature : Option Signature} :
    T.Binds site signature ↔
      ∀ e ∈ callEdges external site signature, T e.2.index ⊆ T e.1.index := by
  cases signature with
  | none =>
      simp only [Family.Binds, callEdges, List.mem_append, List.mem_map, mem_present]
      constructor
      · rintro ⟨harguments, hresults⟩ e (⟨x, hx, rfl⟩ | ⟨x, hx, rfl⟩)
        · exact hext ▸ harguments x hx
        · exact hext ▸ hresults x hx
      · intro h
        exact ⟨fun x hx => hext ▸ h (external, x) (.inl ⟨x, hx, rfl⟩),
          fun x hx => hext ▸ h (x, external) (.inr ⟨x, hx, rfl⟩)⟩
  | some signature =>
      simp only [Family.Binds, callEdges, List.mem_append]
      constructor
      · rintro ⟨harguments, hresults⟩ ⟨x, y⟩ (h | h)
        · obtain ⟨i, hparam, hargument⟩ := mem_paired.1 h
          exact harguments i y x hargument hparam
        · obtain ⟨i, hresult, hreturned⟩ := mem_paired.1 h
          exact hresults i x y hresult hreturned
      · intro h
        exact ⟨fun i x y hx hy => h (y, x) (.inl (mem_paired.2 ⟨i, hy, hx⟩)),
          fun i x y hx hy => h (x, y) (.inr (mem_paired.2 ⟨i, hx, hy⟩))⟩

theorem exposes_iff_exposureEdges {external : Handle} (hext : external.index = Pool.external)
    {signature : Signature} :
    T.Exposes signature ↔
      ∀ e ∈ exposureEdges external (some signature), T e.2.index ⊆ T e.1.index := by
  simp only [Family.Exposes, exposureEdges, List.mem_append, List.mem_map, mem_present]
  constructor
  · rintro ⟨hparams, hresults⟩ e (⟨x, hx, rfl⟩ | ⟨x, hx, rfl⟩)
    · exact hext ▸ hparams x hx
    · exact hext ▸ hresults x hx
  · intro h
    exact ⟨fun x hx => hext ▸ h (x, external) (.inl ⟨x, hx, rfl⟩),
      fun x hx => hext ▸ h (external, x) (.inr ⟨x, hx, rfl⟩)⟩

theorem owns_callEdges {p : Pool} (hp : p.Closed) {site : CallSite} (hsite : site.Over p)
    {o : Nat} {e : Handle × Handle}
    (he : e ∈ callEdges (p.handle Pool.external) site (p.calleeSignature? o)) :
    p.Owns e.1 ∧ p.Owns e.2 := by
  have hext := Pool.owns_handle hp.external_object.1
  cases hsig : p.calleeSignature? o with
  | none =>
      rw [hsig] at he
      simp only [callEdges, List.mem_append, List.mem_map, mem_present] at he
      rcases he with ⟨x, hx, rfl⟩ | ⟨x, hx, rfl⟩
      · exact ⟨hext, hsite.arguments x hx⟩
      · exact ⟨hsite.results x hx, hext⟩
  | some signature =>
      rw [hsig] at he
      have hsig' := Pool.signature?_of_calleeSignature? hsig
      rcases List.mem_append.1 he with he | he
      · exact owns_of_mem_paired (fun h => hp.owns_params hsig') hsite.arguments he
      · exact owns_of_mem_paired hsite.results (fun h => hp.owns_results hsig') he

theorem owns_exposureEdges {p : Pool} (hp : p.Closed) {o : Nat} {e : Handle × Handle}
    (he : e ∈ exposureEdges (p.handle Pool.external) (p.signature? o)) :
    p.Owns e.1 ∧ p.Owns e.2 := by
  have hext := Pool.owns_handle hp.external_object.1
  cases hsig : p.signature? o with
  | none => simp [hsig, exposureEdges] at he
  | some signature =>
      rw [hsig] at he
      simp only [exposureEdges, List.mem_append, List.mem_map, mem_present] at he
      rcases he with ⟨x, hx, rfl⟩ | ⟨x, hx, rfl⟩
      · exact ⟨hp.owns_params hsig hx, hext⟩
      · exact ⟨hext, hp.owns_results hsig hx⟩

/-! ## Binding and exposing -/

theorem Obliged.edged (hs : s.Obliged) {edges : List (Handle × Handle)}
    (h : Edged base T s t edges) : t.Obliged :=
  h.ext.obliged hs (fun hc => .inl (h.calls_eq ▸ hc)) h.exposed_eq

/-- Note that a call site has been bound to a callee. -/
def noteBound (s : State) (call callee : Nat) : State :=
  { s with
    calls := s.calls.modify call fun c => { c with bound := c.bound.insert callee }
    stats := { s.stats with callsBound := s.stats.callsBound + 1 } }

theorem calls_noteBound (call callee c : Nat) : (s.noteBound call callee).calls[c]? =
    s.calls[c]?.map fun entry =>
      if call = c then { entry with bound := entry.bound.insert callee } else entry := by
  simp only [noteBound, Array.getElem?_modify]
  by_cases h : call = c
  · simp [h]
  · simp [h]

theorem site_noteBound (call callee c : Nat) :
    (s.noteBound call callee).calls[c]?.map BoundCall.site =
    s.calls[c]?.map BoundCall.site := by
  rw [calls_noteBound]
  cases s.calls[c]? with
  | none => rfl
  | some entry => simp only [Option.map_some]; split <;> rfl

theorem extends_noteBound (s : State) (call callee : Nat) :
    Extends s (s.noteBound call callee) := by
  refine ⟨⟨⟨rfl, .refl _, fun _ _ h => h, fun _ _ h => h, fun _ _ h => h, fun _ _ h => h,
    fun _ _ h => h, fun _ _ h => h, fun c x hx => (site_noteBound call callee c).trans hx,
    fun c o hb => ?_, fun _ h => h⟩, fun r o ho => ?_⟩, fun _ => rfl, fun _ => rfl,
    fun _ => rfl, fun _ => rfl⟩
  · obtain ⟨entry, hc, ho⟩ := hb
    refine ⟨_, by rw [calls_noteBound, hc, Option.map_some], ?_⟩
    split
    · exact IndexSet.mem_insert.2 (.inr ho)
    · exact ho
  · exact ⟨ho, fun _ h => h, rfl, rfl, rfl, fun _ h => .inl h⟩

theorem grown_noteBound (hs : s.Valid base T) (call callee : Nat) :
    Grown base T s (s.noteBound call callee) :=
  ⟨hs.extend rfl (.refl _) hs.forest (fun _ => rfl) (fun _ _ h => h) rfl
    (fun _ _ h => .inl h) (fun _ _ h => .inl h) (fun _ _ h => .inl h) (fun _ _ h => .inl h)
    (fun _ _ h => .inl h) (site_noteBound call callee) hs.queue_lt hs.fresh_sub hs.fresh_waits
    (fun _ _ h => .inl h), extends_noteBound s call callee, le_rfl⟩

/-- A call site that is noted as bound to a callee and given the edges of the binding. -/
theorem Obliged.noteBound (ho : s.Obliged) {call callee : Nat} {entry : BoundCall}
    (hentry : s.calls[call]? = some entry) (hext : Extends (s.noteBound call callee) t)
    (hcalls : t.calls = (s.noteBound call callee).calls)
    (hexposed : t.exposed = (s.noteBound call callee).exposed)
    (hlinked :
      t.Linked (callEdges s.externalHandle entry.site (s.pool.calleeSignature? callee))) :
    t.Obliged where
  bound {c o entry'} hc hmem := by
    have hall := (extends_noteBound s call callee).trans hext
    rw [hall.externalHandle_eq, hall.same.calleeSignature?_eq]
    rw [hcalls, calls_noteBound] at hc
    obtain ⟨old, hold, rfl⟩ := Option.map_eq_some_iff.1 hc
    by_cases hcall : call = c
    · subst hcall
      rw [hentry, Option.some.injEq] at hold
      subst hold
      rw [if_pos rfl] at hmem ⊢
      rcases IndexSet.mem_insert.1 hmem with rfl | hmem
      · exact hlinked
      · have hold := ho.bound hentry hmem
        exact hall.linked hold
    · rw [if_neg hcall] at hmem ⊢
      exact hall.linked (ho.bound hold hmem)
  exposed {o} hmem := by
    have hall := (extends_noteBound s call callee).trans hext
    rw [hall.externalHandle_eq, hall.same.signature?_eq]
    rw [hexposed] at hmem
    exact hall.linked (ho.exposed hmem)

/-- Binding a call site to a callee. -/
theorem Valid.bindCall (hs : s.Valid base T) (ho : s.Obliged) {call callee : Nat}
    {entry : BoundCall} (hentry : s.calls[call]? = some entry) (hcallee : callee < s.pool.size)
    (hT : T.Binds entry.site (s.pool.calleeSignature? callee)) :
    ∃ t, s.bindCall call callee = .ok t ∧ Grown base T s t ∧ t.Obliged ∧
      t.Bound call callee := by
  simp only [State.bindCall, entryAt_eq_ok.2 hentry, Pool.check_of_lt hcallee,
    bind, Except.bind]
  by_cases hin : callee ∈ entry.bound
  · rw [if_pos hin]
    exact ⟨s, rfl, ⟨hs, .refl s, le_rfl⟩, ho, entry, hentry, hin⟩
  rw [if_neg hin]
  have hnoted := grown_noteBound hs call callee
  have hown : ∀ e ∈ callEdges s.externalHandle entry.site (s.pool.calleeSignature? callee),
      s.pool.Owns e.1 ∧ s.pool.Owns e.2 :=
    fun e he => owns_callEdges hs.closed (hs.sites call entry hentry) he
  obtain ⟨t, hok, hedged⟩ := hnoted.valid.addEdges hown ((binds_iff_callEdges rfl).1 hT)
  have hbound : (s.noteBound call callee).Bound call callee :=
    ⟨_, by rw [calls_noteBound, hentry, Option.map_some, if_pos rfl],
      IndexSet.mem_insert.2 (.inl rfl)⟩
  exact ⟨t, hok, hnoted.trans hedged.toGrown,
    ho.noteBound hentry hedged.ext hedged.calls_eq hedged.exposed_eq hedged.linked,
    hedged.ext.bound _ _ hbound⟩

/-- Note that a function is called from outside. -/
def noteExposed (s : State) (object : Nat) : State :=
  { s with
    exposed := s.exposed.insert object
    stats := { s.stats with escapedFunctions := s.stats.escapedFunctions + 1 } }

theorem extends_noteExposed (s : State) (object : Nat) : Extends s (s.noteExposed object) := by
  refine ⟨⟨⟨rfl, .refl _, fun _ _ h => h, fun _ _ h => h, fun _ _ h => h, fun _ _ h => h,
    fun _ _ h => h, fun _ _ h => h, fun _ _ h => h, fun _ _ h => h,
    fun o ho => IndexSet.mem_insert.2 (.inr ho)⟩, fun r o ho => ?_⟩, fun _ => rfl,
    fun _ => rfl, fun _ => rfl, fun _ => rfl⟩
  exact ⟨ho, fun _ h => h, rfl, rfl, rfl, fun _ h => .inl h⟩

theorem grown_noteExposed (hs : s.Valid base T) (object : Nat) :
    Grown base T s (s.noteExposed object) :=
  ⟨hs.extend rfl (.refl _) hs.forest (fun _ => rfl) (fun _ _ h => h) rfl
    (fun _ _ h => .inl h) (fun _ _ h => .inl h) (fun _ _ h => .inl h) (fun _ _ h => .inl h)
    (fun _ _ h => .inl h) (fun _ => rfl) hs.queue_lt hs.fresh_sub hs.fresh_waits
    (fun _ _ h => .inl h), extends_noteExposed s object, le_rfl⟩

/-- A function that is noted as called from outside and given its edges. -/
theorem Obliged.noteExposed (ho : s.Obliged) {object : Nat}
    (hext : Extends (s.noteExposed object) t) (hcalls : t.calls = (s.noteExposed object).calls)
    (hexposed : t.exposed = (s.noteExposed object).exposed)
    (hlinked : t.Linked (exposureEdges s.externalHandle (s.pool.signature? object))) :
    t.Obliged where
  bound {c o entry} hc hmem := by
    have hall := (extends_noteExposed s object).trans hext
    rw [hall.externalHandle_eq, hall.same.calleeSignature?_eq]
    rw [hcalls] at hc
    exact hall.linked (ho.bound hc hmem)
  exposed {o} hmem := by
    have hall := (extends_noteExposed s object).trans hext
    rw [hall.externalHandle_eq, hall.same.signature?_eq]
    rw [hexposed] at hmem
    rcases IndexSet.mem_insert.1 hmem with rfl | hmem
    · exact hlinked
    · exact hall.linked (ho.exposed hmem)

/-- Exposing an object that external memory points to. -/
theorem Valid.expose (hs : s.Valid base T) (ho : s.Obliged) {object : Nat}
    (hobject : object < s.pool.size) (hT : object ∈ T Pool.external)
    (hnot : object ∉ s.exempt base (s.pool.rootOf Pool.external)) :
    ∃ t, s.expose object = .ok t ∧ Grown base T s t ∧ t.Obliged ∧
      (s.pool.kindOf object = .functionObject → object ∈ t.exposed) := by
  simp only [State.expose, Pool.check_of_lt hobject, bind, Except.bind]
  by_cases hskip : s.pool.kindOf object ≠ .functionObject ∨ object ∈ s.exposed
  · rw [if_pos hskip]
    exact ⟨s, rfl, ⟨hs, .refl s, le_rfl⟩, ho, fun hk => hskip.resolve_left (not_not.2 hk)⟩
  rw [if_neg hskip]
  have hkind : s.pool.kindOf object = .functionObject := by
    by_contra hk
    exact hskip (.inl hk)
  have hnoted := grown_noteExposed hs object
  have hedges : ∀ e ∈ exposureEdges s.externalHandle (s.pool.signature? object),
      T e.2.index ⊆ T e.1.index := by
    cases hsig : s.pool.signature? object with
    | none => simp [exposureEdges]
    | some signature =>
        exact (exposes_iff_exposureEdges rfl).1
          (hs.below.exposes object hT hnot hkind signature hsig)
  obtain ⟨t, hok, hedged⟩ := hnoted.valid.addEdges
    (fun e he => owns_exposureEdges hs.closed he) hedges
  exact ⟨t, hok, hnoted.trans hedged.toGrown, ho.noteExposed hedged.ext hedged.calls_eq
    hedged.exposed_eq hedged.linked,
    fun _ => hedged.ext.exposed _ (IndexSet.mem_insert.2 (.inl rfl))⟩

/-! ## All that a root owes for pointees -/

/-- A valid state with its edges in place was extended to another,
without leaving more to do. -/
structure Advanced (base : Pool) (T : Family) (s t : State) :
    Prop extends Grown base T s t where
  obliged : t.Obliged

theorem Advanced.refl (hs : s.Valid base T) (ho : s.Obliged) : Advanced base T s s :=
  ⟨⟨hs, .refl s, le_rfl⟩, ho⟩

theorem Advanced.trans (h : Advanced base T s t) (h' : Advanced base T t u) :
    Advanced base T s u :=
  ⟨h.toGrown.trans h'.toGrown, h'.obliged⟩

/-- A loop whose rounds each extend the state extends the state. -/
theorem Valid.foldlM_advanced {α : Type} {f : State → α → Except Fault State}
    {D : α → State → Prop} (keep : ∀ {a u v}, D a u → Extends u v → D a v) {l : List α}
    (hs : s.Valid base T) (ho : s.Obliged)
    (round : ∀ u, ∀ a ∈ l, Advanced base T s u → ∃ v, f u a = .ok v ∧
      Advanced base T u v ∧ D a v) :
    ∃ t, l.foldlM f s = .ok t ∧ Advanced base T s t ∧ ∀ a ∈ l, D a t := by
  have key := foldlM_ok (f := f) (G := Advanced base T s) (R := Extends) (D := D) Extends.refl
    Extends.trans keep (l := l) ?round (Advanced.refl hs ho)
  · obtain ⟨t, hok, hadvanced, -, hdone⟩ := key
    exact ⟨t, hok, hadvanced, hdone⟩
  case round =>
    intro u a ha hu
    obtain ⟨v, hok, hv, hdone⟩ := round u a ha hu
    exact ⟨v, hok, hu.trans hv, hv.ext, hdone⟩

/-- What is stored through a root flows into the objects it points to. -/
theorem Valid.storesThrough (hs : s.Valid base T) (ho : s.Obliged) {r : Nat} {data : List Nat}
    (hdata : ∀ o ∈ data, o < s.pool.size ∧ o ∈ T r ∧ o ∉ s.exempt base r ∧
      s.pool.kindOf o ≠ .functionObject) :
    ∃ t, (s.linksAt r).stores.foldlM (fun (s : State) value =>
        s.addEdges (data.map fun o => (s.pool.handle o, value))) s = .ok t ∧
          Advanced base T s t ∧
      ∀ v ∈ (s.linksAt r).stores, ∀ o ∈ data, t.HasEdge v.index o := by
  refine hs.foldlM_advanced (fun h e o ho => e.hasEdge _ _ (h o ho)) ho fun u v hv hu => ?_
  have hown : ∀ e ∈ data.map fun o => (u.pool.handle o, v), u.pool.Owns e.1 ∧
      u.pool.Owns e.2 := by
    rintro e he
    obtain ⟨o, ho, rfl⟩ := List.mem_map.1 he
    exact ⟨Pool.owns_handle (hu.ext.same.lt_size_iff.2 (hdata o ho).1),
      hu.ext.same.owns_iff.2 (hs.owns_stores r v hv)⟩
  have hT : ∀ e ∈ data.map fun o => (u.pool.handle o, v), T e.2.index ⊆ T e.1.index := by
    rintro e he
    obtain ⟨o, ho, rfl⟩ := List.mem_map.1 he
    obtain ⟨-, hmem, hnot, hk⟩ := hdata o ho
    exact hs.below.stores r v hv o hmem hnot hk
  obtain ⟨t, hok, hedged⟩ := hu.valid.addEdges hown hT
  exact ⟨t, hok, ⟨hedged.toGrown, hu.obliged.edged hedged⟩,
    fun o ho => hedged.linked _ (List.mem_map_of_mem ho)⟩

/-- What the objects a root points to hold flows into the values loaded through it. -/
theorem Valid.loadsThrough (hs : s.Valid base T) (ho : s.Obliged) {r : Nat} {data : List Nat}
    (hdata : ∀ o ∈ data, o < s.pool.size ∧ o ∈ T r ∧ o ∉ s.exempt base r ∧
      s.pool.kindOf o ≠ .functionObject) :
    ∃ t, (s.linksAt r).loads.foldlM (fun (s : State) value =>
        s.addEdges (data.map fun o => (value, s.pool.handle o))) s = .ok t ∧
          Advanced base T s t ∧
      ∀ v ∈ (s.linksAt r).loads, ∀ o ∈ data, t.HasEdge o v.index := by
  refine hs.foldlM_advanced (fun h e o ho => e.hasEdge _ _ (h o ho)) ho fun u v hv hu => ?_
  have hown : ∀ e ∈ data.map fun o => (v, u.pool.handle o), u.pool.Owns e.1 ∧
      u.pool.Owns e.2 := by
    rintro e he
    obtain ⟨o, ho, rfl⟩ := List.mem_map.1 he
    exact ⟨hu.ext.same.owns_iff.2 (hs.owns_loads r v hv),
      Pool.owns_handle (hu.ext.same.lt_size_iff.2 (hdata o ho).1)⟩
  have hT : ∀ e ∈ data.map fun o => (v, u.pool.handle o), T e.2.index ⊆ T e.1.index := by
    rintro e he
    obtain ⟨o, ho, rfl⟩ := List.mem_map.1 he
    obtain ⟨-, hmem, hnot, hk⟩ := hdata o ho
    exact hs.below.loads r v hv o hmem hnot hk
  obtain ⟨t, hok, hedged⟩ := hu.valid.addEdges hown hT
  exact ⟨t, hok, ⟨hedged.toGrown, hu.obliged.edged hedged⟩,
    fun o ho => hedged.linked _ (List.mem_map_of_mem ho)⟩

/-- The call sites of a root are bound to its pointees. -/
theorem Valid.callsThrough (hs : s.Valid base T) (ho : s.Obliged) {r : Nat} {calls : List Nat}
    (hcalls : (s.linksAt r).calls = calls) {pointees : List Nat}
    (hpointees : ∀ o ∈ pointees, o < s.pool.size ∧ o ∈ T r ∧ o ∉ s.exempt base r) :
    ∃ t, calls.foldlM (fun (s : State) call =>
        pointees.foldlM (fun s callee => s.bindCall call callee) s) s = .ok t ∧
          Advanced base T s t ∧
      ∀ c ∈ calls, ∀ o ∈ pointees, t.Bound c o := by
  refine hs.foldlM_advanced (fun h e o ho => e.bound _ _ (h o ho)) ho fun u c hc hu => ?_
  refine hu.valid.foldlM_advanced (D := fun o v => v.Bound c o) (fun h e => e.bound _ _ h)
    hu.obliged fun v o ho hv => ?_
  have hcv : c ∈ (v.linksAt r).calls := by
    rwa [hv.ext.calls_eq, hu.ext.calls_eq, hcalls]
  have hentry := Array.getElem?_eq_getElem (hv.valid.calls_lt r c hcv)
  obtain ⟨hlt, hmem, hnot⟩ := hpointees o ho
  rw [← hu.ext.exempt_eq, ← hv.ext.exempt_eq] at hnot
  rw [← hu.ext.same.size_eq, ← hv.ext.same.size_eq] at hlt
  obtain ⟨w, hok, hgrown, hobliged, hbound⟩ := hv.valid.bindCall hv.obliged hentry hlt
    (hv.valid.below.calls r c hcv _ hentry o hmem hnot)
  exact ⟨w, hok, ⟨hgrown, hobliged⟩, hbound⟩

/-- Functions that external memory points to are exposed. -/
theorem Valid.exposures (hs : s.Valid base T) (ho : s.Obliged) {pointees : List Nat}
    (hpointees : ∀ o ∈ pointees, o < s.pool.size ∧ o ∈ T Pool.external ∧
      o ∉ s.exempt base (s.pool.rootOf Pool.external)) :
    ∃ t, pointees.foldlM (fun (s : State) object => s.expose object) s = .ok t ∧
      Advanced base T s t ∧
      ∀ o ∈ pointees, s.pool.kindOf o = .functionObject → o ∈ t.exposed := by
  refine hs.foldlM_advanced (fun h e hk => e.exposed _ (h hk)) ho fun u o ho hu => ?_
  obtain ⟨hlt, hmem, hnot⟩ := hpointees o ho
  rw [← hu.ext.exempt_eq, ← hu.ext.rootOf_eq] at hnot
  rw [← hu.ext.same.size_eq] at hlt
  obtain ⟨v, hok, hgrown, hobliged, hexposed⟩ := hu.valid.expose hu.obliged hlt hmem hnot
  exact ⟨v, hok, ⟨hgrown, hobliged⟩, fun hk => hexposed (by rwa [hu.ext.same.kindOf_eq])⟩

/-- **All that a root owes the loads, stores, calls and the outside for pointees is met.** -/
theorem Valid.conditionals (hs : s.Valid base T) (ho : s.Obliged) {r : Nat}
    {pointees : List Nat} (hr : r < s.pool.size)
    (hpointees : ∀ o ∈ pointees, o < s.pool.size ∧ o ∈ T r ∧ o ∉ s.exempt base r) :
    ∃ t, s.conditionals r pointees = .ok t ∧ Advanced base T s t ∧
      ∀ o ∈ pointees, t.Handled r o := by
  have hdata : ∀ o, o ∈ pointees.filter (fun o => s.pool.kindOf o ≠ .functionObject) ↔
      o ∈ pointees ∧ s.pool.kindOf o ≠ .functionObject := by
    intro o
    simp [List.mem_filter]
  have hdata' : ∀ o ∈ pointees.filter (fun o => s.pool.kindOf o ≠ .functionObject),
      o < s.pool.size ∧ o ∈ T r ∧ o ∉ s.exempt base r ∧ s.pool.kindOf o ≠ .functionObject := by
    intro o ho
    obtain ⟨hmem, hk⟩ := (hdata o).1 ho
    obtain ⟨hlt, hT, hnot⟩ := hpointees o hmem
    exact ⟨hlt, hT, hnot, hk⟩
  obtain ⟨s₁, hok₁, h₁, hstores⟩ := hs.storesThrough ho hdata'
  obtain ⟨s₂, hok₂, h₂, hloads⟩ := h₁.valid.loadsThrough h₁.obliged (r := r) fun o ho => by
    rw [h₁.ext.same.size_eq, h₁.ext.same.kindOf_eq, h₁.ext.exempt_eq]
    exact hdata' o ho
  obtain ⟨s₃, hok₃, h₃, hcalls⟩ := h₂.valid.callsThrough h₂.obliged
    (h₂.ext.calls_eq r |>.trans (h₁.ext.calls_eq r)) fun o ho => by
      rw [h₂.ext.exempt_eq, h₁.ext.exempt_eq, h₂.ext.same.size_eq, h₁.ext.same.size_eq]
      exact hpointees o ho
  rw [h₁.ext.loads_eq] at hok₂ hloads
  have h13 := h₂.trans h₃
  have h03 := h₁.trans h13
  obtain ⟨t, hok, ht, hexposed⟩ : ∃ t, (if s₃.pool.rootOf Pool.external = r then
      pointees.foldlM (fun (s : State) object => s.expose object) s₃ else pure s₃) = .ok t ∧
      Advanced base T s₃ t ∧ (s₃.pool.rootOf Pool.external = r →
        ∀ o ∈ pointees, s₃.pool.kindOf o = .functionObject → o ∈ t.exposed) := by
    by_cases hroot : s₃.pool.rootOf Pool.external = r
    · rw [if_pos hroot]
      have hexternal : ∀ o ∈ pointees, o < s₃.pool.size ∧ o ∈ T Pool.external ∧
          o ∉ s₃.exempt base (s₃.pool.rootOf Pool.external) := by
        intro o ho
        rw [← h₃.valid.below.uniform, hroot, h03.ext.exempt_eq, h03.ext.same.size_eq]
        exact hpointees o ho
      obtain ⟨t, hok, ht, hexposed⟩ := h₃.valid.exposures h₃.obliged hexternal
      exact ⟨t, hok, ht, fun _ => hexposed⟩
    · rw [if_neg hroot]
      exact ⟨s₃, rfl, .refl h₃.valid h₃.obliged, fun h => absurd h hroot⟩
  refine ⟨t, ?_, h03.trans ht,
    fun o ho => ⟨fun hk v hv => ?_, fun hk v hv => ?_, fun c hc => ?_, fun he hk => ?_⟩⟩
  · have hcheck : pointees.forM s.pool.check = .ok () :=
      forM_eq_ok.2 fun o ho => Pool.check_of_lt (hpointees o ho).1
    have hexternal : s₃.pool.root s₃.externalHandle = .ok (s₃.pool.rootOf Pool.external) :=
      h₃.valid.forest.root_handle h₃.valid.closed.external_object.1
    simp only [State.conditionals, hcheck, hs.check_links hr, hok₁, hok₂, hok₃,
      hexternal, bind, Except.bind]
    exact hok
  · rw [(h03.trans ht).ext.same.kindOf_eq] at hk
    rw [(h03.trans ht).ext.stores_eq] at hv
    exact (h13.trans ht).ext.hasEdge _ _ (hstores v hv o ((hdata o).2 ⟨ho, hk⟩))
  · rw [(h03.trans ht).ext.same.kindOf_eq] at hk
    rw [(h03.trans ht).ext.loads_eq] at hv
    exact (h₃.trans ht).ext.hasEdge _ _ (hloads v hv o ((hdata o).2 ⟨ho, hk⟩))
  · rw [(h03.trans ht).ext.calls_eq] at hc
    exact ht.ext.bound _ _ (hcalls c hc o ho)
  · rw [ht.ext.rootOf_eq] at he
    rw [ht.ext.same.kindOf_eq] at hk
    exact hexposed he o ho hk

end PointerChannels.Inclusion.State
