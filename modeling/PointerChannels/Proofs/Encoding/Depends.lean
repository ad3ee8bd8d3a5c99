import PointerChannels.Proofs.Encoding.Gather

/-!
# What operations depend on

An operation depends on the channels that it touches itself and on those that are
touched by the operations its calls lead to.  The closed summaries of its callees,
together with its own channels, are just that; so the fallback of an empty live set is
for calls that depend on nothing.

## Main definitions

* `View.Depends` — an operation depends on a channel.
* `Draft.ClosedBy` — what closing the summaries of a draft achieves.

## Main statements

* `View.Ready.exists_depends_iff` — only mute calls depend on nothing.
* `Gathered.liveSet_ok` — a live set is what its call depends on.
-/

namespace PointerChannels.Encoding

variable {v : View} {program : Program} {op : Operation} {x : Channel}

/-- The operation touches a channel itself, or leads to an operation that does. -/
def View.Depends (v : View) (program : Program) (op : Operation) (x : Channel) : Prop :=
  v.Touches program op x ∨
    ∃ f, program.Reaches v.graph op f ∧ ∃ m ∈ f.body.toList, v.Touches program m x

/-- What an operation of a reached function depends on, the call depends on. -/
theorem View.Depends.of_reaches {f : FunctionDef} {m : Operation}
    (hf : program.Reaches v.graph op f) (hm : m ∈ f.body.toList) (h : v.Depends program m x) :
    v.Depends program op x := by
  rcases h with hx | ⟨f', hf', n, hn, hx⟩
  · exact .inr ⟨f, hf, m, hm, hx⟩
  · exact .inr ⟨f', hf.trans hm hf', n, hn, hx⟩

/-- **A memory operation depends on a channel unless it is mute.** -/
theorem View.Ready.exists_depends_iff (hv : v.Ready program) (hop : op ∈ program.operations)
    (hmemory : op.kind.touchesMemory = true) :
    (∃ x, v.Depends program op x) ↔ ¬ program.Mute v.graph op := by
  have hbelow : ∀ {f m}, program.Reaches v.graph op f → m ∈ f.body.toList →
      m ∈ program.operations := fun hf hm => List.mem_flatMap.2 ⟨_, hf.mem_functions, hm⟩
  constructor
  · rintro ⟨x, hx | ⟨f, hf, m, hm, hx⟩⟩ hmute
    · exact (hv.exists_touches_iff hop hmemory).1 ⟨x, hx⟩ hmute.idle
    · exact (hv.exists_touches_iff (hbelow hf hm) hx.touchesMemory).1 ⟨x, hx⟩
        (hmute.below f hf m hm hx.touchesMemory)
  · intro hmute
    by_contra hnone
    refine hmute ⟨?_, fun f hf m hm hmem => ?_⟩
    · by_contra hidle
      obtain ⟨x, hx⟩ := (hv.exists_touches_iff hop hmemory).2 hidle
      exact hnone ⟨x, .inl hx⟩
    · by_contra hidle
      obtain ⟨x, hx⟩ := (hv.exists_touches_iff (hbelow hf hm) hmem).2 hidle
      exact hnone ⟨x, .inr ⟨f, hf, m, hm, hx⟩⟩

/-! ## Live sets -/

theorem foldlM_union_ok {summaries : Array IndexSet} {callees : List FunctionId}
    (h : ∀ f ∈ callees, f < summaries.size) (live : IndexSet) :
    ∃ out, callees.foldlM (fun live callee => do
        return live.union (← entryAt summaries callee)) live = .ok out ∧
      ∀ x, x ∈ out ↔ x ∈ live ∨ ∃ f ∈ callees, f ∈ holders summaries x := by
  induction callees generalizing live with
  | nil => exact ⟨live, rfl, by simp⟩
  | cons f callees ih =>
      have hlt := h f (by simp)
      have hentry := Array.getElem?_eq_getElem hlt
      obtain ⟨out, hout, hmem⟩ :=
        ih (fun g hg => h g (List.mem_cons_of_mem f hg)) (live.union summaries[f])
      refine ⟨out, ?_, fun x => ?_⟩
      · rw [List.foldlM_cons, entryAt_eq_ok.2 hentry]
        exact hout
      · simp only [hmem, IndexSet.mem_union, ← mem_holders_iff hentry,
          List.mem_cons, or_and_right, exists_or, exists_eq_left, or_assoc]

/-- Channels were only taken from summaries that exist. -/
theorem lt_size_of_foldlM_union {summaries : Array IndexSet} {callees : List FunctionId}
    {live out : IndexSet} (h : callees.foldlM (fun live callee => do
      return live.union (← entryAt summaries callee)) live = .ok out) :
    ∀ f ∈ callees, f < summaries.size := by
  refine (foldlM_of_ok (G := fun _ => True) (R := fun _ _ => True)
    (D := fun f _ => f < summaries.size) (fun _ => trivial) (fun _ _ => trivial)
    (fun hf _ => hf) (fun s t f _ _ hround => ?_) trivial h).2.2
  obtain ⟨theirs, htheirs, -⟩ := bind_eq_ok.1 hround
  exact ⟨trivial, trivial, (Array.getElem?_eq_some_iff.1 (entryAt_eq_ok.1 htheirs)).1⟩

/-- What the live set of a call holds, when it was found. -/
theorem mem_of_liveSet {summaries : Array IndexSet} {c : Call} {live : IndexSet}
    {fallbacks : Nat} (h : liveSet v summaries c = .ok (live, fallbacks)) :
    (∃ x, x ∈ live) ∧
    (∀ x, x ∈ live ↔ (x ∈ c.locals ∨ ∃ f ∈ c.callees, f ∈ holders summaries x) ∨
      (¬ ∃ y, y ∈ c.locals ∨ ∃ f ∈ c.callees, f ∈ holders summaries y) ∧
        v.policy.channelOf Graph.unknown = .ok x) := by
  obtain ⟨out, hout, h⟩ := bind_eq_ok.1 h
  obtain ⟨out', hout', hmem⟩ := foldlM_union_ok (lt_size_of_foldlM_union hout) c.locals
  obtain rfl := Except.ok.inj (hout.symm.trans hout')
  simp only [← hmem]
  split at h
  · next hempty =>
      rw [IndexSet.isEmpty_iff] at hempty
      obtain ⟨found, hfound, h⟩ := bind_eq_ok.1 h
      obtain ⟨rfl, -⟩ := Prod.mk.inj (pure_eq_ok.1 h)
      exact ⟨View.exists_mem_channels List.mem_cons_self hfound, fun x => by
        simp [View.mem_channels hfound, hempty]⟩
  · next hempty =>
      rw [IndexSet.isEmpty_iff, not_forall_not] at hempty
      obtain ⟨rfl, -⟩ := Prod.mk.inj (pure_eq_ok.1 h)
      exact ⟨hempty, fun x => by simp [hempty]⟩

/-- The live set of a call has its own channels and those of its callees; if there are none,
that of unknown memory stands in. -/
theorem liveSet_ok (hv : v.Ready program) {summaries : Array IndexSet} {c : Call}
    (h : ∀ f ∈ c.callees, f < summaries.size) :
    ∃ live fallbacks, liveSet v summaries c = .ok (live, fallbacks) ∧
      ∀ x, x ∈ live ↔ (x ∈ c.locals ∨ ∃ f ∈ c.callees, f ∈ holders summaries x) ∨
        (¬ ∃ y, y ∈ c.locals ∨ ∃ f ∈ c.callees, f ∈ holders summaries y) ∧
          v.policy.channelOf Graph.unknown = .ok x := by
  have hok : ∃ live, liveSet v summaries c = .ok live := by
    obtain ⟨live, hlive, -⟩ := foldlM_union_ok h c.locals
    rw [liveSet, hlive]
    simp only [bind, Except.bind]
    split
    · obtain ⟨found, hfound, -⟩ := hv.channels_ok [Graph.unknown] (by
        simpa using hv.serves.unknown)
      exact ⟨(found, 1), by rw [hfound]; rfl⟩
    · exact ⟨_, rfl⟩
  obtain ⟨⟨live, fallbacks⟩, hok⟩ := hok
  exact ⟨live, fallbacks, hok, (mem_of_liveSet hok).2⟩

/-! ## Summaries and calls -/

/-- The summaries of a draft, closed over its calls. -/
structure Draft.ClosedBy (d : Draft) (summaries : Array IndexSet) : Prop where
  size_eq : summaries.size = d.summaries.size
  mem_iff : ∀ x f, f ∈ holders summaries x ↔
    ∃ f', Relation.ReflTransGen (Edge d.callEdges) f f' ∧ f' ∈ holders d.summaries x

/-- One function calls another exactly if an operation of its body does. -/
theorem Gathered.edge_iff {d : Draft} (hv : v.Ready program)
    (hd : Gathered v program (entries program) d) {i j : FunctionId} :
    Edge d.callEdges i j ↔ ∃ f ∈ program.functions.toList, f.id = i ∧ ∃ m ∈ f.body.toList,
      ∃ f' ∈ program.functions.toList, f'.id = j ∧ v.graph.Calls m f' := by
  constructor
  · rintro ⟨callees, hmem, hj⟩
    obtain ⟨c, hc, heq⟩ := List.mem_map.1 hmem
    obtain ⟨rfl, rfl⟩ := Prod.mk.inj heq
    obtain ⟨⟨id, m⟩, he, hcall, hok⟩ := hd.calls.1 hc
    obtain ⟨f, hf, hid, hm⟩ := mem_entries.1 he
    obtain ⟨c', hok', -, hcaller, hcallees, -⟩ :=
      hv.call_ok (List.mem_flatMap.2 ⟨f, hf, hm⟩) hcall id
    obtain rfl := Except.ok.inj (hok.symm.trans hok')
    exact ⟨f, hf, hid.trans hcaller.symm, m, hm, (hcallees j).1 hj⟩
  · rintro ⟨f, hf, rfl, m, hm, hj⟩
    obtain ⟨f', -, -, hcalls⟩ := id hj
    obtain ⟨c, hok, -, hcaller, hcallees, -⟩ :=
      hv.call_ok (List.mem_flatMap.2 ⟨f, hf, hm⟩) hcalls.kind_eq f.id
    have hc := hd.calls.2 ⟨(f.id, m), mem_entries.2 ⟨f, hf, rfl, hm⟩, hcalls.kind_eq, hok⟩
    exact ⟨c.callees, List.mem_map.2 ⟨c, hc, by rw [hcaller]⟩, (hcallees j).2 hj⟩

/-- A function is reached exactly if calls lead from a callee to it. -/
theorem Gathered.reaches_iff {d : Draft} (hp : program.Coherent) (hv : v.Ready program)
    (hd : Gathered v program (entries program) d) {f : FunctionDef}
    (hf : f ∈ program.functions.toList) : program.Reaches v.graph op f ↔
      ∃ f₀ ∈ program.functions.toList, v.graph.Calls op f₀ ∧
        Relation.ReflTransGen (Edge d.callEdges) f₀.id f.id := by
  constructor
  · intro hreaches
    induction hreaches with
    | call hf hcalls => exact ⟨_, hf, hcalls, .refl⟩
    | step hreaches hm hf' hcalls ih =>
        obtain ⟨f₀, hf₀, hcalls₀, hpath⟩ := ih hreaches.mem_functions
        exact ⟨f₀, hf₀, hcalls₀, hpath.tail ((hd.edge_iff hv).2
          ⟨_, hreaches.mem_functions, rfl, _, hm, _, hf', rfl, hcalls⟩)⟩
  · rintro ⟨f₀, hf₀, hcalls₀, hpath⟩
    generalize hid : f.id = i at hpath
    induction hpath generalizing f with
    | refl =>
        obtain rfl := hp.eq_of_function_id hf hf₀ hid
        exact .call hf hcalls₀
    | tail _ hedge ih =>
        obtain ⟨g, hg, hgid, m, hm, f', hf', hid', hcalls⟩ := (hd.edge_iff hv).1 hedge
        obtain rfl := hp.eq_of_function_id hf hf' (hid.trans hid'.symm)
        exact .step (ih hg hgid) hm hf hcalls

/-- **What a call has of its own and of the closed summaries is what it depends on.** -/
theorem Gathered.live_iff {d : Draft} (hp : program.Coherent) (hv : v.Ready program)
    (hd : Gathered v program (entries program) d) {summaries : Array IndexSet}
    (hclosed : d.ClosedBy summaries) (hop : op ∈ program.operations) (hcall : op.kind = .call)
    {caller : FunctionId} {c : Call} (hc : v.call program caller op = .ok c) :
    (x ∈ c.locals ∨ ∃ f ∈ c.callees, f ∈ holders summaries x) ↔ v.Depends program op x := by
  obtain ⟨c', hc', -, -, hcallees, -⟩ := hv.call_ok hop hcall caller
  obtain rfl := Except.ok.inj (hc.symm.trans hc')
  rw [View.Depends, View.touches_call hcall hc]
  refine or_congr_right ⟨?_, ?_⟩
  · rintro ⟨i, hi, hx⟩
    obtain ⟨f₀, hf₀, rfl, hcalls⟩ := (hcallees i).1 hi
    obtain ⟨j, hpath, hj⟩ := (hclosed.mem_iff x _).1 hx
    obtain ⟨⟨id, m⟩, he, rfl, htouches⟩ := hd.summaries.1 hj
    obtain ⟨f, hf, rfl, hm⟩ := mem_entries.1 he
    exact ⟨f, (hd.reaches_iff hp hv hf).2 ⟨f₀, hf₀, hcalls, hpath⟩, m, hm, htouches⟩
  · rintro ⟨f, hf, m, hm, htouches⟩
    obtain ⟨f₀, hf₀, hcalls, hpath⟩ := (hd.reaches_iff hp hv hf.mem_functions).1 hf
    have hj :=
      hd.summaries.2 ⟨(f.id, m), mem_entries.2 ⟨f, hf.mem_functions, rfl, hm⟩, rfl, htouches⟩
    exact ⟨f₀.id, (hcallees _).2 ⟨f₀, hf₀, rfl, hcalls⟩,
      (hclosed.mem_iff x _).2 ⟨f.id, hpath, hj⟩⟩

/-- A gathered call is that of an operation. -/
theorem Gathered.call_eq {d : Draft} (hv : v.Ready program)
    (hd : Gathered v program (entries program) d) {c : Call} (hc : c ∈ d.calls) :
    ∃ op ∈ program.operations, op.id = c.operation ∧ op.kind = .call ∧
      ∃ caller, v.call program caller op = .ok c := by
  obtain ⟨⟨id, op⟩, he, hcall, hok⟩ := hd.calls.1 hc
  obtain ⟨f, hf, -, hop⟩ := mem_entries.1 he
  have hop : op ∈ program.operations := List.mem_flatMap.2 ⟨f, hf, hop⟩
  obtain ⟨c', hok', hid, -⟩ := hv.call_ok hop hcall id
  obtain rfl := Except.ok.inj (hok.symm.trans hok')
  exact ⟨op, hop, hid.symm, hcall, id, hok⟩

/-- The live set of a gathered call. -/
theorem Gathered.liveSet_ok {d : Draft} (hp : program.Coherent) (hv : v.Ready program)
    (hd : Gathered v program (entries program) d) {summaries : Array IndexSet}
    (hclosed : d.ClosedBy summaries) {c : Call} (hc : c ∈ d.calls)
    (hop : op ∈ program.operations) (hid : c.operation = op.id) :
    ∃ live fallbacks, liveSet v summaries c = .ok (live, fallbacks) ∧
      ∀ x, x ∈ live ↔ v.Depends program op x ∨
        program.Mute v.graph op ∧ v.policy.channelOf Graph.unknown = .ok x := by
  obtain ⟨op', hop', hid', hcall, caller, hok⟩ := hd.call_eq hv hc
  obtain rfl := hp.eq_of_id hop' hop (hid'.trans hid)
  obtain ⟨c', hok', -, -, hcallees, -⟩ := hv.call_ok hop hcall caller
  obtain rfl := Except.ok.inj (hok.symm.trans hok')
  have hlt : ∀ f ∈ c.callees, f < summaries.size := by
    intro f hf
    obtain ⟨f', hf', rfl, -⟩ := (hcallees f).1 hf
    rw [hclosed.size_eq, hd.size_eq]
    exact hp.id_lt_size hf'
  obtain ⟨live, fallbacks, hlive, hmem⟩ := Encoding.liveSet_ok hv hlt
  refine ⟨live, fallbacks, hlive, fun x => ?_⟩
  have hmemory : op'.kind.touchesMemory = true := by rw [hcall]; rfl
  simp only [hmem, hd.live_iff hp hv hclosed hop hcall hok, hv.exists_depends_iff hop hmemory,
    not_not]

end PointerChannels.Encoding
