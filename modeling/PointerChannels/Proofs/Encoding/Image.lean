import PointerChannels.Proofs.Encoding.Written
import PointerChannels.Analysis
import PointerChannels.Program.Command

/-!
# Coarser policies

A coarser policy gives every node the image of its channel under a function: the remainder
by a bound, or zero.  Encoding goes along with that function.  It never compares channels
except to see whether a set of them is empty and whether closing the summaries has come to
an end, and the closed summaries are the same however many rounds it takes to close them.
So all accesses of the coarse encoding are images of those of the fine one, and so are the
states that are written.

## Main definitions

* `View.Folds` — one policy gives the images of the channels of another.
* `Writes` — encoding writes the state at a place.
* `Recolored` — the states of one encoding are the images of those of another.

## Main statements

* `View.Folds.encode` — encoding goes along with a function of channels.
* `encode_coarser` — the bounded and the single policy are images of the policy per object.
-/

namespace PointerChannels

namespace IndexSet

variable {f : Nat → Nat} {s t : IndexSet}

/-- The images of the members. -/
def image (f : Nat → Nat) (s : IndexSet) : IndexSet := ofList (s.toList.map f)

@[simp] theorem mem_image {y : Nat} : y ∈ s.image f ↔ ∃ x, x ∈ s ∧ f x = y := by
  simp [image]

@[simp] theorem image_empty : empty.image f = empty := rfl

theorem image_union : (s.union t).image f = (s.image f).union (t.image f) := by
  refine ext_mem fun y => ?_
  simp only [mem_image, mem_union, or_and_right, exists_or]

theorem image_ofList {l : List Nat} : (ofList l).image f = ofList (l.map f) := by
  refine ext_mem fun y => ?_
  simp

theorem isEmpty_image : (s.image f).isEmpty = s.isEmpty := by
  rw [Bool.eq_iff_iff, isEmpty_iff, isEmpty_iff]
  simp

end IndexSet

namespace Encoding

open Channel

variable {v w : View} {f : Channel → Channel} {program : Program} {op : Operation}

/-! ## Views -/

/-- One view gives the images of the channels of another. -/
structure View.Folds (v w : View) (f : Channel → Channel) : Prop where
  graph_eq : w.graph = v.graph
  channel : ∀ {node x}, v.policy.channelOf node = .ok x → w.policy.channelOf node = .ok (f x)

/-- The image of an access. -/
def Access.image (f : Channel → Channel) (a : Access) : Access :=
  { a with uses := a.uses.image f, defs := a.defs.image f }

/-- The image of a call. -/
def Call.image (f : Channel → Channel) (c : Call) : Call :=
  { c with locals := c.locals.image f }

namespace View.Folds

variable (h : v.Folds w f)

include h

theorem channels {nodes : List Nat} {found : IndexSet} (hok : v.channels nodes = .ok found) :
    w.channels nodes = .ok (found.image f) := by
  obtain ⟨channels, hchannels, hok⟩ := bind_eq_ok.1 hok
  obtain rfl := pure_eq_ok.1 hok
  rw [View.channels, mapM_map_ok (fun _ _ _ => h.channel) hchannels, IndexSet.image_ofList]
  rfl

theorem register {value : ValueId} : w.register value = v.register value := by
  rw [View.register, View.register, h.graph_eq]

theorem targets {value : ValueId} : w.targets value = v.targets value := by
  rw [View.targets, View.targets, h.register, h.graph_eq]

theorem address {value : ValueId} {found : IndexSet} {fallbacks : Nat}
    (hok : v.address value = .ok (found, fallbacks)) :
    w.address value = .ok (found.image f, fallbacks) := by
  simp only [View.address, bind_eq_ok, h.targets] at hok ⊢
  obtain ⟨r, hr, hok⟩ := hok
  refine ⟨r, hr, ?_⟩
  split at hok
  · next hempty =>
      obtain ⟨channels, hchannels, hok⟩ := bind_eq_ok.1 hok
      obtain ⟨rfl, rfl⟩ := Prod.mk.inj (pure_eq_ok.1 hok)
      rw [if_pos hempty, h.channels hchannels]
      rfl
  · next hempty =>
      obtain ⟨channels, hchannels, hok⟩ := bind_eq_ok.1 hok
      obtain ⟨rfl, rfl⟩ := Prod.mk.inj (pure_eq_ok.1 hok)
      rw [if_neg hempty, h.channels hchannels]
      rfl

theorem reachable {value : ValueId} {found : IndexSet} (hok : v.reachable value = .ok found) :
    w.reachable value = .ok (found.image f) := by
  simp only [View.reachable, bind_eq_ok, h.targets, h.graph_eq] at hok ⊢
  obtain ⟨r, hr, met, hmet, hok⟩ := hok
  exact ⟨r, hr, met, hmet, h.channels hok⟩

theorem outside {found : IndexSet} (hok : v.outside = .ok found) :
    w.outside = .ok (found.image f) := by
  obtain ⟨met, hmet, hok⟩ := bind_eq_ok.1 hok
  rw [View.outside, h.graph_eq]
  exact bind_eq_ok.2 ⟨met, hmet, h.channels hok⟩

theorem allocation {a : Access} (hok : v.allocation op = .ok a) :
    w.allocation op = .ok (a.image f) := by
  unfold View.allocation at hok ⊢
  rw [h.graph_eq]
  split at hok
  · simp only [bind_eq_ok, pure_eq_ok] at hok ⊢
    obtain ⟨found, hfound, rfl⟩ := hok
    exact ⟨_, h.channels hfound, rfl⟩
  · exact absurd hok (by simp)

theorem access {a : Access} (hok : v.access op = .ok a) : w.access op = .ok (a.image f) := by
  unfold View.access at hok ⊢
  cases hk : op.kind <;> simp only [hk] at hok ⊢
  case load =>
    simp only [bind_eq_ok, pure_eq_ok, Prod.exists] at hok ⊢
    obtain ⟨value, hvalue, found, fallbacks, haddress, rfl⟩ := hok
    exact ⟨value, hvalue, _, fallbacks, h.address haddress, rfl⟩
  case store | free =>
    simp only [bind_eq_ok, pure_eq_ok, Prod.exists] at hok ⊢
    obtain ⟨value, hvalue, found, fallbacks, haddress, rfl⟩ := hok
    exact ⟨value, hvalue, _, fallbacks, h.address haddress, rfl⟩
  case memcpy =>
    simp only [bind_eq_ok, pure_eq_ok, Prod.exists] at hok ⊢
    obtain ⟨value, hvalue, target, first, htarget, value', hvalue', source, second,
      hsource, rfl⟩ := hok
    refine ⟨value, hvalue, _, first, h.address htarget, value', hvalue', _, second,
      h.address hsource, ?_⟩
    rw [Access.image, IndexSet.image_union]
  case alloca | malloc => exact h.allocation hok
  all_goals exact absurd hok (by simp)

theorem reachableAll {values : List ValueId} {found : IndexSet}
    (hok : v.reachableAll program values = .ok found) :
    w.reachableAll program values = .ok (found.image f) := by
  have key := foldlM_rel (R := fun s s' => s' = s.image f) (r := .empty)
    (g := fun channels value => do
      let found ← program.value value
      if found.isPointer then
        return channels.union (← w.reachable value)
      else
        return channels) ?round rfl hok
  · obtain ⟨_, hok', rfl⟩ := key
    exact hok'
  case round =>
    rintro s s' t value - rfl hstep
    simp only [bind_eq_ok] at hstep ⊢
    obtain ⟨x, hx, hstep⟩ := hstep
    split at hstep
    · next hpointer =>
        simp only [bind_eq_ok, pure_eq_ok] at hstep
        obtain ⟨reached, hreached, rfl⟩ := hstep
        refine ⟨_, ⟨x, hx, ?_⟩, IndexSet.image_union.symm⟩
        rw [if_pos hpointer, h.reachable hreached]
        rfl
    · next hpointer =>
        obtain rfl := pure_eq_ok.1 hstep
        exact ⟨_, ⟨x, hx, if_neg hpointer⟩, rfl⟩

theorem call {caller : FunctionId} {c : Call} (hok : v.call program caller op = .ok c) :
    w.call program caller op = .ok (c.image f) := by
  obtain ⟨callee, r, passed, hc⟩ := View.call_eq_ok.1 hok
  have hfunction : w.function? = v.function? := by
    funext n
    rw [View.function?, View.function?, h.graph_eq]
  refine View.call_eq_ok.2 ⟨callee, r, passed.image f, hc.callee?_eq,
    h.register.trans hc.register_eq, h.graph_eq ▸ hc.register_lt, h.graph_eq ▸ hc.targets_lt,
    h.reachableAll hc.passed_eq, hc.operation_eq, hc.caller_eq, ?_, ?_, fun hwide => ?_,
    fun hexact => ?_⟩
  · rw [h.graph_eq, hfunction]
    exact hc.callees_eq
  · rw [h.graph_eq, hfunction]
    exact hc.widened_eq
  · obtain ⟨outside, houtside, hlocals⟩ := hc.widened hwide
    refine ⟨outside.image f, h.outside houtside, ?_⟩
    rw [Call.image, hlocals, IndexSet.image_union]
  · rw [Call.image, hc.exact hexact]

end View.Folds

/-! ## Gathering -/

/-- The image of what has been gathered. -/
def Draft.image (f : Channel → Channel) (d : Draft) : Draft :=
  ⟨d.accesses.map (Access.image f), d.calls.map (Call.image f),
    d.summaries.map (IndexSet.image f)⟩

theorem Draft.callEdges_image {d : Draft} : (d.image f).callEdges = d.callEdges := by
  rw [Draft.callEdges, Draft.callEdges, Draft.image, List.map_map]
  rfl

theorem map_modify_union {s : Array IndexSet} {i : FunctionId} {channels : IndexSet} :
    (s.modify i (·.union channels)).map (IndexSet.image f) =
      (s.map (IndexSet.image f)).modify i (·.union (channels.image f)) := by
  refine Array.ext_getElem? fun j => ?_
  simp only [Array.getElem?_map, Array.getElem?_modify]
  split
  · simp only [Option.map_map]
    congr 1
    funext x
    exact IndexSet.image_union
  · rfl

theorem Draft.summarize_image {d d' : Draft} {i : FunctionId} {channels : IndexSet}
    (hok : d.summarize i channels = .ok d') :
    (d.image f).summarize i (channels.image f) = .ok (d'.image f) := by
  obtain ⟨hi, rfl⟩ := Draft.summarize_eq_ok hok
  have hi' : i < (d.image f).summaries.size := by simpa [Draft.image] using hi
  rw [Draft.summarize, entryAt_eq_ok.2 (Array.getElem?_eq_getElem hi')]
  simp only [Draft.image, map_modify_union]
  rfl

namespace View.Folds

variable (h : v.Folds w f)

include h

theorem gather {d d' : Draft} {i : FunctionId} (hok : gather v program i d op = .ok d') :
    gather w program i (d.image f) op = .ok (d'.image f) := by
  unfold Encoding.gather at hok ⊢
  split at hok
  · next hmemory =>
      obtain rfl := Except.ok.inj hok
      rw [if_pos hmemory]
  next hmemory =>
  rw [if_neg hmemory]
  split at hok
  · next hcall =>
      simp only [bind_eq_ok, pure_eq_ok] at hok
      obtain ⟨c, hc, d₁, hd₁, rfl⟩ := hok
      have hd₁ : (d.image f).summarize i (c.image f).locals = .ok (d₁.image f) :=
        Draft.summarize_image hd₁
      rw [if_pos hcall]
      simp only [h.call hc, hd₁, bind, Except.bind]
      simp [Draft.image, pure, Except.pure]
  · next hcall =>
      simp only [bind_eq_ok, pure_eq_ok] at hok
      obtain ⟨a, ha, d₁, hd₁, rfl⟩ := hok
      have hd₁ : (d.image f).summarize i ((a.image f).uses.union (a.image f).defs) =
          .ok (d₁.image f) := by
        have hsummarized := Draft.summarize_image (f := f) hd₁
        rwa [IndexSet.image_union] at hsummarized
      rw [if_neg hcall]
      simp only [h.access ha, hd₁, bind, Except.bind]
      simp [Draft.image, pure, Except.pure]

theorem gatherAll {d : Draft} (hok : gatherAll v program = .ok d) :
    gatherAll w program = .ok (d.image f) := by
  have hstart : (⟨[], [], Array.replicate program.functions.size .empty⟩ : Draft).image f =
      ⟨[], [], Array.replicate program.functions.size .empty⟩ := by
    simp [Draft.image]
  have key := foldlM_rel (R := fun d d' => d' = Draft.image f d)
    (g := fun d g => g.body.toList.foldlM (Encoding.gather w program g.id) d) ?round
    hstart.symm hok
  · obtain ⟨_, hok', rfl⟩ := key
    exact hok'
  case round =>
    rintro d _ d₁ g - rfl hbody
    exact foldlM_rel (R := fun d d' => d' = Draft.image f d)
      (fun d _ d₁ op _ hd hok => ⟨_, hd ▸ h.gather hok, rfl⟩) rfl hbody

end View.Folds

/-! ## Summaries -/

theorem mem_holders_map {s : Array IndexSet} {i : FunctionId} {y : Channel} :
    i ∈ holders (s.map (IndexSet.image f)) y ↔ ∃ x, f x = y ∧ i ∈ holders s x := by
  simp only [mem_holders, Array.getElem?_map, Option.map_eq_some_iff]
  constructor
  · rintro ⟨_, ⟨channels, hi, rfl⟩, hy⟩
    obtain ⟨x, hx, hxy⟩ := IndexSet.mem_image.1 hy
    exact ⟨x, hxy, channels, hi, hx⟩
  · rintro ⟨x, hxy, channels, hi, hx⟩
    exact ⟨_, ⟨channels, hi, rfl⟩, IndexSet.mem_image.2 ⟨x, hx, hxy⟩⟩

/-- **Closing goes along with a function of channels**, in however many rounds. -/
theorem closeSummaries_image {calls : List (FunctionId × List FunctionId)}
    {s t : Array IndexSet} {rounds : Nat} (hcallers : ∀ {i j}, Edge calls i j → i < s.size)
    (hok : closeSummaries calls s = .ok (rounds, t)) :
    ∃ rounds', closeSummaries calls (s.map (IndexSet.image f)) =
      .ok (rounds', t.map (IndexSet.image f)) := by
  obtain ⟨hsize, hclosed⟩ := mem_of_closeSummaries hcallers hok
  obtain ⟨rounds', t', hok', hsize', hclosed'⟩ :=
    closeSummaries_ok (s := s.map (IndexSet.image f)) fun hedge => by
      simpa using edge_lt_of_closeSummaries hcallers hok hedge
  have himage : t' = t.map (IndexSet.image f) := by
    have hsizes : t'.size = t.size := by rw [hsize', hsize, Array.size_map]
    refine Array.ext (by rw [hsizes, Array.size_map]) fun i hi _ =>
      IndexSet.ext_mem fun y => ?_
    have ht := Array.getElem?_eq_getElem (hsizes ▸ hi : i < t.size)
    rw [← mem_holders_iff (Array.getElem?_eq_getElem hi), hclosed' y i, Array.getElem_map,
      IndexSet.mem_image]
    simp only [← mem_holders_iff ht, hclosed, mem_holders_map]
    constructor
    · rintro ⟨j, hpath, x, hxy, hj⟩
      exact ⟨x, ⟨j, hpath, hj⟩, hxy⟩
    · rintro ⟨x, ⟨j, hpath, hj⟩, hxy⟩
      exact ⟨j, hpath, x, hxy, hj⟩
  exact ⟨rounds', himage ▸ hok'⟩

theorem View.Folds.liveAccess (h : v.Folds w f) {summaries : Array IndexSet}
    {c : Call} {a : Access} (hok : liveAccess v summaries c = .ok a) :
    liveAccess w (summaries.map (IndexSet.image f)) (c.image f) = .ok (a.image f) := by
  obtain ⟨⟨live, fallbacks⟩, hlive, rfl⟩ := map_eq_ok.1 hok
  refine map_eq_ok.2 ⟨(live.image f, fallbacks), ?_, rfl⟩
  simp only [liveSet, bind_eq_ok] at hlive ⊢
  obtain ⟨found, hfound, hlive⟩ := hlive
  have key := foldlM_rel (R := fun s s' => s' = IndexSet.image f s) (r := c.locals.image f)
    (g := fun live callee => do
      return live.union (← entryAt (summaries.map (IndexSet.image f)) callee))
        ?round rfl hfound
  · obtain ⟨_, hfound', rfl⟩ := key
    refine ⟨found.image f, hfound', ?_⟩
    rw [IndexSet.isEmpty_image]
    split at hlive
    · next hempty =>
        obtain ⟨channels, hchannels, hlive⟩ := bind_eq_ok.1 hlive
        obtain ⟨rfl, rfl⟩ := Prod.mk.inj (pure_eq_ok.1 hlive)
        rw [if_pos hempty, h.channels hchannels]
        rfl
    · next hempty =>
        obtain ⟨rfl, rfl⟩ := Prod.mk.inj (pure_eq_ok.1 hlive)
        rw [if_neg hempty]
        rfl
  case round =>
    rintro s _ t callee - rfl hstep
    simp only [bind_eq_ok, pure_eq_ok, entryAt_eq_ok] at hstep ⊢
    obtain ⟨theirs, htheirs, rfl⟩ := hstep
    refine ⟨_, ⟨theirs.image f, ?_, rfl⟩, IndexSet.image_union.symm⟩
    rw [Array.getElem?_map, htheirs]
    rfl

/-! ## Writing -/

/-- After some accesses have been written into a program, and their images into another one
like it: the place of an operation that has been written has the state of one of its accesses,
and its image; all other places are as they were. -/
structure Stamped (program : Program) (f : Channel → Channel) (written : List Access)
    (q q' : Program) : Prop where
  locations_eq : q.locations = program.locations ∧ q'.locations = program.locations
  size_eq : q.functions.size = program.functions.size ∧
    q'.functions.size = program.functions.size
  stated : ∀ {i j : Nat}, (∃ a ∈ written, program.locations[a.operation]? = some (i, j)) →
    ∃ a ∈ written, q.operationAt? i j =
        (program.operationAt? i j).map ({ · with state := .encoded a.uses a.defs }) ∧
      q'.operationAt? i j = (program.operationAt? i j).map
        ({ · with state := .encoded (a.uses.image f) (a.defs.image f) })
  others : ∀ {i j : Nat}, (∀ a ∈ written, program.locations[a.operation]? ≠ some (i, j)) →
    q.operationAt? i j = program.operationAt? i j ∧
    q'.operationAt? i j = program.operationAt? i j

/-- Writing a state at a place changes the state at that place. -/
theorem setState_eq_ok {q t : Program} {id : OperationId} {state : MemoryState} :
    q.setState id state = .ok t ↔ q.locations[id]? = none ∧ t = q ∨
      ∃ i j, q.locations[id]? = some (i, j) ∧ i < q.functions.size ∧
        t = q.modifyAt i j ({ · with state }) := by
  unfold Program.setState
  split
  · next hnone =>
      simp [hnone, eq_comm]
  · next i j hplace =>
      simp only [bind_eq_ok, pure_eq_ok, Program.function, entryAt_eq_ok, hplace,
        Option.some.injEq, Prod.mk.injEq, reduceCtorEq, false_and, false_or]
      constructor
      · rintro ⟨g, hg, rfl⟩
        exact ⟨i, j, ⟨rfl, rfl⟩, (Array.getElem?_eq_some_iff.1 hg).1, rfl⟩
      · rintro ⟨_, _, ⟨rfl, rfl⟩, hi, rfl⟩
        exact ⟨_, Array.getElem?_eq_getElem hi, rfl⟩

/-- Whatever has been written at a place, the next write there gives it a state of its own. -/
theorem Stamped.map_state {written : List Access} {q q' : Program}
    (hq : Stamped program f written q q') (i j : Nat) (state : MemoryState) :
    (q.operationAt? i j).map ({ · with state }) =
        (program.operationAt? i j).map ({ · with state }) ∧
      (q'.operationAt? i j).map ({ · with state }) =
        (program.operationAt? i j).map ({ · with state }) := by
  by_cases hbefore : ∃ a ∈ written, program.locations[a.operation]? = some (i, j)
  · obtain ⟨a, -, ha, ha'⟩ := hq.stated hbefore
    rw [ha, ha', Option.map_map, Option.map_map]
    exact ⟨rfl, rfl⟩
  · obtain ⟨h, h'⟩ := hq.others fun a ha hplace => hbefore ⟨a, ha, hplace⟩
    rw [h, h']
    exact ⟨rfl, rfl⟩

theorem Stamped.write {written : List Access} {q q' t : Program} {a : Access}
    (hq : Stamped program f written q q')
    (hok : q.setState a.operation (.encoded a.uses a.defs) = .ok t) :
    ∃ t', q'.setState a.operation (.encoded (a.uses.image f) (a.defs.image f)) = .ok t' ∧
      Stamped program f (written ++ [a]) t t' := by
  have hkeep : ∀ {i j : Nat}, program.locations[a.operation]? ≠ some (i, j) →
      (∃ b ∈ written ++ [a], program.locations[b.operation]? = some (i, j)) →
      ∃ b ∈ written, program.locations[b.operation]? = some (i, j) := by
    rintro i j hne ⟨b, hb, hplace⟩
    rcases List.mem_append.1 hb with hb | hb
    · exact ⟨b, hb, hplace⟩
    · exact absurd (List.mem_singleton.1 hb ▸ hplace) hne
  rcases setState_eq_ok.1 hok with ⟨hnone, rfl⟩ | ⟨i, j, hplace, hi, rfl⟩
  · -- an operation without a place is left alone
    rw [hq.locations_eq.1] at hnone
    refine ⟨q', setState_eq_ok.2 (.inl ⟨hq.locations_eq.2 ▸ hnone, rfl⟩),
      hq.locations_eq, hq.size_eq, fun hsome => ?_,
      fun hall => hq.others fun b hb => hall b (List.mem_append_left _ hb)⟩
    obtain ⟨b, hb, hstate⟩ := hq.stated (hkeep (by simp [hnone]) hsome)
    exact ⟨b, List.mem_append_left _ hb, hstate⟩
  · rw [hq.locations_eq.1] at hplace
    rw [hq.size_eq.1, ← hq.size_eq.2] at hi
    refine ⟨_, setState_eq_ok.2 (.inr ⟨i, j, hq.locations_eq.2 ▸ hplace, hi, rfl⟩),
      hq.locations_eq, ⟨?_, ?_⟩, fun {k l} hsome => ?_, fun {k l} hall => ?_⟩
    · rw [Program.modifyAt, Array.size_modify, hq.size_eq.1]
    · rw [Program.modifyAt, Array.size_modify, hq.size_eq.2]
    · simp only [Program.operationAt?_modifyAt]
      by_cases hkl : i = k ∧ j = l
      · rw [if_pos hkl, if_pos hkl]
        exact ⟨a, by simp, (hq.map_state k l _).1, (hq.map_state k l _).2⟩
      · rw [if_neg hkl, if_neg hkl]
        have hne : program.locations[a.operation]? ≠ some (k, l) := by
          rw [hplace]
          exact fun h => hkl (Prod.mk.inj (Option.some.inj h))
        obtain ⟨b, hb, hstate⟩ := hq.stated (hkeep hne hsome)
        exact ⟨b, List.mem_append_left _ hb, hstate⟩
    · have hkl : ¬ (i = k ∧ j = l) := by
        rintro ⟨rfl, rfl⟩
        exact hall a (by simp) hplace
      simp only [Program.operationAt?_modifyAt, if_neg hkl]
      exact hq.others fun b hb => hall b (List.mem_append_left _ hb)

/-- **Writing goes along with a function of channels.** -/
theorem writeAccesses_image {written : List Access} {q : Program}
    (hok : writeAccesses program written = .ok q) :
    ∃ q', writeAccesses program (written.map (Access.image f)) = .ok q' ∧
      Stamped program f written q q' := by
  induction written using List.reverseRecOn generalizing q with
  | nil =>
      obtain rfl := pure_eq_ok.1 hok
      exact ⟨program, rfl, ⟨rfl, rfl⟩, ⟨rfl, rfl⟩, by simp, fun _ => ⟨rfl, rfl⟩⟩
  | append_singleton written a ih =>
      rw [writeAccesses, List.foldlM_append, bind_eq_ok] at hok
      obtain ⟨q₀, hok₀, hok⟩ := hok
      rw [List.foldlM_cons, bind_eq_ok] at hok
      obtain ⟨q₁, hset, hok⟩ := hok
      obtain rfl := pure_eq_ok.1 hok
      obtain ⟨q₀', hok₀', hstamped⟩ := ih hok₀
      obtain ⟨q₁', hset', hstamped'⟩ := hstamped.write hset
      refine ⟨q₁', ?_, hstamped'⟩
      rw [writeAccesses, List.map_append, List.foldlM_append, bind_eq_ok]
      refine ⟨q₀', hok₀', ?_⟩
      rw [List.map_singleton, List.foldlM_cons, bind_eq_ok]
      exact ⟨q₁', hset', rfl⟩

/-! ## The encoding -/

/-- Encoding writes the state at a place: it is the place of a memory operation. -/
def Writes (program : Program) (i j : Nat) : Prop :=
  ∃ op ∈ program.operations, op.kind.touchesMemory = true ∧
    program.locations[op.id]? = some (i, j)

/-- The states of one encoding are the images of those of another, and all that encoding does
not write is as it was in both. -/
structure Recolored (program : Program) (f : Channel → Channel) (fine coarse : Program) :
    Prop where
  written : ∀ {i j : Nat}, Writes program i j → ∃ uses defs,
    fine.operationAt? i j =
        (program.operationAt? i j).map ({ · with state := .encoded uses defs }) ∧
      coarse.operationAt? i j = (program.operationAt? i j).map
        ({ · with state := .encoded (uses.image f) (defs.image f) })
  others : ∀ {i j : Nat}, ¬ Writes program i j →
    fine.operationAt? i j = program.operationAt? i j ∧
    coarse.operationAt? i j = program.operationAt? i j

/-- The operations at two places have a channel in common. -/
def Shares (q : Program) (i j k l : Nat) : Prop :=
  ∃ op op', q.operationAt? i j = some op ∧ q.operationAt? k l = some op' ∧
    ∃ x, x ∈ op.state.channels ∧ x ∈ op'.state.channels

/-- Two encodings of a program count the same. -/
structure Stats.SameCounts (s t : Stats) : Prop where
  operations : t.operations = s.operations
  loads : t.loads = s.loads
  stores : t.stores = s.stores
  allocations : t.allocations = s.allocations
  frees : t.frees = s.frees
  memcpys : t.memcpys = s.memcpys
  calls : t.calls = s.calls
  callsWidened : t.callsWidened = s.callsWidened
  unknownFallbacks : t.unknownFallbacks = s.unknownFallbacks

theorem sameCounts_statsOf {policy policy' : Policy} {d : Draft} {rounds rounds' : Nat}
    {written : List Access} {encoded encoded' : Program} :
    (statsOf policy program d rounds written encoded).SameCounts
      (statsOf policy' program (d.image f) rounds' (written.map (Access.image f))
        encoded') where
  operations := List.length_map _
  loads := rfl
  stores := rfl
  allocations := rfl
  frees := rfl
  memcpys := rfl
  calls := rfl
  callsWidened := List.countP_map
  unknownFallbacks := List.foldl_map

/-- What has a channel in common still has one. -/
theorem Recolored.shares {fine coarse : Program} (h : Recolored program f fine coarse)
    {i j k l : Nat} (hw : Writes program i j) (hw' : Writes program k l)
    (hshares : Shares fine i j k l) : Shares coarse i j k l := by
  obtain ⟨uses, defs, hfine, hcoarse⟩ := h.written hw
  obtain ⟨uses', defs', hfine', hcoarse'⟩ := h.written hw'
  obtain ⟨op, op', hop, hop', x, hx, hx'⟩ := hshares
  rw [hfine, Option.map_eq_some_iff] at hop
  rw [hfine', Option.map_eq_some_iff] at hop'
  obtain ⟨before, hbefore, rfl⟩ := hop
  obtain ⟨before', hbefore', rfl⟩ := hop'
  refine ⟨_, _, by rw [hcoarse, hbefore, Option.map_some],
    by rw [hcoarse', hbefore', Option.map_some], f x, ?_, ?_⟩
  · rw [MemoryState.channels, ← IndexSet.image_union]
    exact IndexSet.mem_image.2 ⟨x, hx, rfl⟩
  · rw [MemoryState.channels, ← IndexSet.image_union]
    exact IndexSet.mem_image.2 ⟨x, hx', rfl⟩

/-- The places that an encoding writes are those of its accesses. -/
theorem Encodes.writes_iff {d : Draft} {rounds : Nat} {summaries : Array IndexSet}
    {live : List Access} {encoded : Program}
    (h : Encodes v program d rounds summaries live encoded) {i j : Nat} : Writes program i j ↔
      ∃ a ∈ d.accesses ++ live, program.locations[a.operation]? = some (i, j) := by
  have hids : ∀ id, (∃ a ∈ d.accesses ++ live, a.operation = id) ↔
      ∃ op ∈ program.operations, op.kind.touchesMemory = true ∧ op.id = id := by
    intro id
    rw [← List.mem_map, h.operations_perm.mem_iff, List.mem_map]
    simp only [List.mem_filter, and_assoc]
  constructor
  · rintro ⟨op, hop, hmemory, hplace⟩
    obtain ⟨a, ha, hid⟩ := (hids op.id).2 ⟨op, hop, hmemory, rfl⟩
    exact ⟨a, ha, hid ▸ hplace⟩
  · rintro ⟨a, ha, hplace⟩
    obtain ⟨op, hop, hmemory, hid⟩ := (hids a.operation).1 ⟨a, ha, rfl⟩
    exact ⟨op, hop, hmemory, hid ▸ hplace⟩

/-- **Encoding goes along with a function of channels.**  Every state it
writes has a channel. -/
theorem View.Folds.encode (h : v.Folds w f) {stats : Stats} {encoded : Program}
    (hok : encode v.policy v.graph program = .ok (stats, encoded)) :
    ∃ stats' encoded', encode w.policy w.graph program = .ok (stats', encoded') ∧
      Recolored program f encoded encoded' ∧ stats.SameCounts stats' ∧
      ∀ {i j op}, Writes program i j → encoded'.operationAt? i j = some op →
        ∃ x, x ∈ op.state.channels := by
  obtain ⟨d, rounds, summaries, live, hencodes, rfl⟩ := encode_eq_ok_iff.1 hok
  obtain ⟨rounds', hclosed⟩ := closeSummaries_image (f := f)
    (gatherAll_collected hencodes.gathered).lt_size_of_edge hencodes.closed
  have hlive : (d.calls.map (Call.image f)).mapM
      (Encoding.liveAccess w (summaries.map (IndexSet.image f))) =
      .ok (live.map (Access.image f)) := by
    rw [List.mapM_map]
    exact mapM_map_ok (fun c _ a ha => h.liveAccess ha) hencodes.calls
  obtain ⟨encoded', hwritten, hstamped⟩ := writeAccesses_image (f := f) hencodes.written
  have himage : Encodes w program (d.image f) rounds' (summaries.map (IndexSet.image f))
      (live.map (Access.image f)) encoded' := by
    refine ⟨h.gatherAll hencodes.gathered, ?_, hlive, ?_⟩
    · rw [Draft.callEdges_image]
      exact hclosed
    · rw [List.map_append] at hwritten
      exact hwritten
  refine ⟨_, encoded', encode_eq_ok_iff.2 ⟨_, _, _, _, himage, rfl⟩,
    ⟨fun hw => ?_, fun hw => ?_⟩, ?_, fun {i j op} hw hop => ?_⟩
  · obtain ⟨a, -, ha, ha'⟩ := hstamped.stated (hencodes.writes_iff.1 hw)
    exact ⟨a.uses, a.defs, ha, ha'⟩
  · exact hstamped.others fun a ha hplace => hw (hencodes.writes_iff.2 ⟨a, ha, hplace⟩)
  · rw [Draft.image, ← List.map_append]
    exact sameCounts_statsOf
  · obtain ⟨a, ha, -, ha'⟩ := hstamped.stated (hencodes.writes_iff.1 hw)
    rw [ha', Option.map_eq_some_iff] at hop
    obtain ⟨before, -, rfl⟩ := hop
    obtain ⟨x, hx⟩ := hencodes.touched ha
    refine ⟨f x, ?_⟩
    rw [MemoryState.channels, ← IndexSet.image_union]
    exact IndexSet.mem_image.2 ⟨x, hx, rfl⟩

/-- **Coarser policies are images of the policy per object.**  Whenever encoding a program by a
graph goes through with a channel per memory node, it goes through with at most `k` channels
and with a single one.  Every state it writes is then the image of the state written per
object, by the remainder by `k` or by zero; what it does not write is the same, and so is what
it counts.  So every memory operation has the single channel, and operations that share a
channel per object always share one. -/
theorem encode_coarser {graph numbered : Graph} {limit k : Nat} {perObject : Policy}
    {stats : Stats} {encoded : Program}
    (hpolicy : Policy.create .perObject numbered limit = .ok perObject)
    (hok : encode perObject graph program = .ok (stats, encoded)) (hk : 1 ≤ k)
    (hmax : k ≤ maxNumber) :
    (∃ bounded stats' encoded', Policy.create .bounded numbered k = .ok bounded ∧
      encode bounded graph program = .ok (stats', encoded') ∧
      Recolored program (· % k) encoded encoded' ∧ stats.SameCounts stats' ∧
      ∀ i j i' j', Writes program i j → Writes program i' j' → Shares encoded i j i' j' →
        Shares encoded' i j i' j') ∧
    ∃ shared stats' encoded', Policy.create .single numbered k = .ok shared ∧
      encode shared graph program = .ok (stats', encoded') ∧
      Recolored program (fun _ => 0) encoded encoded' ∧ stats.SameCounts stats' ∧
      (∀ i j i' j', Writes program i j → Writes program i' j' → Shares encoded i j i' j' →
        Shares encoded' i j i' j') ∧
      ∀ i j op, Writes program i j → encoded'.operationAt? i j = some op →
        op.state.channels = .singleton 0 := by
  obtain rfl := Except.ok.inj hpolicy
  refine ⟨?_, ?_⟩
  · have hfolds :
        View.Folds ⟨graph, .perObject (.of numbered)⟩ ⟨graph, .bounded (.of numbered) k⟩
        (· % k) :=
      ⟨rfl, fun {node x} hx => by
        have hx : (Numbering.of numbered).ordinal node = .ok x := hx
        simp only [Policy.channelOf, hx]
        rfl⟩
    obtain ⟨stats', encoded', hok', hrecolored, hcounts, -⟩ := hfolds.encode hok
    refine ⟨.bounded (.of numbered) k, stats', encoded', ?_, hok', hrecolored, hcounts,
      fun i j i' j' hw hw' => hrecolored.shares hw hw'⟩
    rw [Policy.create, if_neg (by omega), if_neg (by omega)]
  · have hfolds : View.Folds ⟨graph, .perObject (.of numbered)⟩ ⟨graph, .single⟩ fun _ => 0 :=
      ⟨rfl, fun _ => rfl⟩
    obtain ⟨stats', encoded', hok', hrecolored, hcounts, hsome⟩ := hfolds.encode hok
    refine ⟨.single, stats', encoded', rfl, hok', hrecolored, hcounts,
      fun i j i' j' hw hw' => hrecolored.shares hw hw', fun i j op hw hop => ?_⟩
    obtain ⟨x, hx⟩ := hsome hw hop
    obtain ⟨uses, defs, -, hcoarse⟩ := hrecolored.written hw
    rw [hcoarse, Option.map_eq_some_iff] at hop
    obtain ⟨before, -, rfl⟩ := hop
    rw [MemoryState.channels, ← IndexSet.image_union, IndexSet.mem_image] at hx
    obtain ⟨y, hy, -⟩ := hx
    refine IndexSet.ext_mem fun z => ?_
    rw [MemoryState.channels, ← IndexSet.image_union, IndexSet.mem_image,
      IndexSet.mem_singleton]
    constructor
    · rintro ⟨_, -, rfl⟩
      rfl
    · rintro rfl
      exact ⟨y, hy, rfl⟩

/-- Two slots, the address of one in the other, and a call that passes it on. -/
def slotCommands : List Command :=
  [.declareFunction "main" [], .alloca 0 "a", .alloca 0 "b", .store 0 1 2, .load 0 1 .pointer,
    .call 0 0 [3] []]

theorem encode_coarser_slotCommands : ∃ program result perObject stats encoded,
    Program.build? slotCommands = .ok program ∧
    Analysis.analyze .default program = .ok result ∧
    Policy.create .perObject result.graph 0 = .ok perObject ∧
    encode perObject result.graph program = .ok (stats, encoded) ∧ 1 ≤ 2 ∧ 2 ≤ maxNumber ∧
    ∃ bounded stats' encoded', Policy.create .bounded result.graph 2 = .ok bounded ∧
      encode bounded result.graph program = .ok (stats', encoded') ∧
      Recolored program (· % 2) encoded encoded' ∧ stats.SameCounts stats' := by
  have hrun : (do
      let program ← (Program.build? slotCommands).toOption
      let result ← (Analysis.analyze .default program).toOption
      let policy ← (Policy.create .perObject result.graph 0).toOption
      let run ← (encode policy result.graph program).toOption
      return decide (run.1.operations = 5)) = some true := by decide +kernel
  simp only [Option.bind_eq_bind, Option.bind_eq_some_iff, toOption_eq_some, Option.pure_def,
    Option.some.injEq, decide_eq_true_eq, Prod.exists] at hrun
  obtain ⟨program, hbuild, result, hanalyze, policy, hpolicy, stats, encoded, hok, -⟩ := hrun
  obtain ⟨⟨bounded, stats', encoded', hbounded, hok', hrecolored, hcounts, -⟩, -⟩ :=
    encode_coarser hpolicy hok (by decide : 1 ≤ 2) (by decide)
  exact ⟨program, result, policy, stats, encoded, hbuild, hanalyze, hpolicy, hok, by decide,
    by decide, bounded, stats', encoded', hbounded, hok', hrecolored, hcounts⟩

end Encoding
end PointerChannels
