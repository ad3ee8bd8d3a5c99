import PointerChannels.Proofs.Inclusion.Collapse

/-!
# A run of the inclusion solver

Taking a root off the worklist settles the pointees that waited at it.  They are handled, they
flow along the edges of the root, and then the state is steady again: what is settled has been
handled and has flowed.  Every root that is taken lowers the work left, so a run whose bound is
at least the work left ends with an empty worklist, and then everything is settled.
-/

namespace PointerChannels.Inclusion.State

variable {s t u : State} {base : Pool} {T : Family}

/-- A state within a family in which what is settled has been handled, unless it was
overlooked, and has flowed. -/
structure Steady (base : Pool) (T : Family) (s : State) : Prop where
  valid : s.Valid base T
  obliged : s.Obliged
  handles : s.Handles (s.Overlooked base)
  flows : s.Flows fun _ _ _ => False

/-! ## Letting pointees flow -/

/-- A state in which all that is settled has been handled, unless it was overlooked, and has
flowed but for some pointees of a root and some of its edges. -/
structure Flowing (base : Pool) (T : Family) (root : Nat)
    (pointees rest : List Nat) (s : State) : Prop where
  valid : s.Valid base T
  obliged : s.Obliged
  isRoot : s.pool.isRoot root = true
  handles : s.Handles (s.Overlooked base)
  flows : s.Flows fun r o x => r = root ∧ o ∈ pointees ∧ x ∈ rest
  supersets : ∀ x ∈ rest, x ∈ (s.linksAt root).supersets
  stored : ∀ o ∈ pointees, o ∈ s.pool.stored root

namespace Flowing

variable {root x : Nat} {pointees rest : List Nat}

theorem congr (h : Flowing base T root pointees rest s) (ha : Agrees s t) :
    Flowing base T root pointees rest t where
  valid := h.valid.congr ha
  obliged := h.obliged.congr ha
  isRoot := by rw [ha.pool_eq]; exact h.isRoot
  handles := ha.extends_.handles_overlooked h.handles
  flows := ha.extends_.flows h.flows
  supersets y hy := by rw [ha.linksAt_eq]; exact h.supersets y hy
  stored o ho := by rw [ha.pool_eq]; exact h.stored o ho

/-- An edge along which the settled pointees have flowed is done. -/
theorem done (h : Flowing base T root pointees (x :: rest) s)
    (hx : ∀ o ∈ pointees, s.Settled root o → o ∈ s.pool.pointsTo x) :
    Flowing base T root pointees rest s := by
  refine { h with
    flows := fun r o y hy ho hskip => ?_
    supersets := fun y hy => h.supersets y (List.mem_cons_of_mem x hy) }
  by_cases hlate : r = root ∧ o ∈ pointees ∧ y = x
  · obtain ⟨rfl, hmem, rfl⟩ := hlate
    exact hx o hmem ho
  · refine h.flows r o y hy ho fun ⟨hr, hmem, hy'⟩ => ?_
    rcases List.mem_cons.1 hy' with rfl | hy'
    · exact hlate ⟨hr, hmem, rfl⟩
    · exact hskip ⟨hr, hmem, hy'⟩

theorem steady (h : Flowing base T root pointees [] s) : Steady base T s where
  valid := h.valid
  obliged := h.obliged
  handles := h.handles
  flows r o x hx ho _ := h.flows r o x hx ho fun hskip => absurd hskip.2.2 List.not_mem_nil

/-- The family lets the root's pointees flow along its edges. -/
theorem subset (h : Flowing base T root pointees (x :: rest) s) :
    T root ⊆ T (s.pool.rootOf x) := by
  rw [h.valid.below.uniform]
  exact h.valid.below.supersets root x (h.supersets x List.mem_cons_self)

theorem successor_lt (h : Flowing base T root pointees (x :: rest) s) : x < s.pool.size :=
  h.valid.supersets_lt root x (h.supersets x List.mem_cons_self)

theorem target_isRoot (h : Flowing base T root pointees (x :: rest) s) :
    s.pool.isRoot (s.pool.rootOf x) = true :=
  h.valid.forest.isRoot_rootOf h.successor_lt

/-- The edge leads to a root, and the pointees may flow to it. -/
theorem checkFlow (h : Flowing base T root pointees (x :: rest) s) :
    s.checkFlow root (s.pool.rootOf x) pointees = .ok () :=
  h.valid.checkFlow h.isRoot h.target_isRoot fun o ho => h.valid.objects root o (h.stored o ho)

/-- What flows along an edge: all of the root's set, or the pointees that are new to the
root. -/
theorem exists_flow (h : Flowing base T root pointees (x :: rest) s) : ∃ objects,
    s.flow root (s.pool.rootOf x) pointees = s.insertPointees (s.pool.rootOf x) objects ∧
    (∀ o ∈ objects, o ∈ s.pool.stored root) ∧
    ∀ o ∈ pointees, s.Settled root o → o ∈ objects := by
  refine ⟨_, rfl, ?_⟩
  by_cases hd : s.settings.differences = true
  · rw [if_pos hd]
    exact ⟨h.stored, fun o ho _ => ho⟩
  · rw [if_neg hd]
    exact ⟨fun o ho => ho, fun o _ hset => hset.1⟩

/-- Telling the target of an edge of objects that include the settled
pointees of its source. -/
theorem learn (h : Flowing base T root pointees (x :: rest) s) {objects : List Nat}
    (hobjects : ∀ o ∈ objects, o ∈ s.pool.stored root)
    (hcovers : ∀ o ∈ pointees, s.Settled root o → o ∈ objects) :
    Grown base T s (s.learn (s.pool.rootOf x) objects) ∧
      Flowing base T root pointees rest (s.learn (s.pool.rootOf x) objects) := by
  have hlt := Pool.lt_size_of_isRoot h.target_isRoot
  have htold := told_learn hlt (h.valid.lt_links hlt) objects
  have hgrown := h.valid.grown_learn h.target_isRoot fun o ho =>
    ⟨h.valid.objects root o (hobjects o ho),
      h.subset (h.valid.below.stored root o (hobjects o ho))⟩
  have hflowing :
      Flowing base T root pointees (x :: rest) (s.learn (s.pool.rootOf x) objects) := by
    refine ⟨hgrown.valid, hgrown.ext.obliged h.obliged (fun hc => .inl (htold.calls_eq ▸ hc))
      htold.exposed_eq, by rw [htold.isRoot_eq]; exact h.isRoot,
      hgrown.ext.handles_overlooked h.handles, hgrown.ext.flows h.flows, fun y hy => ?_,
      fun o ho => ?_⟩
    · rw [htold.supersets_eq]
      exact h.supersets y hy
    · exact (htold.mem_stored root o).2 (.inl (h.stored o ho))
  refine ⟨hgrown, hflowing.done fun o ho hset => ?_⟩
  rw [Pool.pointsTo, htold.rootOf_eq, htold.mem_stored]
  exact .inr ⟨rfl, hcovers o ho (hgrown.ext.settled root o hset).1⟩

/-- Looking for a cycle through the root.  When one is merged the root waits again, so nothing
is left to flow. -/
theorem probe (h : Flowing base T root pointees rest s) (hcycles : s.settings.cycles = true)
    {target : Nat} (htarget : s.pool.isRoot target = true) (hT : T root ⊆ T target) :
    ∃ found t, s.probe root target = .ok (found, t) ∧ Carried base T s t ∧
      (found = true → Steady base T t) ∧
      (found = false → Flowing base T root pointees rest t) := by
  obtain ⟨found, t, hok, hprobed, hagrees, hunsettled⟩ :=
    h.valid.probe h.obliged hcycles h.isRoot htarget hT
  refine ⟨found, t, hok, hprobed, fun hfound => ?_, fun hfound => h.congr (hagrees hfound)⟩
  refine ⟨hprobed.valid, hprobed.obliged, hprobed.follows.handles_overlooked h.handles,
    fun r o y hy hset _ => ?_⟩
  refine hprobed.follows.flows h.flows r o y hy hset fun hskip => ?_
  exact hunsettled hfound o (hskip.1 ▸ hset)

end Flowing

/-- Taking note that something new flowed is putting the target on the worklist. -/
theorem agrees_noteGrowth (s : State) (r : Nat) : Agrees (s.push r) (s.noteGrowth r) := by
  unfold noteGrowth push
  by_cases hq : r ∈ s.queue
  · rw [if_pos hq, if_pos (show r ∈ s.queue from hq)]
    exact ⟨rfl, rfl, rfl, rfl, rfl, rfl⟩
  · rw [if_neg hq, if_neg (show ¬ r ∈ s.queue from hq)]
    exact ⟨rfl, rfl, rfl, rfl, rfl, rfl⟩

/-- **A root's pointees flow along its edges**, or a cycle through the root is merged. -/
theorem Flowing.flowAll {root : Nat} {pointees : List Nat} :
    ∀ {rest : List Nat} {s : State}, Flowing base T root pointees rest s →
      ∃ t, State.flowAll root pointees rest s = .ok t ∧ Carried base T s t ∧
        Steady base T t := by
  intro rest
  induction rest with
  | nil =>
      intro s h
      exact ⟨s, rfl, .refl h.valid h.obliged, h.steady⟩
  | cons x rest ih =>
      intro s h
      simp only [State.flowAll, h.valid.forest.root_handle h.successor_lt, h.checkFlow, bind,
        Except.bind]
      by_cases hself : s.pool.rootOf x = root
      · rw [if_pos hself]
        refine ih (h.done fun o _ hset => ?_)
        rw [Pool.pointsTo, hself]
        exact hset.1
      rw [if_neg hself]
      obtain ⟨objects, hflow, hobjects, hcovers⟩ := h.exists_flow
      obtain ⟨hgrown, hflowing⟩ := h.learn hobjects hcovers
      have hcarried : Carried base T s (s.learn (s.pool.rootOf x) objects) :=
        ⟨hgrown.valid, hflowing.obliged, hgrown.ext.toFollows, hgrown.work_le⟩
      rw [hflow]
      rw [State.learn] at hflowing hcarried
      cases hins : s.insertPointees (s.pool.rootOf x) objects with
      | mk learnt u =>
          rw [hins] at hflowing hcarried
          cases learnt with
          | true =>
              have hagrees := agrees_noteGrowth u (s.pool.rootOf x)
              obtain ⟨t, hok, hcarried', hsteady⟩ := ih (hflowing.congr hagrees)
              exact ⟨t, hok, (hcarried.congr hagrees).trans hcarried', hsteady⟩
          | false =>
              have hflowing' : Flowing base T root pointees rest u := hflowing
              have hcarried' : Carried base T s u := hcarried
              show ∃ t, (if pointees.isEmpty ∨ ¬ u.settings.cycles then _ else _) = _ ∧ _
              by_cases hquiet : pointees.isEmpty ∨ ¬ u.settings.cycles
              · rw [if_pos hquiet]
                obtain ⟨t, hok, hrest, hsteady⟩ := ih hflowing'
                exact ⟨t, hok, hcarried'.trans hrest, hsteady⟩
              rw [if_neg hquiet]
              have hcycles : u.settings.cycles = true := not_not.1 (not_or.1 hquiet).2
              have htarget : u.pool.isRoot (s.pool.rootOf x) = true := by
                have htold := (told_insertPointees (Pool.lt_size_of_isRoot h.target_isRoot)
                  (h.valid.lt_links (Pool.lt_size_of_isRoot h.target_isRoot)) objects).1
                rw [hins] at htold
                rw [htold.isRoot_eq]
                exact h.target_isRoot
              obtain ⟨found, t, hok, hprobed, hmerged, hleft⟩ :=
                hflowing'.probe hcycles htarget h.subset
              simp only [hok]
              cases found with
              | true => exact ⟨t, rfl, hcarried'.trans hprobed, hmerged rfl⟩
              | false =>
                  obtain ⟨t', hok', hrest, hsteady⟩ := ih (hleft rfl)
                  exact ⟨t', hok', (hcarried'.trans hprobed).trans hrest, hsteady⟩

/-! ## Taking a root -/

theorem pop?_perm {discipline : Discipline} {queue rest : List Nat} {next : Nat}
    (h : pop? discipline queue = some (next, rest)) : queue.Perm (next :: rest) := by
  cases discipline with
  | fifo =>
      cases queue with
      | nil => simp [pop?] at h
      | cons x queue =>
          simp only [pop?, List.head?_cons, List.tail_cons, Option.map_some, Option.some.injEq,
            Prod.mk.injEq] at h
          obtain ⟨rfl, rfl⟩ := h
          exact .refl _
  | lifo =>
      simp only [pop?, Option.map_eq_some_iff, Prod.mk.injEq] at h
      obtain ⟨x, hlast, rfl, rfl⟩ := h
      have happend := List.dropLast_append_getLast? x hlast
      exact (happend ▸ List.perm_append_singleton x queue.dropLast : queue.Perm _)

theorem pop?_eq_none {discipline : Discipline} {queue : List Nat}
    (h : pop? discipline queue = none) : queue = [] := by
  cases discipline with
  | fifo => simpa [pop?] using h
  | lifo => simpa [pop?] using h

/-- Take a root off the worklist.  With difference propagation none of its
pointees is fresh any more. -/
def take (s : State) (root : Nat) (queue : List Nat) (stats : Stats) : State :=
  let s := { s with queue, stats }
  if s.settings.differences then s.modifyLinks root ({ · with fresh := .empty }) else s

section Take

variable {root next : Nat} {queue : List Nat} {stats : Stats}

@[simp] theorem pool_take : (s.take root queue stats).pool = s.pool := by
  simp only [take]; split <;> rfl

@[simp] theorem calls_take : (s.take root queue stats).calls = s.calls := by
  simp only [take]; split <;> rfl

@[simp] theorem queue_take : (s.take root queue stats).queue = queue := by
  simp only [take]; split <;> rfl

@[simp] theorem settings_take : (s.take root queue stats).settings = s.settings := by
  simp only [take]; split <;> rfl

@[simp] theorem exposed_take : (s.take root queue stats).exposed = s.exposed := by
  simp only [take]; split <;> rfl

@[simp] theorem size_links_take : (s.take root queue stats).links.size = s.links.size := by
  simp only [take]
  split
  · exact size_links_modifyLinks
  · rfl

theorem linksAt_take (h : root < s.links.size) (r : Nat) :
    (s.take root queue stats).linksAt r =
    { s.linksAt r with fresh := if s.settings.differences ∧ r = root then .empty
      else (s.linksAt r).fresh } := by
  simp only [take]
  by_cases hd : s.settings.differences = true
  · rw [if_pos hd, linksAt_modifyLinks (s := { s with queue, stats }) h]
    by_cases hr : r = root
    · subst hr
      simp only [hd, and_self, if_true]
      rfl
    · simp only [hr, and_false, if_false]
      rfl
  · rw [if_neg hd, if_neg fun hboth => hd hboth.1]
    rfl

theorem waits_take (hpop : s.queue.Perm (next :: queue)) {r : Nat} :
    s.Waits r ↔ s.pool.rootOf next = r ∨ (s.take root queue stats).Waits r := by
  simp only [Waits, queue_take, pool_take, hpop.mem_iff, List.mem_cons, exists_eq_or_imp]

/-- What is settled once a root was taken was settled before or waited at the root. -/
theorem settled_take (hpop : s.queue.Perm (next :: queue)) (hroot : s.pool.rootOf next = root)
    (hlinks : root < s.links.size) {r o : Nat} (h : (s.take root queue stats).Settled r o)
    (hnew : ¬ (r = root ∧ o ∈ s.waiting r)) : s.Settled r o := by
  by_cases hd : s.settings.differences = true
  · rw [settled_iff_fresh (by rwa [settings_take]), pool_take, linksAt_take hlinks] at h
    rw [settled_iff_fresh hd]
    refine ⟨h.1, fun hfresh => ?_⟩
    by_cases hr : r = root
    · rw [waiting, if_pos hd] at hnew
      exact hnew ⟨hr, hfresh⟩
    · refine h.2 ?_
      rw [if_neg fun hboth => hr hboth.2]
      exact hfresh
  · rw [settled_iff_waits (by rwa [settings_take]), pool_take] at h
    rw [settled_iff_waits hd]
    refine ⟨h.1, fun hwaits => ?_⟩
    rcases (waits_take hpop).1 hwaits with hr | hwaits
    · rw [waiting, if_neg hd] at hnew
      exact hnew ⟨hr.symm.trans hroot, h.1⟩
    · exact h.2 hwaits

/-- What waits at a root is in its set. -/
theorem stored_of_waiting (hfresh : ∀ r o, o ∈ (s.linksAt r).fresh → o ∈ s.pool.stored r)
    {o : Nat} (h : o ∈ s.waiting root) : o ∈ s.pool.stored root := by
  rw [waiting] at h
  split at h
  · exact hfresh root o h
  · exact h

/-- What waits at a root was not there from the start. -/
theorem Valid.not_overlooked_of_waiting (hs : s.Valid base T) {o : Nat}
    (h : o ∈ s.waiting root) : ¬ s.Overlooked base root o := by
  intro hover
  rw [waiting, if_pos hover.1] at h
  exact hs.fresh_new root o h hover

theorem keeps_take (hlinks : root < s.links.size) : Keeps s (s.take root queue stats) where
  settings_eq := settings_take
  same := by rw [pool_take]; exact .refl _
  joins i j h := by rwa [pool_take]
  grows i o h := by rwa [pool_take]
  hasEdge x y h := by
    simp only [HasEdge, pool_take, linksAt_take hlinks]
    exact h
  loads i v h := by rwa [pool_take, linksAt_take hlinks]
  stores i v h := by rwa [pool_take, linksAt_take hlinks]
  calls i c h := by rwa [pool_take, linksAt_take hlinks]
  site c x h := by rwa [calls_take]
  bound c o h := by simpa only [Bound, calls_take] using h
  exposed o h := by rwa [exposed_take]

theorem Valid.take (hs : s.Valid base T) (hpop : s.queue.Perm (next :: queue))
    (hroot : s.pool.rootOf next = root) (hlinks : root < s.links.size) :
    (s.take root queue stats).Valid base T := by
  have hat : ∀ r, (s.take root queue stats).linksAt r = _ := linksAt_take hlinks
  have hfresh : ∀ r o, o ∈ ((s.take root queue stats).linksAt r).fresh →
      o ∈ (s.linksAt r).fresh ∧ ¬ (s.settings.differences = true ∧ r = root) := by
    intro r o h
    rw [hat] at h
    simp only at h
    split at h
    · exact absurd h (IndexSet.not_mem_empty o)
    · rename_i hr
      exact ⟨h, hr⟩
  refine hs.extend settings_take (by rw [pool_take]; exact .refl _)
    (by rw [pool_take]; exact hs.forest) (fun i => by rw [pool_take]) (keeps_take hlinks).grows
    size_links_take
    (fun r o h => .inl (by rwa [pool_take] at h)) (fun r x h => .inl (by rwa [hat] at h))
    (fun r v h => .inl (by rwa [hat] at h)) (fun r v h => .inl (by rwa [hat] at h))
    (fun r c h => .inl (by rwa [hat] at h)) (fun c => by rw [calls_take]) (fun e he => ?_)
    (fun r o h => ?_) (fun hd r o h => ?_) (fun r o h => .inl (hfresh r o h).1)
  · rw [queue_take] at he
    exact hs.queue_lt e (hpop.mem_iff.2 (List.mem_cons_of_mem next he))
  · rw [pool_take]
    exact hs.fresh_sub r o (hfresh r o h).1
  · rw [settings_take] at hd
    obtain ⟨hold, hr⟩ := hfresh r o h
    refine ((waits_take hpop).1 (hs.fresh_waits hd r o hold)).resolve_left fun e => ?_
    exact hr ⟨hd, e.symm.trans hroot⟩

theorem work_take (hpop : s.queue.Perm (next :: queue)) (hlinks : root < s.links.size) :
    (s.take root queue stats).work < s.work := by
  have hlen := hpop.length_eq
  rw [List.length_cons] at hlen
  simp only [work, slack, pool_take, queue_take, linksAt_take hlinks]
  omega

end Take

/-- Doing all that a root asks for, from the state in which it was taken, after the checks. -/
theorem process_eq (order : SetOrder) (root : Nat) (queue : List Nat) (stats : Stats)
    {pointees : List Nat}
    (hpointees : order.arrange (2 * stats.iterations) (s.waiting root).toList = pointees) :
    ({ s with queue, stats } : State).process order root =
      (s.checkTaken root >>= fun _ =>
        (if pointees.isEmpty then pure (s.take root queue stats)
          else (s.take root queue stats).conditionals root pointees) >>= fun u =>
            checkIndex u.links root >>= fun _ => State.flowAll root pointees
              (order.arrange (2 * stats.iterations + 1) (u.linksAt root).supersets.toList)
              u) := by
  subst hpointees
  refine bind_congr fun _ => ?_
  by_cases hempty : (order.arrange (2 * stats.iterations) (s.waiting root).toList).isEmpty = true
  · rw [if_pos hempty]
    exact if_pos hempty
  · rw [if_neg hempty]
    exact if_neg hempty

section Process

variable {root next : Nat} {queue pointees : List Nat}

/-- Taking a root off the worklist leaves only its waiting pointees to be handled and to
flow. -/
theorem Steady.taken (hs : Steady base T s) (stats : Stats)
    (hpop : s.queue.Perm (next :: queue)) (hr : s.pool.rootOf next = root)
    (hlinks : root < s.links.size) :
    (s.take root queue stats).Obliged ∧
      (s.take root queue stats).Handles
        (fun r o => s.Overlooked base r o ∨ r = root ∧ o ∈ s.waiting root) ∧
      (s.take root queue stats).Flows fun r o _ => r = root ∧ o ∈ s.waiting root := by
  have hkeeps : Keeps s (s.take root queue stats) := keeps_take hlinks
  have hsettled : ∀ {r o : Nat}, (s.take root queue stats).Settled r o →
      ¬ (r = root ∧ o ∈ s.waiting root) → s.Settled r o := by
    intro r o ho hnew
    refine settled_take hpop hr hlinks ho fun ⟨hroot', hw⟩ => hnew ⟨hroot', ?_⟩
    rw [← hroot']
    exact hw
  refine ⟨?_, fun r o ho hnew => ?_, fun r o x hx ho hnew => ?_⟩
  · exact hkeeps.obliged hs.obliged (fun h => .inl (by rwa [calls_take] at h))
      (by rw [exposed_take])
  · obtain ⟨hover, hnew⟩ := not_or.1 hnew
    exact hkeeps.handled (fun i hi => by rwa [pool_take] at hi) (by rw [linksAt_take hlinks])
      (by rw [linksAt_take hlinks]) (by rw [linksAt_take hlinks])
      (hs.handles r o (hsettled ho hnew) hover)
  · rw [linksAt_take hlinks] at hx
    exact hkeeps.grows x o (hs.flows r o x hx (hsettled ho hnew) not_false)

/-- Loads, stores and calls through a root that was taken are met for the pointees that
waited. -/
theorem Steady.conditionals (hs : Steady base T s) (stats : Stats)
    (hpop : s.queue.Perm (next :: queue)) (hr : s.pool.rootOf next = root)
    (hroot : s.pool.isRoot root = true) (hwaits : ∀ o ∈ pointees, o ∈ s.waiting root) :
    ∃ u, (if pointees.isEmpty then pure (s.take root queue stats)
        else (s.take root queue stats).conditionals root pointees) = .ok u ∧
      Advanced base T (s.take root queue stats) u ∧ ∀ o ∈ pointees, u.Handled root o := by
  have hlt := Pool.lt_size_of_isRoot hroot
  have hlinks := hs.valid.lt_links hlt
  have hvalid : (s.take root queue stats).Valid base T := hs.valid.take hpop hr hlinks
  obtain ⟨hobliged, -⟩ := hs.taken stats hpop hr hlinks
  by_cases hempty : pointees.isEmpty = true
  · rw [if_pos hempty]
    refine ⟨_, rfl, .refl hvalid hobliged, fun o ho => ?_⟩
    rw [List.isEmpty_iff] at hempty
    exact absurd (hempty ▸ ho) List.not_mem_nil
  · rw [if_neg hempty]
    refine hvalid.conditionals hobliged (by rwa [pool_take]) fun o ho => ?_
    have hstored := stored_of_waiting hs.valid.fresh_sub (hwaits o ho)
    have hexempt : o ∉ (s.take root queue stats).exempt base root := fun hex =>
      hs.valid.not_overlooked_of_waiting (hwaits o ho)
        ((overlooked_congr settings_take fun i => by rw [pool_take]).1 hex.2)
    rw [pool_take]
    exact ⟨(hs.valid.objects root o hstored).1, hs.valid.below.stored root o hstored, hexempt⟩

/-- Once they are met, the pointees that waited are all that is left to flow, along all edges
of the root. -/
theorem Steady.flowing (hs : Steady base T s) {stats : Stats}
    (hpop : s.queue.Perm (next :: queue)) (hr : s.pool.rootOf next = root)
    (hroot : s.pool.isRoot root = true) (hmem : ∀ o, o ∈ pointees ↔ o ∈ s.waiting root)
    (hadvanced : Advanced base T (s.take root queue stats) u)
    (hhandled : ∀ o ∈ pointees, u.Handled root o) {edges : List Nat}
    (hedges : ∀ x, x ∈ edges ↔ x ∈ (u.linksAt root).supersets) :
    Flowing base T root pointees edges u := by
  have hlt := Pool.lt_size_of_isRoot hroot
  have hrootOf : ∀ i, u.pool.rootOf i = s.pool.rootOf i := fun i => by
    rw [hadvanced.ext.rootOf_eq, pool_take]
  obtain ⟨-, hhandles, hflows⟩ := hs.taken stats hpop hr (hs.valid.lt_links hlt)
  constructor
  case valid => exact hadvanced.valid
  case obliged => exact hadvanced.obliged
  case isRoot =>
    have hlt' : root < u.pool.size := by rwa [hadvanced.ext.same.size_eq, pool_take]
    rw [hadvanced.valid.forest.isRoot_iff_rootOf hlt', hrootOf]
    exact Pool.rootOf_of_isRoot hroot
  case handles =>
    intro r o ho hover
    by_cases hnew : r = root ∧ o ∈ pointees
    · exact hnew.1 ▸ hhandled o hnew.2
    · refine hadvanced.ext.handles hhandles (fun _ _ _ h => h) r o ho fun h => ?_
      rcases h with h | h
      · have hsettings := hadvanced.ext.settings_eq.trans settings_take
        exact hover ((overlooked_congr hsettings hrootOf).2 h)
      · exact hnew ⟨h.1, (hmem o).2 h.2⟩
  case flows =>
    intro r o x hx ho hskip
    refine hadvanced.ext.flows hflows r o x hx ho fun hnew =>
      hskip ⟨hnew.1, (hmem o).2 hnew.2, ?_⟩
    exact (hedges x).2 (hnew.1 ▸ hx)
  case supersets => exact fun x hx => (hedges x).1 hx
  case stored =>
    intro o ho
    have hgrows := hadvanced.ext.grows root o
    rw [Pool.pointsTo, Pool.pointsTo, hrootOf, pool_take, Pool.rootOf_of_isRoot hroot] at hgrows
    exact hgrows (stored_of_waiting hs.valid.fresh_sub ((hmem o).1 ho))

/-- **Taking a root and doing all it asks for keeps the state steady** and lowers the work
left. -/
theorem Steady.process (hs : Steady base T s) (order : SetOrder) {stats : Stats}
    (hpop : s.queue.Perm (next :: queue)) :
    ∃ t, ({ s with queue, stats } : State).process order (s.pool.rootOf next) = .ok t ∧
      Steady base T t ∧ Keeps s t ∧ t.work < s.work := by
  have hnext : next < s.pool.size := hs.valid.queue_lt next (hpop.mem_iff.2 List.mem_cons_self)
  have hroot := hs.valid.forest.isRoot_rootOf hnext
  generalize hr : s.pool.rootOf next = root at hroot
  have hlt := Pool.lt_size_of_isRoot hroot
  have hlinks := hs.valid.lt_links hlt
  -- the pointees that waited, in the order they are taken
  obtain ⟨pointees, hpointees, hmem⟩ : ∃ pointees, order.arrange (2 * stats.iterations)
      (s.waiting root).toList = pointees ∧ ∀ o, o ∈ pointees ↔ o ∈ s.waiting root :=
    ⟨_, rfl, fun _ => SetOrder.mem_arrange⟩
  obtain ⟨u, hok, hadvanced, hhandled⟩ :=
    hs.conditionals stats hpop hr hroot fun o ho => (hmem o).1 ho
  have hflowing : Flowing base T root pointees
      (order.arrange (2 * stats.iterations + 1) (u.linksAt root).supersets.toList) u :=
    hs.flowing hpop hr hroot hmem hadvanced hhandled fun _ => SetOrder.mem_arrange
  obtain ⟨t, hok', hcarried, hsteady⟩ := hflowing.flowAll
  have hkeeps := hadvanced.ext.toKeeps.trans hcarried.follows.toKeeps
  refine ⟨t, ?_, hsteady, (keeps_take hlinks).trans hkeeps, ?_⟩
  · have hlt' : root < u.pool.size := by rwa [hadvanced.ext.same.size_eq, pool_take]
    rw [process_eq order root queue stats hpointees]
    exact bind_eq_ok.2 ⟨(), hs.valid.checkTaken hroot, bind_eq_ok.2 ⟨u, hok,
      bind_eq_ok.2 ⟨(), hadvanced.valid.check_links hlt', hok'⟩⟩⟩
  · exact lt_of_le_of_lt (hcarried.work_le.trans hadvanced.work_le) (work_take hpop hlinks)

end Process

theorem Steady.step (hs : Steady base T s) (order : SetOrder) (hqueue : s.queue ≠ []) :
    ∃ t, s.step order = .ok t ∧ Steady base T t ∧ Keeps s t ∧ t.work < s.work := by
  unfold State.step
  cases hpop : pop? s.settings.discipline s.queue with
  | none => exact absurd (pop?_eq_none hpop) hqueue
  | some popped =>
      have hnext := hs.valid.queue_lt popped.1 ((pop?_perm hpop).mem_iff.2 List.mem_cons_self)
      obtain ⟨t, hok, hsteady⟩ := hs.process order (pop?_perm hpop)
      exact ⟨t, bind_eq_ok.2 ⟨_, hs.valid.forest.root_handle hnext, hok⟩, hsteady⟩

/-! ## Taking roots until none waits -/

/-- Roots are taken off the worklist one after the other, as many as the number says, each
while there is one to take. -/
inductive Pops (order : SetOrder) : Nat → State → State → Prop
  /-- No root is taken. -/
  | zero (s : State) : Pops order 0 s s
  /-- A root is taken, and then the others. -/
  | succ {k : Nat} {s t u : State} : s.queue ≠ [] → s.step order = .ok t → Pops order k t u →
      Pops order (k + 1) s u

/-- **The worklist runs empty**, before more roots are taken than there was work left. -/
theorem Steady.pops (order : SetOrder) {s : State} (hs : Steady base T s) :
    ∃ k t, Pops order k s t ∧ Steady base T t ∧ Keeps s t ∧ t.queue = [] ∧ k ≤ s.work := by
  -- every root that is taken lowers the work left
  generalize hwork : s.work = work
  induction work using Nat.strong_induction_on generalizing s with
  | _ work ih =>
      by_cases hqueue : s.queue = []
      · exact ⟨0, s, .zero s, hs, .refl s, hqueue, Nat.zero_le _⟩
      obtain ⟨t, hok, ht, hkeeps, hlt⟩ := hs.step order hqueue
      obtain ⟨k, u, hpops, hu, hkeeps', hempty, hk⟩ := ih t.work (hwork ▸ hlt) ht rfl
      exact ⟨k + 1, u, .succ hqueue hok hpops, hu, hkeeps.trans hkeeps', hempty, by omega⟩

/-- A run that may take enough roots ends where the worklist is empty. -/
theorem Pops.propagate {order : SetOrder} {k : Nat} (h : Pops order k s t)
    (hqueue : t.queue = []) {bound : Nat} (hbound : k ≤ bound) :
    s.propagate order bound = .ok t := by
  induction h generalizing bound with
  | zero s =>
      cases bound with
      | zero => rfl
      | succ bound => rw [State.propagate, if_pos (List.isEmpty_iff.2 hqueue)]
  | succ hne hok _ ih =>
      cases bound with
      | zero => exact absurd hbound (Nat.not_succ_le_zero _)
      | succ bound =>
          rw [State.propagate, if_neg fun he => hne (List.isEmpty_iff.1 he), hok]
          exact ih hqueue (Nat.le_of_succ_le_succ hbound)

/-- **A run that may take as many roots as there is work left ends with an empty worklist.** -/
theorem Steady.propagate (order : SetOrder) {bound : Nat} {s : State} (hs : Steady base T s)
    (hbound : s.work ≤ bound) :
    ∃ t, s.propagate order bound = .ok t ∧ Steady base T t ∧ Keeps s t ∧ t.queue = [] := by
  obtain ⟨k, t, hpops, ht, hkeeps, hqueue, hk⟩ := hs.pops order
  exact ⟨t, hpops.propagate hqueue (hk.trans hbound), ht, hkeeps, hqueue⟩

end PointerChannels.Inclusion.State
