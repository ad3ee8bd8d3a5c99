import PointerChannels.Inclusion
import PointerChannels.Proofs.Fold
import PointerChannels.Proofs.Inclusion.Known
import Mathlib.Algebra.BigOperators.Group.Finset.Basic
import Mathlib.Algebra.Order.BigOperators.Group.Finset

/-!
# What holds during a run of the inclusion solver

A pointee of a root is settled when the root owes nothing more on its account.  With difference
propagation the fresh pointees are the unsettled ones; without it all pointees of a waiting
root are.  A run keeps three things true at every loop head:

* what a settled pointee asks of the loads, stores and calls of its root
  has been met (`Handles`),
* a settled pointee has flowed along every edge of its root (`Flows`), and
* nothing in the state exceeds any solution of the constraints (`Valid`, through `Below`).

Every operation of a run relates the state before it to the state after it by `Follows`:
classes only merge, sets only grow, edges are never lost, and what is settled afterwards was
settled before.  That relation is all that `Handles` and `Flows` need, so they are shown once
and not for each operation.  Taking a root off the worklist settles its pointees and is the one
operation that is only a `Keeps`.

`work` bounds what is left to do: it counts the waiting roots, the pointees and edges that are
still missing, and the classes that can still be merged.  No operation raises it, and taking a
root off the worklist lowers it.
-/

namespace PointerChannels.Inclusion.State

variable {s t u : State} {base p : Pool} {T : Family}

/-! ## The view of a state -/

/-- Some entity of a root's class is on the worklist. -/
def Waits (s : State) (r : Nat) : Prop := ∃ e ∈ s.queue, s.pool.rootOf e = r

/-- A pointee on whose account the root owes nothing more. -/
def Settled (s : State) (r o : Nat) : Prop :=
  o ∈ s.pool.stored r ∧
    if s.settings.differences then ¬ o ∈ (s.linksAt r).fresh else ¬ s.Waits r

theorem settled_iff_fresh (h : s.settings.differences = true) {r o : Nat} :
    s.Settled r o ↔ o ∈ s.pool.stored r ∧ ¬ o ∈ (s.linksAt r).fresh := by
  rw [Settled, if_pos h]

theorem settled_iff_waits (h : ¬ s.settings.differences = true) {r o : Nat} :
    s.Settled r o ↔ o ∈ s.pool.stored r ∧ ¬ s.Waits r := by
  rw [Settled, if_neg h]

/-- The classes of two entities are one, or an edge leads from the first to the second. -/
def HasEdge (s : State) (source target : Nat) : Prop :=
  s.pool.rootOf source = s.pool.rootOf target ∨
    ∃ x ∈ (s.linksAt (s.pool.rootOf source)).supersets, s.pool.rootOf x = s.pool.rootOf target

/-- Edges are in place, each given by its superset and its subset. -/
def Linked (s : State) (edges : List (Handle × Handle)) : Prop :=
  ∀ e ∈ edges, s.HasEdge e.2.index e.1.index

/-- A call site has been bound to a callee. -/
def Bound (s : State) (call callee : Nat) : Prop :=
  ∃ entry, s.calls[call]? = some entry ∧ callee ∈ entry.bound

/-- What a root owes the loads, stores, calls and the outside for one pointee. -/
structure Handled (s : State) (r o : Nat) : Prop where
  stores : s.pool.kindOf o ≠ .functionObject → ∀ v ∈ (s.linksAt r).stores, s.HasEdge v.index o
  loads : s.pool.kindOf o ≠ .functionObject → ∀ v ∈ (s.linksAt r).loads, s.HasEdge o v.index
  calls : ∀ c ∈ (s.linksAt r).calls, s.Bound c o
  exposed : s.pool.rootOf Pool.external = r → s.pool.kindOf o = .functionObject → o ∈ s.exposed

/-- Settled pointees have been handled, but for those that are skipped. -/
def Handles (s : State) (skip : Nat → Nat → Prop) : Prop :=
  ∀ r o, s.Settled r o → ¬ skip r o → s.Handled r o

/-- Settled pointees have flowed along edges, but for those that are skipped. -/
def Flows (s : State) (skip : Nat → Nat → Nat → Prop) : Prop :=
  ∀ r o x, x ∈ (s.linksAt r).supersets → s.Settled r o → ¬ skip r o x → o ∈ s.pool.pointsTo x

/-- Where settled pointees have flowed along all edges, they have along
one between two classes. -/
theorem Flows.of_hasEdge (hs : s.Flows fun _ _ _ => False) {x y o : Nat} (h : s.HasEdge x y)
    (ho : s.Settled (s.pool.rootOf x) o) : o ∈ s.pool.pointsTo y := by
  rcases h with h | ⟨z, hz, h⟩
  · rw [Pool.pointsTo, ← h]
    exact ho.1
  · rw [Pool.pointsTo, ← h]
    exact hs _ o z hz ho not_false

/-- Calls that have been bound and functions that have been exposed have their edges. -/
structure Obliged (s : State) : Prop where
  bound : ∀ {c o : Nat} {entry : BoundCall}, s.calls[c]? = some entry → o ∈ entry.bound →
    s.Linked (callEdges s.externalHandle entry.site (s.pool.calleeSignature? o))
  exposed : ∀ {o : Nat}, o ∈ s.exposed →
    s.Linked (exposureEdges s.externalHandle (s.pool.signature? o))

/-! ## What was there from the start -/

/-- With difference propagation nothing has looked at a pointee that was there in the pool
`base` the run began in. -/
def Overlooked (base : Pool) (s : State) (r o : Nat) : Prop :=
  s.settings.differences = true ∧ base.Original s.pool r o

/-- The overlooked pointees of a run that merges no classes: nothing ever looks at them. -/
def exempt (base : Pool) (s : State) : Family :=
  fun r => {o | s.settings.cycles = false ∧ s.Overlooked base r o}

theorem overlooked_congr (hsettings : t.settings = s.settings)
    (hroot : ∀ i, t.pool.rootOf i = s.pool.rootOf i) {r o : Nat} :
    t.Overlooked base r o ↔ s.Overlooked base r o := by
  rw [Overlooked, Overlooked, hsettings]
  refine and_congr_right fun _ => ⟨fun h => ⟨h.mem, fun i hi => ?_⟩,
    fun h => ⟨h.mem, fun i hi => ?_⟩⟩
  · exact h.unmerged i (hroot i ▸ hi)
  · exact h.unmerged i (hroot i ▸ hi)

theorem exempt_congr (hsettings : t.settings = s.settings)
    (hroot : ∀ i, t.pool.rootOf i = s.pool.rootOf i) : t.exempt base = s.exempt base := by
  funext r
  ext o
  rw [exempt, exempt, Set.mem_ofPred_eq, Set.mem_ofPred_eq, hsettings,
    overlooked_congr hsettings hroot]

theorem exempt_eq_bot (h : s.settings.cycles = true) : s.exempt base = ⊥ := by
  funext r
  ext o
  simp [exempt, h]

/-! ## The work left -/

/-- The pointees and edges that a root still lacks, and one for the root itself. -/
def slack (s : State) (r : Nat) : Nat :=
  (s.pool.size - (s.pool.stored r).size) + (s.pool.size - (s.linksAt r).supersets.size) + 1

/-- A bound on how many roots will still be taken off the worklist. -/
def work (s : State) : Nat := s.queue.length + ∑ r ∈ s.pool.roots, s.slack r

/-- Roots lack no more than before, and a root was added to the worklist
only if one lacks less. -/
theorem work_le_work (hsize : t.pool.size = s.pool.size)
    (hroot : ∀ r, t.pool.isRoot r = s.pool.isRoot r)
    (hslack : ∀ r, t.slack r ≤ s.slack r)
    (hqueue : t.queue.length ≤ s.queue.length ∨ t.queue.length ≤ s.queue.length + 1 ∧
      ∃ r, s.pool.isRoot r = true ∧ t.slack r < s.slack r) : t.work ≤ s.work := by
  have hroots : t.pool.roots = s.pool.roots := by simp only [Pool.roots, hsize, hroot]
  have hsum : ∑ r ∈ s.pool.roots, t.slack r ≤ ∑ r ∈ s.pool.roots, s.slack r :=
    Finset.sum_le_sum fun r _ => hslack r
  rw [work, work, hroots]
  rcases hqueue with hqueue | ⟨hqueue, r, hr, hlt⟩
  · omega
  · have := Finset.sum_lt_sum (fun r _ => hslack r) ⟨r, Pool.mem_roots.2 hr, hlt⟩
    omega

/-! ## How a state follows from another -/

/-- A later state has lost nothing. -/
structure Keeps (s t : State) : Prop where
  settings_eq : t.settings = s.settings
  same : Pool.SameEntities s.pool t.pool
  joins : ∀ i j, s.pool.rootOf i = s.pool.rootOf j → t.pool.rootOf i = t.pool.rootOf j
  grows : ∀ i o, o ∈ s.pool.pointsTo i → o ∈ t.pool.pointsTo i
  hasEdge : ∀ x y, s.HasEdge x y → t.HasEdge x y
  loads : ∀ i, ∀ v ∈ (s.linksAt (s.pool.rootOf i)).loads,
    v ∈ (t.linksAt (t.pool.rootOf i)).loads
  stores : ∀ i, ∀ v ∈ (s.linksAt (s.pool.rootOf i)).stores,
    v ∈ (t.linksAt (t.pool.rootOf i)).stores
  calls : ∀ i, ∀ c ∈ (s.linksAt (s.pool.rootOf i)).calls,
    c ∈ (t.linksAt (t.pool.rootOf i)).calls
  site : ∀ (c : Nat) site, s.calls[c]?.map BoundCall.site = some site →
    t.calls[c]?.map BoundCall.site = some site
  bound : ∀ c o, s.Bound c o → t.Bound c o
  exposed : ∀ o, o ∈ s.exposed → o ∈ t.exposed

namespace Keeps

theorem refl (s : State) : Keeps s s where
  settings_eq := rfl
  same := .refl _
  joins _ _ h := h
  grows _ _ h := h
  hasEdge _ _ h := h
  loads _ _ h := h
  stores _ _ h := h
  calls _ _ h := h
  site _ _ h := h
  bound _ _ h := h
  exposed _ h := h

theorem trans (h : Keeps s t) (h' : Keeps t u) : Keeps s u where
  settings_eq := h'.settings_eq.trans h.settings_eq
  same := h.same.trans h'.same
  joins i j e := h'.joins i j (h.joins i j e)
  grows i o ho := h'.grows i o (h.grows i o ho)
  hasEdge x y e := h'.hasEdge x y (h.hasEdge x y e)
  loads i v hv := h'.loads i v (h.loads i v hv)
  stores i v hv := h'.stores i v (h.stores i v hv)
  calls i c hc := h'.calls i c (h.calls i c hc)
  site c x hx := h'.site c x (h.site c x hx)
  bound c o hb := h'.bound c o (h.bound c o hb)
  exposed o ho := h'.exposed o (h.exposed o ho)

theorem linked (h : Keeps s t) {edges : List (Handle × Handle)} (he : s.Linked edges) :
    t.Linked edges :=
  fun e hmem => h.hasEdge _ _ (he e hmem)

theorem externalHandle_eq (h : Keeps s t) : t.externalHandle = s.externalHandle :=
  h.same.handle_eq _

/-- A handled pointee stays handled at a class and with obligations that did not change. -/
theorem handled (h : Keeps s t) {r o : Nat}
    (hclass : ∀ i, t.pool.rootOf i = r → s.pool.rootOf i = r)
    (hloads : (t.linksAt r).loads = (s.linksAt r).loads)
    (hstores : (t.linksAt r).stores = (s.linksAt r).stores)
    (hcalls : (t.linksAt r).calls = (s.linksAt r).calls) (hr : s.Handled r o) :
    t.Handled r o := by
  refine ⟨fun hk v hv => ?_, fun hk v hv => ?_, fun c hc => ?_, fun he hk => ?_⟩
  · rw [h.same.kindOf_eq] at hk
    exact h.hasEdge _ _ (hr.stores hk v (hstores ▸ hv))
  · rw [h.same.kindOf_eq] at hk
    exact h.hasEdge _ _ (hr.loads hk v (hloads ▸ hv))
  · exact h.bound c o (hr.calls c (hcalls ▸ hc))
  · rw [h.same.kindOf_eq] at hk
    exact h.exposed o (hr.exposed (hclass _ he) hk)

/-- Edges for what has been bound and exposed stay in place while no
more is bound or exposed. -/
theorem obliged (h : Keeps s t) (hs : s.Obliged)
    (hcalls : ∀ {c : Nat} {entry : BoundCall}, t.calls[c]? = some entry →
      s.calls[c]? = some entry ∨ entry.bound = .empty)
    (hexposed : t.exposed = s.exposed) : t.Obliged where
  bound hc ho := by
    rw [h.externalHandle_eq, h.same.calleeSignature?_eq]
    rcases hcalls hc with hc | hempty
    · exact h.linked (hs.bound hc ho)
    · rw [hempty] at ho
      exact absurd ho (IndexSet.not_mem_empty _)
  exposed ho := by
    rw [hexposed] at ho
    rw [h.externalHandle_eq, h.same.signature?_eq]
    exact h.linked (hs.exposed ho)

end Keeps

/-- A later state in which nothing was settled that was not. -/
structure Follows (s t : State) : Prop extends Keeps s t where
  /-- What is settled now was settled before, at a class and with obligations that did not
  change; an edge that is new has carried it. -/
  settled : ∀ r o, t.Settled r o → s.Settled r o ∧
    (∀ i, t.pool.rootOf i = r → s.pool.rootOf i = r) ∧
    (t.linksAt r).loads = (s.linksAt r).loads ∧ (t.linksAt r).stores = (s.linksAt r).stores ∧
    (t.linksAt r).calls = (s.linksAt r).calls ∧
    ∀ x ∈ (t.linksAt r).supersets, x ∈ (s.linksAt r).supersets ∨ o ∈ t.pool.pointsTo x

namespace Follows

theorem refl (s : State) : Follows s s where
  toKeeps := .refl s
  settled _ _ h := ⟨h, fun _ h => h, rfl, rfl, rfl, fun _ h => .inl h⟩

theorem trans (h : Follows s t) (h' : Follows t u) : Follows s u where
  toKeeps := h.toKeeps.trans h'.toKeeps
  settled r o ho := by
    obtain ⟨ht, hclass, hloads, hstores, hcalls, hedges⟩ := h'.settled r o ho
    obtain ⟨hs, hclass', hloads', hstores', hcalls', hedges'⟩ := h.settled r o ht
    refine ⟨hs, fun i hi => hclass' i (hclass i hi), hloads.trans hloads',
      hstores.trans hstores', hcalls.trans hcalls', fun x hx => ?_⟩
    rcases hedges x hx with hx | hx
    · exact (hedges' x hx).imp_right (h'.grows x o)
    · exact .inr hx

theorem handled (h : Follows s t) {r o : Nat} (ho : t.Settled r o) (hr : s.Handled r o) :
    t.Handled r o := by
  obtain ⟨-, hclass, hloads, hstores, hcalls, -⟩ := h.settled r o ho
  exact h.toKeeps.handled hclass hloads hstores hcalls hr

/-- A settled pointee that was overlooked still is. -/
theorem overlooked (h : Follows s t) {r o : Nat} (ho : t.Settled r o)
    (hs : s.Overlooked base r o) : t.Overlooked base r o :=
  ⟨h.settings_eq ▸ hs.1, hs.2.mem, fun i hi => hs.2.unmerged i ((h.settled r o ho).2.1 i hi)⟩

/-- Handled pointees stay handled. -/
theorem handles (h : Follows s t) {skip skip' : Nat → Nat → Prop} (hs : s.Handles skip)
    (hskip : ∀ r o, t.Settled r o → skip r o → skip' r o) : t.Handles skip' :=
  fun r o ho hnot => h.handled ho (hs r o (h.settled r o ho).1 fun h => hnot (hskip r o ho h))

theorem handles_overlooked (h : Follows s t) (hs : s.Handles (s.Overlooked base)) :
    t.Handles (t.Overlooked base) :=
  h.handles hs fun _ _ ho => h.overlooked ho

/-- Pointees that have flowed have flowed into the larger sets too. -/
theorem flows (h : Follows s t) {skip : Nat → Nat → Nat → Prop} (hs : s.Flows skip) :
    t.Flows skip := by
  intro r o x hx ho hskip
  obtain ⟨hso, -, -, -, -, hedges⟩ := h.settled r o ho
  rcases hedges x hx with hx | hx
  · exact h.grows x o (hs r o x hx hso hskip)
  · exact hx

end Follows

/-- A later state with the same classes and the same loads, stores and calls at every root. -/
structure Extends (s t : State) : Prop extends Follows s t where
  rootOf_eq : ∀ i, t.pool.rootOf i = s.pool.rootOf i
  loads_eq : ∀ r, (t.linksAt r).loads = (s.linksAt r).loads
  stores_eq : ∀ r, (t.linksAt r).stores = (s.linksAt r).stores
  calls_eq : ∀ r, (t.linksAt r).calls = (s.linksAt r).calls

namespace Extends

theorem refl (s : State) : Extends s s where
  toFollows := .refl s
  rootOf_eq _ := rfl
  loads_eq _ := rfl
  stores_eq _ := rfl
  calls_eq _ := rfl

theorem trans (h : Extends s t) (h' : Extends t u) : Extends s u where
  toFollows := h.toFollows.trans h'.toFollows
  rootOf_eq i := (h'.rootOf_eq i).trans (h.rootOf_eq i)
  loads_eq r := (h'.loads_eq r).trans (h.loads_eq r)
  stores_eq r := (h'.stores_eq r).trans (h.stores_eq r)
  calls_eq r := (h'.calls_eq r).trans (h.calls_eq r)

theorem exempt_eq (h : Extends s t) : t.exempt base = s.exempt base :=
  exempt_congr h.settings_eq h.rootOf_eq

end Extends

/-- Two states differ at most in their counters and in the cycle detector. -/
structure Agrees (s t : State) : Prop where
  settings_eq : t.settings = s.settings
  pool_eq : t.pool = s.pool
  links_eq : t.links = s.links
  calls_eq : t.calls = s.calls
  queue_eq : t.queue = s.queue
  exposed_eq : t.exposed = s.exposed

namespace Agrees

theorem linksAt_eq (h : Agrees s t) (r : Nat) : t.linksAt r = s.linksAt r := by
  rw [linksAt, linksAt, h.links_eq]

theorem waits_iff (h : Agrees s t) {r : Nat} : t.Waits r ↔ s.Waits r := by
  rw [Waits, Waits, h.queue_eq, h.pool_eq]

theorem settled_iff (h : Agrees s t) {r o : Nat} : t.Settled r o ↔ s.Settled r o := by
  rw [Settled, Settled, h.pool_eq, h.settings_eq, h.linksAt_eq, h.waits_iff]

theorem hasEdge_iff (h : Agrees s t) {x y : Nat} : t.HasEdge x y ↔ s.HasEdge x y := by
  rw [HasEdge, HasEdge, h.pool_eq, h.linksAt_eq]

theorem linked_iff (h : Agrees s t) {edges : List (Handle × Handle)} :
    t.Linked edges ↔ s.Linked edges := by
  simp only [Linked, h.hasEdge_iff]

theorem work_eq (h : Agrees s t) : t.work = s.work := by
  have hslack : ∀ r, t.slack r = s.slack r := fun r => by
    rw [slack, slack, h.pool_eq, h.linksAt_eq]
  simp only [work, h.queue_eq, h.pool_eq, hslack]

theorem extends_ (h : Agrees s t) : Extends s t where
  settings_eq := h.settings_eq
  same := h.pool_eq ▸ .refl _
  joins i j e := by rw [h.pool_eq]; exact e
  grows i o ho := by rw [h.pool_eq]; exact ho
  hasEdge x y e := h.hasEdge_iff.2 e
  loads i v hv := by rw [h.pool_eq, h.linksAt_eq]; exact hv
  stores i v hv := by rw [h.pool_eq, h.linksAt_eq]; exact hv
  calls i c hc := by rw [h.pool_eq, h.linksAt_eq]; exact hc
  site c x hx := by rw [h.calls_eq]; exact hx
  bound c o hb := by rw [Bound, h.calls_eq]; exact hb
  exposed o ho := h.exposed_eq ▸ ho
  settled r o ho := by
    refine ⟨h.settled_iff.1 ho, fun i hi => by rwa [h.pool_eq] at hi, ?_⟩
    rw [h.linksAt_eq]
    exact ⟨rfl, rfl, rfl, fun x hx => .inl hx⟩
  rootOf_eq i := by rw [h.pool_eq]
  loads_eq r := by rw [h.linksAt_eq]
  stores_eq r := by rw [h.linksAt_eq]
  calls_eq r := by rw [h.linksAt_eq]

end Agrees

/-! ## States that fit together -/

/-- Nothing in the state exceeds a family, which need not meet what exempt pointees ask for. -/
structure Below (base : Pool) (T : Family) (s : State) : Prop where
  uniform : ∀ i, T (s.pool.rootOf i) = T i
  stored : ∀ r o, o ∈ s.pool.stored r → o ∈ T r
  supersets : ∀ r x, x ∈ (s.linksAt r).supersets → T r ⊆ T x
  loads : ∀ r, ∀ v ∈ (s.linksAt r).loads, T.LoadsBeyond s.pool (s.exempt base) v.index r
  stores : ∀ r, ∀ v ∈ (s.linksAt r).stores, T.StoresBeyond s.pool (s.exempt base) r v.index
  calls : ∀ r, ∀ c ∈ (s.linksAt r).calls, ∀ entry, s.calls[c]? = some entry →
    ∀ o ∈ T r, o ∉ s.exempt base r → T.Binds entry.site (s.pool.calleeSignature? o)
  exposes : ∀ o ∈ T Pool.external, o ∉ s.exempt base (s.pool.rootOf Pool.external) →
    s.pool.kindOf o = .functionObject →
      ∀ signature, s.pool.signature? o = some signature → T.Exposes signature

/-- Numbers and handles are in range, a fresh pointee is a pointee of a root that waits
and was not there from the start, nothing has been lost since the start, and nothing
exceeds the family `T`. -/
structure Valid (base : Pool) (T : Family) (s : State) : Prop where
  joins : ∀ i j, base.rootOf i = base.rootOf j → s.pool.rootOf i = s.pool.rootOf j
  grows : ∀ i o, o ∈ base.pointsTo i → o ∈ s.pool.pointsTo i
  closed : s.pool.Closed
  forest : s.pool.Forest
  links_size : s.links.size = s.pool.size
  objects : ∀ r o, o ∈ s.pool.stored r → s.pool.IsObject o
  rooted : ∀ r o, o ∈ s.pool.stored r → s.pool.isRoot r = true
  supersets_lt : ∀ r x, x ∈ (s.linksAt r).supersets → x < s.pool.size
  irrefl : ∀ r, ¬ r ∈ (s.linksAt r).supersets
  owns_loads : ∀ r, ∀ v ∈ (s.linksAt r).loads, s.pool.Owns v
  owns_stores : ∀ r, ∀ v ∈ (s.linksAt r).stores, s.pool.Owns v
  calls_lt : ∀ r, ∀ c ∈ (s.linksAt r).calls, c < s.calls.size
  sites : ∀ (c : Nat) (entry : BoundCall), s.calls[c]? = some entry → entry.site.Over s.pool
  queue_lt : ∀ e ∈ s.queue, e < s.pool.size
  fresh_sub : ∀ r o, o ∈ (s.linksAt r).fresh → o ∈ s.pool.stored r
  fresh_waits : s.settings.differences = true → ∀ r o, o ∈ (s.linksAt r).fresh → s.Waits r
  fresh_new : ∀ r o, o ∈ (s.linksAt r).fresh → ¬ s.Overlooked base r o
  below : Below base T s

theorem calls_lt_iff {c : Nat} :
    c < s.calls.size ↔ (s.calls[c]?.map BoundCall.site).isSome := by
  simp

/-- A state in the same classes as a valid one is valid when all it adds is in range
and within the family. -/
theorem Valid.extend (hs : s.Valid base T) (settings_eq : t.settings = s.settings)
    (same : Pool.SameEntities s.pool t.pool)
    (forest : t.pool.Forest) (rootOf_eq : ∀ i, t.pool.rootOf i = s.pool.rootOf i)
    (grows : ∀ i o, o ∈ s.pool.pointsTo i → o ∈ t.pool.pointsTo i)
    (links_size : t.links.size = s.links.size)
    (stored : ∀ r o, o ∈ t.pool.stored r →
      o ∈ s.pool.stored r ∨ s.pool.isRoot r = true ∧ s.pool.IsObject o ∧ o ∈ T r)
    (supersets : ∀ r x, x ∈ (t.linksAt r).supersets →
      x ∈ (s.linksAt r).supersets ∨ x < s.pool.size ∧ x ≠ r ∧ T r ⊆ T x)
    (loads : ∀ r, ∀ v ∈ (t.linksAt r).loads,
      v ∈ (s.linksAt r).loads ∨
        s.pool.Owns v ∧ T.LoadsBeyond s.pool (s.exempt base) v.index r)
    (stores : ∀ r, ∀ v ∈ (t.linksAt r).stores,
      v ∈ (s.linksAt r).stores ∨
        s.pool.Owns v ∧ T.StoresBeyond s.pool (s.exempt base) r v.index)
    (calls : ∀ r, ∀ c ∈ (t.linksAt r).calls, c ∈ (s.linksAt r).calls ∨ c < s.calls.size ∧
      ∀ entry, s.calls[c]? = some entry → ∀ o ∈ T r, o ∉ s.exempt base r →
        T.Binds entry.site (s.pool.calleeSignature? o))
    (site_eq : ∀ c : Nat, t.calls[c]?.map BoundCall.site = s.calls[c]?.map BoundCall.site)
    (queue_lt : ∀ e ∈ t.queue, e < s.pool.size)
    (fresh_sub : ∀ r o, o ∈ (t.linksAt r).fresh → o ∈ t.pool.stored r)
    (fresh_waits : t.settings.differences = true → ∀ r o, o ∈ (t.linksAt r).fresh → t.Waits r)
    (fresh_new : ∀ r o, o ∈ (t.linksAt r).fresh →
      o ∈ (s.linksAt r).fresh ∨ ¬ o ∈ s.pool.pointsTo r) :
    t.Valid base T := by
  have hexempt : t.exempt base = s.exempt base := exempt_congr settings_eq rootOf_eq
  have hentry : ∀ {c : Nat} {entry : BoundCall}, t.calls[c]? = some entry →
      ∃ entry', s.calls[c]? = some entry' ∧ entry'.site = entry.site := by
    intro c entry hc
    have := site_eq c
    rw [hc, Option.map_some] at this
    exact Option.map_eq_some_iff.1 this.symm
  constructor
  case joins =>
    intro i j hij
    rw [rootOf_eq, rootOf_eq]
    exact hs.joins i j hij
  case grows => exact fun i o ho => grows i o (hs.grows i o ho)
  case closed => exact same.closed hs.closed
  case forest => exact forest
  case links_size => rw [links_size, hs.links_size, same.size_eq]
  case objects =>
    intro r o ho
    rw [same.isObject_iff]
    exact (stored r o ho).elim (hs.objects r o) fun h => h.2.1
  case rooted =>
    intro r o ho
    have hr : s.pool.isRoot r = true := (stored r o ho).elim (hs.rooted r o) And.left
    rw [forest.isRoot_iff_rootOf (same.lt_size_iff.2 (Pool.lt_size_of_isRoot hr)), rootOf_eq]
    exact Pool.rootOf_of_isRoot hr
  case supersets_lt =>
    intro r x hx
    rw [same.size_eq]
    exact (supersets r x hx).elim (hs.supersets_lt r x) And.left
  case irrefl =>
    intro r hr
    exact (supersets r r hr).elim (hs.irrefl r) fun h => h.2.1 rfl
  case owns_loads =>
    intro r v hv
    exact same.owns_iff.2 ((loads r v hv).elim (hs.owns_loads r v) And.left)
  case owns_stores =>
    intro r v hv
    exact same.owns_iff.2 ((stores r v hv).elim (hs.owns_stores r v) And.left)
  case calls_lt =>
    intro r c hc
    rw [calls_lt_iff, site_eq, ← calls_lt_iff]
    exact (calls r c hc).elim (hs.calls_lt r c) And.left
  case sites =>
    intro c entry hc
    obtain ⟨entry', hc', he⟩ := hentry hc
    exact same.over_site (he ▸ hs.sites c entry' hc')
  case queue_lt =>
    intro e he
    rw [same.size_eq]
    exact queue_lt e he
  case fresh_sub => exact fresh_sub
  case fresh_waits => exact fresh_waits
  case fresh_new =>
    intro r o ho hover
    rw [overlooked_congr settings_eq rootOf_eq] at hover
    rcases fresh_new r o ho with ho | ho
    · exact hs.fresh_new r o ho hover
    · exact ho (hs.grows r o hover.2.mem)
  case below =>
    constructor
    case uniform => intro i; rw [rootOf_eq]; exact hs.below.uniform i
    case stored => exact fun r o ho => (stored r o ho).elim (hs.below.stored r o) fun h => h.2.2
    case supersets =>
      exact fun r x hx => (supersets r x hx).elim (hs.below.supersets r x) fun h => h.2.2
    case loads =>
      intro r v hv
      rw [hexempt]
      exact same.loadsBeyond_iff.2 ((loads r v hv).elim (hs.below.loads r v) And.right)
    case stores =>
      intro r v hv
      rw [hexempt]
      exact same.storesBeyond_iff.2 ((stores r v hv).elim (hs.below.stores r v) And.right)
    case calls =>
      intro r c hc entry hentry' o ho hnot
      obtain ⟨entry', hc', he⟩ := hentry hentry'
      rw [hexempt] at hnot
      rw [same.calleeSignature?_eq, ← he]
      rcases calls r c hc with hc | ⟨-, hbinds⟩
      · exact hs.below.calls r c hc entry' hc' o ho hnot
      · exact hbinds entry' hc' o ho hnot
    case exposes =>
      intro o ho hnot hk signature hsig
      rw [hexempt, rootOf_eq] at hnot
      rw [same.kindOf_eq] at hk
      rw [same.signature?_eq] at hsig
      exact hs.below.exposes o ho hnot hk signature hsig

theorem Valid.congr (hs : s.Valid base T) (h : Agrees s t) : t.Valid base T := by
  refine hs.extend h.settings_eq (h.pool_eq ▸ .refl _) (h.pool_eq ▸ hs.forest)
    (fun i => by rw [h.pool_eq]) h.extends_.grows (by rw [h.links_eq])
    (fun r o ho => .inl (by rwa [h.pool_eq] at ho))
    (fun r x hx => .inl (by rwa [h.linksAt_eq] at hx))
    (fun r v hv => .inl (h.linksAt_eq r ▸ hv)) (fun r v hv => .inl (h.linksAt_eq r ▸ hv))
    (fun r c hc => .inl (h.linksAt_eq r ▸ hc)) (fun c => by rw [h.calls_eq])
    (fun e he => hs.queue_lt e (by rwa [h.queue_eq] at he)) (fun r o ho => ?_)
    (fun hd r o ho => ?_) (fun r o ho => .inl (by rwa [h.linksAt_eq] at ho))
  · rw [h.linksAt_eq] at ho
    rw [h.pool_eq]
    exact hs.fresh_sub r o ho
  · rw [h.linksAt_eq] at ho
    exact h.waits_iff.2 (hs.fresh_waits (h.settings_eq ▸ hd) r o ho)

theorem Obliged.congr (hs : s.Obliged) (h : Agrees s t) : t.Obliged where
  bound hc ho := by
    rw [h.calls_eq] at hc
    rw [h.linked_iff, externalHandle, h.pool_eq]
    exact hs.bound hc ho
  exposed ho := by
    rw [h.exposed_eq] at ho
    rw [h.linked_iff, externalHandle, h.pool_eq]
    exact hs.exposed ho

namespace Valid

theorem rootOf_lt (hs : s.Valid base T) {i : Nat} (h : i < s.pool.size) :
    s.pool.rootOf i < s.pool.size :=
  hs.forest.rootOf_lt h

/-- Within a family, an edge between two entities is an edge between their roots. -/
theorem subset_rootOf (hs : s.Valid base T) {x y : Nat} (h : T x ⊆ T y) :
    T (s.pool.rootOf x) ⊆ T (s.pool.rootOf y) := by
  rwa [hs.below.uniform, hs.below.uniform]

theorem lt_links (hs : s.Valid base T) {r : Nat} (h : r < s.pool.size) : r < s.links.size :=
  hs.links_size.symm ▸ h

/-! ### What the checks of a run find -/

theorem check_links (hs : s.Valid base T) {r : Nat} (h : r < s.pool.size) :
    checkIndex s.links r = .ok () :=
  checkIndex_of_lt (hs.lt_links h)

/-- A root may point to memory objects. -/
theorem checkPointees (hs : s.Valid base T) {r : Nat} {objects : List Nat}
    (hr : s.pool.isRoot r = true) (ho : ∀ o ∈ objects, s.pool.IsObject o) :
    s.checkPointees r objects = .ok () := by
  refine forM_eq_ok.2 fun o hmem => ?_
  have hobject := ho o hmem
  simp only [Pool.checkRoot_of_isRoot hr, (Pool.owns_handle hobject.1).resolveObject hobject, bind,
    Except.bind]
  split
  · exact hs.check_links (Pool.lt_size_of_isRoot hr)
  · rfl

/-- An edge may be made between roots. -/
theorem checkLink (hs : s.Valid base T) {sup sub : Nat} (hsup : s.pool.isRoot sup = true)
    (hsub : s.pool.isRoot sub = true) : s.checkLink sup sub = .ok () := by
  have hpointees : s.checkPointees sup (s.pool.stored sub).toList = .ok () :=
    hs.checkPointees hsup fun o ho => hs.objects sub o (IndexSet.mem_toList.1 ho)
  simp only [State.checkLink, hs.check_links (Pool.lt_size_of_isRoot hsub),
    Pool.pointsToOfRoot, Pool.resolveRoot_handle hsub, bind, Except.bind]
  split
  · split
    · exact hpointees
    · rfl
  · rfl

/-- A root's pointees may flow to another root. -/
theorem checkFlow (hs : s.Valid base T) {r target : Nat} {objects : List Nat}
    (hr : s.pool.isRoot r = true) (htarget : s.pool.isRoot target = true)
    (ho : ∀ o ∈ objects, s.pool.IsObject o) : s.checkFlow r target objects = .ok () := by
  unfold State.checkFlow
  split
  · exact hs.checkPointees htarget ho
  · rw [Pool.checkRoot_of_isRoot htarget, Pool.checkRoot_of_isRoot hr]
    rfl

/-- A root may be taken. -/
theorem checkTaken (hs : s.Valid base T) {r : Nat} (hr : s.pool.isRoot r = true) :
    s.checkTaken r = .ok () := by
  unfold State.checkTaken
  split
  · exact hs.check_links (Pool.lt_size_of_isRoot hr)
  · exact Pool.checkRoot_of_isRoot hr

theorem ready (hs : s.Valid base T) : s.pool.Ready where
  toClosed := hs.closed
  forest := hs.forest
  objects {i o} := hs.objects i o
  rooted {i o} := hs.rooted i o

theorem above (hs : s.Valid base T) (hbase : base.Forest) : s.pool.family.Above base where
  le := hs.grows
  uniform i := by
    simp only [Pool.family, Pool.pointsTo, hs.joins _ i (hbase.rootOf_rootOf i)]

end Valid

end PointerChannels.Inclusion.State
