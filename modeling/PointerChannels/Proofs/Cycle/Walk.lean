import PointerChannels.Cycle
import PointerChannels.Proofs.Forest
import PointerChannels.Proofs.Visit
import Mathlib.Data.List.Chain

/-!
# Walks that close a cycle

The detector searches a graph of roots: an edge leads from a root to the roots of its
successors, which may be entities that have lost their class to another since they were noted.
The search from `target` forwards goes no further than `source`, and the one from `source`
backwards stays within what the first has met.  Together they find the roots on the walks from
`target` to `source` that meet `source` only at their end.

## Main definitions

* `LawfulHost` — a host that keeps its classes in a pool.
* `Edge`, `IsWalk`, `OnWalk` — the graph of roots and the walks that close a cycle.

## Main statements

* `mem_members` — the members are the roots on such walks.
-/

namespace PointerChannels.Cycle

open CycleHost Relation

/-- A host that keeps its classes in a pool, and can merge any two different roots of it. -/
class LawfulHost (σ : Type) [CycleHost σ] where
  /-- The pool. -/
  pool : σ → Pool
  /-- What the host's operations need besides its pool. -/
  Fits : σ → Prop
  size_eq : ∀ host : σ, size host = (pool host).size
  rootOf_eq : ∀ (host : σ) (e : Nat), rootOf host e = (pool host).rootOf e
  /-- Every entity can be looked at. -/
  inspect_ok : ∀ {host : σ} {e : Nat}, Fits host → (pool host).Forest → e < (pool host).size →
    (∀ y ∈ successors host e, y < (pool host).size) → inspect host e = .ok ()
  /-- One of the roots survives, the classes become one, and the successors are
  among those there were. -/
  unifyRoots_ok : ∀ {host : σ} {a b : Nat}, Fits host → (pool host).Forest →
    (pool host).isRoot a = true → (pool host).isRoot b = true → a ≠ b →
    ∃ loser survivor merged, unifyRoots host a b = .ok (survivor, merged) ∧ Fits merged ∧
      (survivor = a ∧ loser = b ∨ survivor = b ∧ loser = a) ∧
      (pool host).Joined (pool merged) loser survivor ∧
      ∀ x, ∀ y ∈ successors merged x, ∃ z, y ∈ successors host z

variable {σ : Type} [CycleHost σ]

/-! ## The graph of roots -/

/-- An edge of the graph of roots: the second is the root of a successor of the first. -/
def Edge (host : σ) (x y : Nat) : Prop := ∃ z ∈ successors host x, rootOf host z = y

/-- A walk to `source`, given by the roots before it, that starts at `target` and meets
`source` only at its end. -/
structure IsWalk (host : σ) (source target : Nat) (walk : List Nat) : Prop where
  chain : (walk ++ [source]).IsChain (Edge host)
  start : (walk ++ [source]).head? = some target
  source_notMem : source ∉ walk

/-- A root on a walk from `target` to `source` that meets `source` only at its end. -/
def OnWalk (host : σ) (source target x : Nat) : Prop :=
  ∃ walk, IsWalk host source target walk ∧ x ∈ walk ++ [source]

variable {host : σ} {source target x y : Nat} {walk : List Nat}

theorem mem_next : y ∈ next host source x ↔ x ≠ source ∧ y ≠ x ∧ Edge host x y := by
  unfold next Edge
  by_cases hx : x = source
  · simp [hx]
  · rw [if_neg hx]
    simp only [List.mem_filter, List.mem_map, decide_eq_true_eq,
      IndexSet.mem_toList, ne_eq, hx, not_false_eq_true, true_and]
    exact and_comm

/-- The search follows every edge of a root other than the source; it need not follow
one to the root itself. -/
theorem leadsTo_of_edge (hx : x ≠ source) (h : Edge host x y) :
    LeadsTo (next host source) x y := by
  by_cases hy : y = x
  · rw [hy]
  · exact .single (mem_next.2 ⟨hx, hy, h⟩)

/-- The search finds the source if there is any way to it. -/
theorem leadsTo_source_iff :
    LeadsTo (next host source) x source ↔ ReflTransGen (Edge host) x source := by
  constructor
  · intro h
    exact ReflTransGen.mono (fun a b hab => (mem_next.1 hab).2.2) _ _ h
  · intro h
    induction h using ReflTransGen.head_induction_on with
    | refl => exact .refl
    | @head a b hab _ ih =>
        by_cases ha : a = source
        · rw [ha]
        · exact (leadsTo_of_edge ha hab).trans ih

/-! ## Walks -/

theorem IsWalk.nil : IsWalk host source source [] := ⟨by simp, rfl, by simp⟩

theorem IsWalk.cons (h : IsWalk host source y walk) (hx : x ≠ source) (hxy : Edge host x y) :
    IsWalk host source x (x :: walk) where
  chain := by
    rw [List.cons_append, List.isChain_cons]
    refine ⟨fun b hb => ?_, h.chain⟩
    rw [h.start, Option.mem_some] at hb
    exact hb ▸ hxy
  start := rfl
  source_notMem := by simp [Ne.symm hx, h.source_notMem]

/-- A walk that is not at its end steps along an edge. -/
theorem IsWalk.of_cons (h : IsWalk host source target (x :: walk)) :
    x = target ∧ x ≠ source ∧ ∃ y, Edge host x y ∧ IsWalk host source y walk := by
  have hstart : x = target := Option.some_injective _ h.start
  have hchain := h.chain
  have hnot := h.source_notMem
  rw [List.mem_cons, not_or] at hnot
  rw [List.cons_append, List.isChain_cons] at hchain
  obtain ⟨y, hy⟩ : ∃ y, (walk ++ [source]).head? = some y := by
    cases walk <;> simp
  exact ⟨hstart, Ne.symm hnot.1, y, hchain.1 y hy, hchain.2, hy, hnot.2⟩

/-- What the search meets on a walk it reaches from the start, and the source from there. -/
theorem IsWalk.leadsTo (h : IsWalk host source target walk) (hx : x ∈ walk ++ [source]) :
    LeadsTo (next host source) target x ∧ LeadsTo (next host source) x source := by
  induction walk generalizing target x with
  | nil =>
      obtain rfl := List.mem_singleton.1 hx
      obtain rfl : x = target := Option.some_injective _ h.start
      exact ⟨.refl, .refl⟩
  | cons w walk ih =>
      obtain ⟨rfl, hw, y, hedge, hwalk⟩ := h.of_cons
      have hstep := leadsTo_of_edge hw hedge
      rcases List.mem_cons.1 hx with rfl | hx
      · have hend := (ih hwalk (List.mem_of_head? hwalk.start)).2
        exact ⟨.refl, hstep.trans hend⟩
      · obtain ⟨hto, hfrom⟩ := ih hwalk hx
        exact ⟨hstep.trans hto, hfrom⟩

/-- A walk that the search leads to can be made longer at its start. -/
theorem IsWalk.extend (h : IsWalk host source x walk)
    (hx : LeadsTo (next host source) target x) :
    ∃ longer, IsWalk host source target longer ∧
      ∀ y ∈ walk ++ [source], y ∈ longer ++ [source] := by
  induction hx using ReflTransGen.head_induction_on with
  | refl => exact ⟨walk, h, fun _ hy => hy⟩
  | @head a b hab _ ih =>
      obtain ⟨longer, hlonger, hsub⟩ := ih
      obtain ⟨ha, -, hedge⟩ := mem_next.1 hab
      exact ⟨a :: longer, hlonger.cons ha hedge,
        fun y hy => List.mem_cons_of_mem a (hsub y hy)⟩

/-- **The roots on walks** are those that the search leads to and that it
leads from to the source. -/
theorem onWalk_iff : OnWalk host source target x ↔
    LeadsTo (next host source) target x ∧ LeadsTo (next host source) x source := by
  constructor
  · rintro ⟨walk, hwalk, hx⟩
    exact hwalk.leadsTo hx
  · rintro ⟨hto, hfrom⟩
    obtain ⟨walk, hwalk, -⟩ := IsWalk.nil.extend hfrom
    obtain ⟨longer, hlonger, hsub⟩ := hwalk.extend hto
    exact ⟨longer, hlonger, hsub x (List.mem_of_head? hwalk.start)⟩

/-- There are members if there is any way from the target to the source. -/
theorem exists_onWalk_iff :
    (∃ x, OnWalk host source target x) ↔ ReflTransGen (Edge host) target source := by
  rw [← leadsTo_source_iff]
  constructor
  · rintro ⟨x, hx⟩
    obtain ⟨hto, hfrom⟩ := onWalk_iff.1 hx
    exact hto.trans hfrom
  · intro h
    exact ⟨source, onWalk_iff.2 ⟨h, .refl⟩⟩

/-! ## The two searches -/

theorem mem_previous : x ∈ previous host source target y ↔
    x ∈ reached host source target ∧ y ∈ next host source x := by
  simp [previous, List.mem_filter]

variable [LawfulHost σ]

/-- A host that has what its operations need, whose pool is in order and whose successors are
entities, whether roots or not. -/
structure Sound (host : σ) : Prop where
  fits : LawfulHost.Fits host
  forest : (LawfulHost.pool host).Forest
  successors_lt : ∀ x, ∀ y ∈ successors host x, y < (LawfulHost.pool host).size

/-- An entity that is the root of its class. -/
def IsRoot (host : σ) (x : Nat) : Prop := (LawfulHost.pool host).isRoot x = true

theorem IsRoot.lt_size (h : IsRoot host x) : x < size host := by
  rw [LawfulHost.size_eq]
  exact Pool.lt_size_of_isRoot h

theorem Sound.isRoot_rootOf (h : Sound host) (hx : x < size host) :
    IsRoot host (rootOf host x) := by
  rw [LawfulHost.size_eq] at hx
  rw [LawfulHost.rootOf_eq]
  exact h.forest.isRoot_rootOf hx

theorem Sound.isRoot_of_edge (h : Sound host) (hxy : Edge host x y) : IsRoot host y := by
  obtain ⟨z, hz, rfl⟩ := hxy
  refine h.isRoot_rootOf ?_
  rw [LawfulHost.size_eq]
  exact h.successors_lt x z hz

theorem Sound.isRoot_of_leadsTo (h : Sound host) (htarget : IsRoot host target)
    (hx : LeadsTo (next host source) target x) : IsRoot host x := by
  rcases ReflTransGen.cases_tail hx with rfl | ⟨y, -, hy⟩
  · exact htarget
  · exact h.isRoot_of_edge (mem_next.1 hy).2.2

/-- The search forwards. -/
theorem Sound.mem_reached (h : Sound host) (htarget : IsRoot host target) :
    x ∈ reached host source target ↔ LeadsTo (next host source) target x := by
  rw [reached, mem_visit_iff]
  · simp
  · intro y hy
    rw [List.mem_singleton.1 hy]
    exact htarget.lt_size
  · intro y z hz
    exact (h.isRoot_of_edge (mem_next.1 hz).2.2).lt_size

/-- The search can look at whatever it meets. -/
theorem Sound.inspect_reached (h : Sound host) (htarget : IsRoot host target) :
    (reached host source target).forM (inspect host) = .ok () := by
  refine forM_eq_ok.2 fun x hx => ?_
  have hroot := h.isRoot_of_leadsTo htarget ((h.mem_reached htarget).1 hx)
  exact LawfulHost.inspect_ok h.fits h.forest (Pool.lt_size_of_isRoot hroot)
    (h.successors_lt x)

/-- The search backwards. -/
theorem Sound.leadsTo_previous (h : Sound host) (htarget : IsRoot host target)
    (hsource : source ∈ reached host source target) :
    LeadsTo (previous host source target) source x ↔
      LeadsTo (next host source) target x ∧ LeadsTo (next host source) x source := by
  constructor
  · intro hback
    induction hback with
    | refl => exact ⟨(h.mem_reached htarget).1 hsource, .refl⟩
    | tail _ hstep ih =>
        obtain ⟨hmem, hnext⟩ := mem_previous.1 hstep
        exact ⟨(h.mem_reached htarget).1 hmem, ih.2.head hnext⟩
  · rintro ⟨hto, hfrom⟩
    induction hfrom using ReflTransGen.head_induction_on with
    | refl => exact .refl
    | head hab _ ih =>
        exact (ih (hto.tail hab)).tail (mem_previous.2 ⟨(h.mem_reached htarget).2 hto, hab⟩)

/-- **The members are the roots on the walks from the target to the source** that meet the
source only at their end. -/
theorem Sound.mem_members (h : Sound host) (hsource : IsRoot host source)
    (htarget : IsRoot host target) :
    x ∈ members host source target ↔ OnWalk host source target x := by
  rw [onWalk_iff, members]
  by_cases hreached : source ∈ reached host source target
  · rw [if_pos hreached, IndexSet.mem_ofList, mem_visit_iff]
    · simp [h.leadsTo_previous htarget hreached]
    · intro y hy
      rw [List.mem_singleton.1 hy]
      exact hsource.lt_size
    · intro y z hz
      have hz := (h.mem_reached htarget).1 (mem_previous.1 hz).1
      exact (h.isRoot_of_leadsTo htarget hz).lt_size
  · rw [if_neg hreached]
    refine iff_of_false (IndexSet.not_mem_empty x) fun hwalk => hreached ?_
    exact (h.mem_reached htarget).2 (hwalk.1.trans hwalk.2)

theorem Sound.isRoot_of_onWalk (h : Sound host) (htarget : IsRoot host target)
    (hx : OnWalk host source target x) : IsRoot host x :=
  h.isRoot_of_leadsTo htarget (onWalk_iff.1 hx).1

end PointerChannels.Cycle
