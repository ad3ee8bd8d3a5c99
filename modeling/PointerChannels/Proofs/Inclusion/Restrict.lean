import PointerChannels.Proofs.Inclusion.Frame

/-!
# Runs past the handles of other pools

A constraint may name entities of another pool, and so may the signature of a function.  A run
looks at such a handle only when it makes an edge with it, and fails there.  So a run that goes
through has never used one, and is step by step the run from which all of them have been struck
out.  What is known of runs over constraints about entities of the pool is thereby known of
every run that goes through.

## Main definitions

* `Pool.own?` — a handle, if it is the pool's.
* `State.restrict` — a state without the handles of other pools.

## Main statements

* `State.conditionals_restrict`, `State.flowAll_restrict` — the two parts of taking a root.
* `State.step_restrict` — a step that goes through is a step of the restricted run.
-/

namespace PointerChannels

/-! ## Handles, operands and cells -/

/-- The handle, if it is the pool's. -/
def Pool.own? (p : Pool) (h : Handle) : Option Handle := if p.Owns h then some h else none

/-- The operands, without an entity at the positions that name one of another pool. -/
def Pool.ownOperands (p : Pool) (operands : List (Option Handle)) : List (Option Handle) :=
  operands.map fun operand => operand.bind p.own?

/-- A signature without the handles of other pools. -/
def Signature.restrict (signature : Signature) (p : Pool) : Signature where
  params := p.ownOperands signature.params
  results := p.ownOperands signature.results

/-- A call site without the handles of other pools. -/
def CallSite.restrict (site : CallSite) (p : Pool) : CallSite where
  arguments := p.ownOperands site.arguments
  results := p.ownOperands site.results

/-- A cell whose signature is without the handles of other pools. -/
def Pool.Cell.restrict (c : Cell) (p : Pool) : Cell :=
  { c with signature := c.signature.map (·.restrict p) }

/-- A pool whose signatures are without the handles of other pools than `base`. -/
def Pool.restrict (p base : Pool) : Pool := { p with cells := p.cells.map (·.restrict base) }

/-- A change made before or after a map. -/
theorem modify_map {α β : Type} {xs : Array α} {f : α → β} {g : β → β} {h : α → α} (i : Nat)
    (hcomm : ∀ x, g (f x) = f (h x)) : (xs.map f).modify i g = (xs.modify i h).map f := by
  apply Array.ext_getElem?
  intro j
  simp only [Array.getElem?_modify, Array.getElem?_map]
  by_cases hij : i = j
  · rw [if_pos hij, if_pos hij, Option.map_map, Option.map_map]
    exact congrArg (fun k => Option.map k xs[j]?) (funext hcomm)
  · rw [if_neg hij, if_neg hij]

namespace Pool

variable {p base : Pool} {h : Handle} {i o : Nat}

theorem own?_of_owns (hh : p.Owns h) : p.own? h = some h := if_pos hh

theorem own?_of_not_owns (hh : ¬ p.Owns h) : p.own? h = none := if_neg hh

theorem own?_eq_some {x : Handle} : p.own? h = some x ↔ p.Owns h ∧ h = x := by
  unfold own?
  split <;> simp [*]

theorem mem_ownOperands {operands : List (Option Handle)} :
    some h ∈ p.ownOperands operands ↔ some h ∈ operands ∧ p.Owns h := by
  simp only [ownOperands, List.mem_map, Option.bind_eq_some_iff, own?_eq_some]
  constructor
  · rintro ⟨-, hx, x, rfl, hown, rfl⟩
    exact ⟨hx, hown⟩
  · rintro ⟨hx, hown⟩
    exact ⟨some h, hx, h, rfl, hown, rfl⟩

theorem present_ownOperands {xs : List (Option Handle)} (h : ∀ x ∈ present xs, p.Owns x) :
    present (p.ownOperands xs) = present xs := by
  induction xs with
  | nil => rfl
  | cons x xs ih =>
      cases x with
      | none => exact ih h
      | some x =>
          have hx : p.own? x = some x := own?_of_owns (h x List.mem_cons_self)
          have hxs := ih fun y hy => h y (List.mem_cons_of_mem x hy)
          simp only [present, ownOperands, List.map_cons, Option.bind_some, hx,
            List.filterMap_cons, id_eq] at hxs ⊢
          rw [hxs]

theorem paired_ownOperands {xs ys : List (Option Handle)}
    (h : ∀ e ∈ paired xs ys, p.Owns e.1 ∧ p.Owns e.2) :
    paired (p.ownOperands xs) (p.ownOperands ys) = paired xs ys := by
  induction xs generalizing ys with
  | nil => rfl
  | cons x xs ih =>
      cases ys with
      | nil => cases x <;> rfl
      | cons y ys =>
          cases x with
          | none => exact ih h
          | some x =>
              cases y with
              | none =>
                  have hskip : ∀ operand, paired (operand :: p.ownOperands xs)
                      (none :: p.ownOperands ys) = paired (p.ownOperands xs)
                      (p.ownOperands ys) := by
                    intro operand
                    cases operand <;> rfl
                  exact (hskip _).trans (ih h)
              | some y =>
                  obtain ⟨hx, hy⟩ := h (x, y) List.mem_cons_self
                  have hrest := ih fun e he => h e (List.mem_cons_of_mem _ he)
                  show paired (p.own? x :: p.ownOperands xs) (p.own? y :: p.ownOperands ys) =
                    (x, y) :: paired xs ys
                  rw [own?_of_owns hx, own?_of_owns hy, ← hrest]
                  rfl

theorem cells_restrict (i : Nat) :
    (p.restrict base).cells[i]? = p.cells[i]?.map (·.restrict base) := Array.getElem?_map

/-- What does not depend on the signature of an entity is as it was. -/
theorem view_restrict {α : Type} (view : Cell → α)
    (hview : ∀ c : Cell, view (c.restrict base) = view c) (i : Nat) :
    (p.restrict base).cells[i]?.map view = p.cells[i]?.map view := by
  rw [cells_restrict]
  exact map_view hview _

@[simp] theorem size_restrict : (p.restrict base).size = p.size := Array.size_map

@[simp] theorem rootOf_restrict (i : Nat) : (p.restrict base).rootOf i = p.rootOf i :=
  rootOf_congr (view_restrict Cell.parent fun _ => rfl) size_restrict i

@[simp] theorem stored_restrict (i : Nat) : (p.restrict base).stored i = p.stored i := by
  rw [stored, stored, view_restrict (·.pointsTo) fun _ => rfl]

@[simp] theorem pointsTo_restrict (i : Nat) : (p.restrict base).pointsTo i = p.pointsTo i := by
  rw [pointsTo, pointsTo, rootOf_restrict, stored_restrict]

@[simp] theorem kindOf_restrict (i : Nat) : (p.restrict base).kindOf i = p.kindOf i := by
  rw [kindOf, kindOf, view_restrict (·.kind) fun _ => rfl]

@[simp] theorem rankOf_restrict (i : Nat) : (p.restrict base).rankOf i = p.rankOf i := by
  rw [rankOf, rankOf, view_restrict (·.rank) fun _ => rfl]

@[simp] theorem isRoot_restrict (i : Nat) : (p.restrict base).isRoot i = p.isRoot i := by
  rw [isRoot, isRoot, cells_restrict]
  cases p.cells[i]? <;> rfl

theorem signature?_restrict (o : Nat) :
    (p.restrict base).signature? o = (p.signature? o).map (·.restrict base) := by
  rw [signature?, signature?, cells_restrict]
  cases p.cells[o]? <;> rfl

theorem calleeSignature?_restrict (o : Nat) :
    (p.restrict base).calleeSignature? o = (p.calleeSignature? o).map (·.restrict base) := by
  rw [calleeSignature?, calleeSignature?, kindOf_restrict, signature?_restrict]
  split <;> rfl

@[simp] theorem handle_restrict (i : Nat) : (p.restrict base).handle i = p.handle i := rfl

@[simp] theorem owns_restrict : (p.restrict base).Owns h ↔ p.Owns h := by
  rw [Owns, Owns, size_restrict]
  exact Iff.rfl

@[simp] theorem isObject_restrict : (p.restrict base).IsObject o ↔ p.IsObject o := by
  rw [IsObject, IsObject, size_restrict, kindOf_restrict]

@[simp] theorem resolve_restrict (h : Handle) : (p.restrict base).resolve h = p.resolve h := by
  rw [resolve, resolve, size_restrict]
  rfl

@[simp] theorem root_restrict (h : Handle) : (p.restrict base).root h = p.root h := by
  have hcheck : ∀ i, checkIndex (p.restrict base).cells i = checkIndex p.cells i :=
    checkIndex_map
  simp only [root, resolve_restrict, rootOf_restrict, hcheck]

@[simp] theorem check_restrict (i : Nat) : (p.restrict base).check i = p.check i := by
  rw [check, check, handle_restrict, resolve_restrict]

@[simp] theorem resolveRoot_restrict (h : Handle) :
    (p.restrict base).resolveRoot h = p.resolveRoot h := by
  simp only [resolveRoot, resolve_restrict, isRoot_restrict]

@[simp] theorem checkRoot_restrict (i : Nat) :
    (p.restrict base).checkRoot i = p.checkRoot i := by
  rw [checkRoot, checkRoot, handle_restrict, resolveRoot_restrict]

@[simp] theorem pointsToOfRoot_restrict (h : Handle) :
    (p.restrict base).pointsToOfRoot h = p.pointsToOfRoot h := by
  simp only [pointsToOfRoot, resolveRoot_restrict, stored_restrict]

@[simp] theorem resolveObject_restrict (h : Handle) :
    (p.restrict base).resolveObject h = p.resolveObject h := by
  simp only [resolveObject, resolve_restrict, kindOf_restrict]

theorem modifyCells_restrict {change : Cell → Cell}
    (hchange : ∀ c : Cell, change (c.restrict base) = (change c).restrict base) (i : Nat) :
    { p.restrict base with cells := (p.restrict base).cells.modify i change } =
      { p with cells := p.cells.modify i change }.restrict base :=
  congrArg (fun cells => { p with cells }) (modify_map i hchange)

theorem store_restrict (i : Nat) (set : IndexSet) :
    (p.restrict base).store i set = (p.store i set).restrict base :=
  modifyCells_restrict (fun _ => rfl) i

theorem grow_restrict (i : Nat) (objects : List Nat) :
    (p.restrict base).grow i objects = (p.grow i objects).restrict base := by
  rw [grow, grow, stored_restrict, store_restrict]

theorem hang_restrict (loser survivor : Nat) :
    (p.restrict base).hang loser survivor = (p.hang loser survivor).restrict base := by
  unfold hang
  dsimp only
  rw [stored_restrict]
  refine congrArg (fun cells => { p with cells, rootCount := p.rootCount - 1 }) ?_
  have hloser : (p.restrict base).cells.modify loser
      ({ · with parent := survivor, pointsTo := .empty }) =
      (p.cells.modify loser ({ · with parent := survivor, pointsTo := .empty })).map
        (·.restrict base) := modify_map loser fun _ => rfl
  rw [hloser]
  exact modify_map
    (h := fun c : Cell => { c with pointsTo := c.pointsTo.union (p.stored loser) }) survivor
    fun _ => rfl

theorem merge_restrict (a b : Nat) :
    (p.restrict base).merge a b = ((p.merge a b).1, (p.merge a b).2.restrict base) := by
  unfold merge
  rw [modifyCells_restrict fun _ => rfl]
  simp only [rankOf_restrict, hang_restrict]
  split
  · rfl
  · split <;> rfl

theorem unify_restrict {a b : Handle} {survivor : Nat} {q : Pool}
    (hok : p.unify a b = .ok (survivor, q)) :
    (p.restrict base).unify a b = .ok (survivor, q.restrict base) := by
  simp only [unify, bind_eq_ok, resolveRoot_restrict] at hok ⊢
  obtain ⟨x, hx, y, hy, hok⟩ := hok
  refine ⟨x, hx, y, hy, ?_⟩
  split at hok
  · obtain ⟨_, hthrow, _⟩ := bind_eq_ok.1 hok
    exact absurd hthrow throw_ne_ok
  · rw [if_neg ‹_›, merge_restrict, pure_eq_ok.1 hok]
    rfl

end Pool

namespace Inclusion

/-! ## States -/

/-- What a root is asked for, without the handles of other pools. -/
def Links.restrict (l : Links) (p : Pool) : Links :=
  { l with loads := l.loads.filterMap p.own?, stores := l.stores.filterMap p.own? }

/-- A call site that may have been bound, without the handles of other pools. -/
def BoundCall.restrict (c : BoundCall) (p : Pool) : BoundCall :=
  { c with site := c.site.restrict p }

namespace State

/-- A state without the handles of other pools. -/
def restrict (s : State) (base : Pool) : State :=
  { s with
    pool := s.pool.restrict base
    links := s.links.map (·.restrict base)
    calls := s.calls.map (·.restrict base) }

variable {s t : State} {base : Pool}

@[simp] theorem pool_restrict : (s.restrict base).pool = s.pool.restrict base := rfl

theorem linksAt_restrict (r : Nat) :
    (s.restrict base).linksAt r = (s.linksAt r).restrict base := by
  simp only [linksAt, restrict, Array.getElem?_map]
  cases s.links[r]? <;> rfl

theorem calls_restrict (c : Nat) :
    (s.restrict base).calls[c]? = s.calls[c]?.map (·.restrict base) := Array.getElem?_map

@[simp] theorem check_links_restrict (r : Nat) :
    checkIndex (s.restrict base).links r = checkIndex s.links r := checkIndex_map r

theorem modifyLinks_restrict {change change' : Links → Links}
    (hchange : ∀ l : Links, change' (l.restrict base) = (change l).restrict base) (r : Nat) :
    (s.restrict base).modifyLinks r change' = (s.modifyLinks r change).restrict base :=
  congrArg (fun links => { s.restrict base with links }) (modify_map r hchange)

theorem push_restrict (r : Nat) : (s.restrict base).push r = (s.push r).restrict base := by
  unfold push
  by_cases hq : r ∈ s.queue
  · rw [if_pos hq, if_pos (show r ∈ (s.restrict base).queue from hq)]
  · rw [if_neg hq, if_neg (show ¬ r ∈ (s.restrict base).queue from hq)]
    rfl

theorem checkPointees_restrict (r : Nat) (objects : List Nat) :
    (s.restrict base).checkPointees r objects = s.checkPointees r objects := by
  simp only [checkPointees, pool_restrict, check_links_restrict, Pool.checkRoot_restrict,
    Pool.handle_restrict, Pool.resolveObject_restrict, Pool.stored_restrict]
  rfl

theorem insertPointees_restrict (r : Nat) (objects : List Nat) :
    (s.restrict base).insertPointees r objects =
      ((s.insertPointees r objects).1, (s.insertPointees r objects).2.restrict base) := by
  unfold insertPointees
  simp only [pool_restrict, Pool.stored_restrict, Pool.grow_restrict]
  generalize objects.filter (fun o => !(s.pool.stored r).contains o) = added
  by_cases hin : objects.all (s.pool.stored r).contains = true
  · rw [if_pos hin, if_pos hin]
  rw [if_neg hin, if_neg hin]
  by_cases hd : s.settings.differences = true
  · rw [if_pos hd, if_pos (show (s.restrict base).settings.differences = true from hd)]
    exact congrArg (Prod.mk true)
      (modifyLinks_restrict (s := { s with pool := s.pool.grow r added }) (fun _ => rfl) r)
  · rw [if_neg hd, if_neg (show ¬ (s.restrict base).settings.differences = true from hd)]
    rfl

theorem noteGrowth_restrict (r : Nat) :
    (s.restrict base).noteGrowth r = (s.noteGrowth r).restrict base := by
  unfold noteGrowth
  rw [← push_restrict]
  rfl

theorem link_restrict (superset subset : Nat) :
    (s.restrict base).link superset subset = (s.link superset subset).restrict base := by
  by_cases htriv : superset = subset ∨ superset ∈ (s.linksAt subset).supersets
  · rw [link, link, if_pos htriv, if_pos (by rw [linksAt_restrict]; exact htriv)]
  obtain ⟨hne, hnew⟩ := not_or.1 htriv
  have hadded : (s.restrict base).addSuperset superset subset =
      (s.addSuperset superset subset).restrict base :=
    modifyLinks_restrict (fun _ => rfl) subset
  rw [link_eq hne hnew, link_eq hne (by rw [linksAt_restrict]; exact hnew), hadded]
  generalize hu : { s.addSuperset superset subset with
    stats := { s.stats with edges := s.stats.edges + 1 } } = u
  have hrestrict : { (s.addSuperset superset subset).restrict base with
      stats := { (s.restrict base).stats with edges := (s.restrict base).stats.edges + 1 } } =
      u.restrict base := by rw [← hu]; rfl
  rw [hrestrict, pool_restrict, Pool.stored_restrict, insertPointees_restrict]
  by_cases hd : s.settings.differences = true
  · rw [if_pos hd, if_pos (show (s.restrict base).settings.differences = true from hd)]
    cases u.insertPointees superset (s.pool.stored subset).toList with
    | mk learnt v =>
        cases learnt with
        | true => exact noteGrowth_restrict superset
        | false => rfl
  · rw [if_neg hd, if_neg (show ¬ (s.restrict base).settings.differences = true from hd)]
    exact push_restrict subset

theorem checkLink_restrict (superset subset : Nat) :
    (s.restrict base).checkLink superset subset = s.checkLink superset subset := by
  simp only [checkLink, pool_restrict, check_links_restrict, linksAt_restrict,
    checkPointees_restrict, Pool.handle_restrict, Pool.pointsToOfRoot_restrict]
  rfl

theorem addEdge_restrict {superset subset : Handle} (h : s.addEdge superset subset = .ok t) :
    (s.restrict base).addEdge superset subset = .ok (t.restrict base) := by
  simp only [addEdge, bind_eq_ok, pure_eq_ok, pool_restrict, Pool.root_restrict] at h ⊢
  obtain ⟨a, ha, b, hb, u, hcheck, rfl⟩ := h
  exact ⟨a, ha, b, hb, u, (checkLink_restrict a b).trans hcheck, link_restrict a b⟩

theorem addEdges_restrict {edges : List (Handle × Handle)} (h : s.addEdges edges = .ok t) :
    (s.restrict base).addEdges edges = .ok (t.restrict base) := by
  obtain ⟨t', hok, rfl⟩ := foldlM_rel (R := fun u v => v = u.restrict base)
    (g := fun (s : State) (e : Handle × Handle) => s.addEdge e.1 e.2)
    (fun u u' v e _ hu hv => ⟨v.restrict base, hu ▸ addEdge_restrict hv, rfl⟩) rfl h
  exact hok

/-! ## Making edges only with the pool's handles -/

theorem owns_of_addEdge {superset subset : Handle} (h : s.addEdge superset subset = .ok t) :
    Pool.SameEntities s.pool t.pool ∧ s.pool.Owns superset ∧ s.pool.Owns subset := by
  have hsame := (plain_addEdge h).same
  simp only [addEdge, bind_eq_ok, pure_eq_ok, Pool.root_eq_ok] at h
  obtain ⟨-, ⟨ha, -⟩, -, ⟨hb, -⟩, -⟩ := h
  exact ⟨hsame, ha, hb⟩

/-- Edges that could be made are between entities of the pool. -/
theorem owns_of_addEdges {edges : List (Handle × Handle)} (h : s.addEdges edges = .ok t) :
    Pool.SameEntities s.pool t.pool ∧ ∀ e ∈ edges, s.pool.Owns e.1 ∧ s.pool.Owns e.2 := by
  obtain ⟨hsame, -, hown⟩ :=
    foldlM_of_ok (G := fun u : State => Pool.SameEntities s.pool u.pool) (R := fun _ _ => True)
      (D := fun (e : Handle × Handle) _ => s.pool.Owns e.1 ∧ s.pool.Owns e.2) (fun _ => trivial)
      (fun _ _ => trivial) (fun h _ => h) (fun u v e _ hu hv => by
        obtain ⟨hsame, hsup, hsub⟩ := owns_of_addEdge hv
        exact ⟨hu.trans hsame, trivial, hu.owns_iff.1 hsup, hu.owns_iff.1 hsub⟩) (.refl _) h
  exact ⟨hsame, hown⟩

theorem callEdges_restrict {external : Handle} {site : CallSite} {signature : Option Signature}
    (h : ∀ e ∈ callEdges external site signature, p.Owns e.1 ∧ p.Owns e.2) :
    callEdges external (site.restrict p) (signature.map (·.restrict p)) =
      callEdges external site signature := by
  cases signature with
  | none =>
      simp only [callEdges, List.mem_append, List.mem_map] at h
      simp only [callEdges, Option.map_none, CallSite.restrict]
      rw [Pool.present_ownOperands fun x hx => (h _ (.inl ⟨x, hx, rfl⟩)).2,
        Pool.present_ownOperands fun x hx => (h _ (.inr ⟨x, hx, rfl⟩)).1]
  | some signature =>
      simp only [callEdges, List.mem_append] at h
      simp only [callEdges, Option.map_some, CallSite.restrict, Signature.restrict]
      rw [Pool.paired_ownOperands fun e he => h e (.inl he),
        Pool.paired_ownOperands fun e he => h e (.inr he)]

theorem exposureEdges_restrict {external : Handle} {signature : Option Signature}
    (h : ∀ e ∈ exposureEdges external signature, p.Owns e.1 ∧ p.Owns e.2) :
    exposureEdges external (signature.map (·.restrict p)) =
      exposureEdges external signature := by
  cases signature with
  | none => rfl
  | some signature =>
      simp only [exposureEdges, List.mem_append, List.mem_map] at h
      simp only [exposureEdges, Option.map_some, Signature.restrict]
      rw [Pool.present_ownOperands fun x hx => (h _ (.inl ⟨x, hx, rfl⟩)).1,
        Pool.present_ownOperands fun x hx => (h _ (.inr ⟨x, hx, rfl⟩)).2]

/-! ## Taking a root -/

theorem noteBound_restrict (call callee : Nat) :
    (s.restrict base).noteBound call callee = (s.noteBound call callee).restrict base := by
  refine congrArg (fun calls => { (s.noteBound call callee).restrict base with calls }) ?_
  exact modify_map (h := fun c : BoundCall => { c with bound := c.bound.insert callee }) call
    fun _ => rfl

theorem bindCall_restrict (base : Pool) (hown : ∀ {h}, s.pool.Owns h → base.Owns h)
    {call callee : Nat} (h : s.bindCall call callee = .ok t) :
    (s.restrict base).bindCall call callee = .ok (t.restrict base) ∧
      Pool.SameEntities s.pool t.pool := by
  obtain ⟨entry, hentry, hcases⟩ := bindCall_eq_ok.1 h
  have hentry' : (s.restrict base).calls[call]? = some (entry.restrict base) := by
    rw [calls_restrict, hentry, Option.map_some]
  rw [bindCall_eq_ok]
  obtain ⟨hin, rfl⟩ | ⟨hin, hlt, h⟩ := hcases
  · exact ⟨⟨_, hentry', .inl ⟨hin, rfl⟩⟩, .refl _⟩
  obtain ⟨hsame, howned⟩ := owns_of_addEdges h
  have hedges : callEdges s.externalHandle (entry.restrict base).site
      ((s.pool.restrict base).calleeSignature? callee) =
      callEdges s.externalHandle entry.site (s.pool.calleeSignature? callee) := by
    rw [Pool.calleeSignature?_restrict]
    exact callEdges_restrict fun e he => ⟨hown (howned e he).1, hown (howned e he).2⟩
  refine ⟨⟨_, hentry', .inr ⟨hin, Pool.size_restrict.symm ▸ hlt, ?_⟩⟩, hsame⟩
  show ((s.restrict base).noteBound call callee).addEdges (callEdges s.externalHandle
    (entry.restrict base).site ((s.pool.restrict base).calleeSignature? callee)) = _
  rw [noteBound_restrict, hedges]
  exact addEdges_restrict h

theorem expose_restrict (base : Pool) (hown : ∀ {h}, s.pool.Owns h → base.Owns h)
    {object : Nat} (h : s.expose object = .ok t) :
    (s.restrict base).expose object = .ok (t.restrict base) ∧
    Pool.SameEntities s.pool t.pool := by
  rw [expose_eq_ok] at h ⊢
  rw [pool_restrict, Pool.kindOf_restrict, Pool.size_restrict]
  obtain ⟨hlt, ⟨hskip, rfl⟩ | ⟨hkind, hnew, h⟩⟩ := h
  · exact ⟨⟨hlt, .inl ⟨hskip, rfl⟩⟩, .refl _⟩
  obtain ⟨hsame, howned⟩ := owns_of_addEdges h
  have hedges : exposureEdges s.externalHandle ((s.pool.restrict base).signature? object) =
      exposureEdges s.externalHandle (s.pool.signature? object) := by
    rw [Pool.signature?_restrict]
    exact exposureEdges_restrict fun e he => ⟨hown (howned e he).1, hown (howned e he).2⟩
  refine ⟨⟨hlt, .inr ⟨hkind, hnew, ?_⟩⟩, hsame⟩
  show ((s.noteExposed object).restrict base).addEdges
    (exposureEdges s.externalHandle ((s.pool.restrict base).signature? object)) = _
  rw [hedges]
  exact addEdges_restrict h

/-- A loop that makes edges for each value of a list makes none for the
value of another pool. -/
theorem through_restrict (base : Pool) (edges : State → Handle → List (Handle × Handle))
    (hedges : ∀ u value, edges (u.restrict base) value = edges u value)
    (hforeign : ∀ u value, (∀ e ∈ edges u value, base.Owns e.1 ∧ base.Owns e.2) →
      ¬ base.Owns value → edges u value = [])
    {values : List Handle} (hown : ∀ {h}, s.pool.Owns h → base.Owns h)
    (h : values.foldlM (fun u value => u.addEdges (edges u value)) s = .ok t) :
    (values.filterMap base.own?).foldlM (fun u value => u.addEdges (edges u value))
      (s.restrict base) = .ok (t.restrict base) ∧ Pool.SameEntities s.pool t.pool := by
  induction values generalizing s with
  | nil =>
      obtain rfl := pure_eq_ok.1 h
      exact ⟨rfl, .refl _⟩
  | cons value values ih =>
      rw [List.foldlM_cons, bind_eq_ok] at h
      obtain ⟨u, hu, h⟩ := h
      obtain ⟨hsame, howned⟩ := owns_of_addEdges hu
      obtain ⟨hrest, hsame'⟩ := ih (fun hh => hown (hsame.owns_iff.1 hh)) h
      refine ⟨?_, hsame.trans hsame'⟩
      by_cases hvalue : base.Owns value
      · rw [List.filterMap_cons_some (Pool.own?_of_owns hvalue), List.foldlM_cons, hedges,
          addEdges_restrict hu]
        exact hrest
      · have hnone : edges s value = [] :=
          hforeign s value (fun e he => ⟨hown (howned e he).1, hown (howned e he).2⟩) hvalue
        rw [hnone] at hu
        obtain rfl := pure_eq_ok.1 hu
        rw [List.filterMap_cons_none (Pool.own?_of_not_owns hvalue)]
        exact hrest

/-- The states of a restricted loop, whose entities are those of the state it began in. -/
def Shadows (base : Pool) (s u v : State) : Prop :=
  v = u.restrict base ∧ Pool.SameEntities s.pool u.pool

/-- **What a root owes for pointees** is owed in the restricted state too. -/
theorem conditionals_restrict (hown : ∀ {h}, s.pool.Owns h → base.Owns h) {r : Nat}
    {pointees : List Nat} (h : s.conditionals r pointees = .ok t) :
    (s.restrict base).conditionals r pointees = .ok (t.restrict base) := by
  have hcheck : (s.pool.restrict base).check = s.pool.check := funext Pool.check_restrict
  simp only [conditionals, bind_eq_ok, pool_restrict, hcheck, check_links_restrict,
    Pool.kindOf_restrict, linksAt_restrict] at h ⊢
  obtain ⟨x, hx, y, hy, u, hu, v, hv, w, hw, external, hexternal, ht⟩ := h
  generalize pointees.filter (fun o => s.pool.kindOf o ≠ .functionObject) = data at hu hv ⊢
  -- a value of another pool was stored or loaded only if there was
  -- nothing to make an edge with
  obtain ⟨hu', hsame⟩ := through_restrict base
    (fun u value => data.map fun o => (u.pool.handle o, value)) (fun _ _ => rfl)
    (fun u value hall hnot => by
      cases data with
      | nil => rfl
      | cons o data => exact absurd (hall _ List.mem_cons_self).2 hnot) hown hu
  obtain ⟨hv', hsame'⟩ := through_restrict base
    (fun u value => data.map fun o => (value, u.pool.handle o)) (fun _ _ => rfl)
    (fun u value hall hnot => by
      cases data with
      | nil => rfl
      | cons o data => exact absurd (hall _ List.mem_cons_self).1 hnot)
    (fun hh => hown (hsame.owns_iff.1 hh)) hv
  have hbind : ∀ call (u v w : State), ∀ callee ∈ pointees, Shadows base s u v →
      u.bindCall call callee = .ok w → ∃ w', v.bindCall call callee = .ok w' ∧
      Shadows base s w w' := by
    rintro call u - w callee - ⟨rfl, hu⟩ hw
    obtain ⟨hw', hsame⟩ := bindCall_restrict base (fun hh => hown (hu.owns_iff.1 hh)) hw
    exact ⟨_, hw', rfl, hu.trans hsame⟩
  have hcall : ∀ (u v w : State), ∀ call ∈ (s.linksAt r).calls, Shadows base s u v →
      pointees.foldlM (fun u callee => u.bindCall call callee) u = .ok w →
      ∃ w', pointees.foldlM (fun u callee => u.bindCall call callee) v = .ok w' ∧
        Shadows base s w w' :=
    fun u v w call _ hu hw => foldlM_rel (hbind call) hu hw
  obtain ⟨-, hw', rfl, hsame''⟩ := foldlM_rel (r := v.restrict base) hcall
    ⟨rfl, hsame.trans hsame'⟩ hw
  refine ⟨x, hx, y, hy, _, hu', _, hv', _, hw', external, ?_, ?_⟩
  · rw [pool_restrict, Pool.root_restrict]
    exact hexternal
  split at ht
  · rw [if_pos ‹_›]
    obtain ⟨-, ht', rfl, -⟩ := foldlM_rel (R := Shadows base s)
      (g := fun (u : State) object => u.expose object) (r := w.restrict base)
      (fun u v w object _ hu hw => by
        obtain ⟨rfl, hu⟩ := hu
        obtain ⟨hw', hsame⟩ := expose_restrict base (fun hh => hown (hu.owns_iff.1 hh)) hw
        exact ⟨_, hw', rfl, hu.trans hsame⟩) ⟨rfl, hsame''⟩ ht
    exact ht'
  · rw [if_neg ‹_›, pure_eq_ok.1 ht]
    rfl

/-! ## Collapsing a cycle -/

theorem checkMerged_restrict (pool : Pool) (loser survivor : Nat) :
    (s.restrict base).checkMerged (pool.restrict base) loser survivor =
      s.checkMerged pool loser survivor := by
  simp only [checkMerged, check_links_restrict, Pool.checkRoot_restrict]
  rfl

theorem unifyRoots_restrict {a b survivor : Nat} (h : s.unifyRoots a b = .ok (survivor, t)) :
    (s.restrict base).unifyRoots a b = .ok (survivor, t.restrict base) := by
  simp only [unifyRoots, bind_eq_ok, pure_eq_ok, Prod.mk.injEq] at h
  obtain ⟨⟨merged, pool⟩, hunify, u, hmerged, rfl, rfl⟩ := h
  simp only [unifyRoots, bind_eq_ok, pure_eq_ok, Prod.mk.injEq]
  refine ⟨(merged, pool.restrict base), Pool.unify_restrict hunify, u,
    (checkMerged_restrict _ _ _).trans hmerged, rfl, ?_⟩
  generalize (if merged = a then b else a) = loser
  rw [← push_restrict, linksAt_restrict]
  refine congrArg (fun u : State => u.push merged) ?_
  have hcleared :
      ({ s.restrict base with pool := pool.restrict base }.modifyLinks loser fun _ => {}) =
      ({ s with pool }.modifyLinks loser fun _ => {}).restrict base :=
    modifyLinks_restrict (s := { s with pool }) (fun _ => rfl) loser
  rw [hcleared]
  refine modifyLinks_restrict (fun l => ?_) merged
  have hstored : (pool.restrict base).stored merged = pool.stored merged :=
    Pool.stored_restrict merged
  simp only [Links.restrict, List.filterMap_append]
  exact congrArg
    (fun set => Links.mk _ _ _ _ (if s.settings.differences then set else l.fresh)) hstored

theorem next_restrict (source : Nat) :
    Cycle.next (s.restrict base) source = Cycle.next s source := by
  have hsuccessors :
      ∀ x, CycleHost.successors (s.restrict base) x = CycleHost.successors s x :=
    fun x => by
      show ((s.restrict base).linksAt x).supersets = _
      rw [linksAt_restrict]
      rfl
  have hrootOf : CycleHost.rootOf (s.restrict base) = CycleHost.rootOf s :=
    funext Pool.rootOf_restrict
  funext x
  rw [Cycle.next, Cycle.next, hsuccessors, hrootOf]

theorem size_host_restrict : CycleHost.size (s.restrict base) = CycleHost.size s :=
  Pool.size_restrict

theorem reached_restrict (source target : Nat) :
    Cycle.reached (s.restrict base) source target = Cycle.reached s source target := by
  rw [Cycle.reached, Cycle.reached, next_restrict, size_host_restrict]

theorem members_restrict (source target : Nat) :
    Cycle.members (s.restrict base) source target = Cycle.members s source target := by
  have hprevious : Cycle.previous (s.restrict base) source target =
      Cycle.previous s source target := by
    funext x
    rw [Cycle.previous, Cycle.previous, reached_restrict, next_restrict]
  rw [Cycle.members, Cycle.members, reached_restrict, hprevious, size_host_restrict]

theorem inspect_restrict : CycleHost.inspect (s.restrict base) = CycleHost.inspect s := by
  funext root
  simp only [CycleHost.inspect, pool_restrict, check_links_restrict, linksAt_restrict,
    Pool.handle_restrict, Pool.root_restrict]
  rfl

theorem collapse_restrict {first root : Nat} {rest : List Nat}
    (h : Cycle.collapse s first rest = .ok (root, t)) :
    Cycle.collapse (s.restrict base) first rest = .ok (root, t.restrict base) := by
  obtain ⟨-, hok, rfl⟩ :=
    foldlM_rel (R := fun x y : Nat × State => y = (x.1, x.2.restrict base))
      (g := fun (x : Nat × State) member => x.2.unifyRoots x.1 member)
      (r := (first, s.restrict base))
      (fun x y z member _ hx hz =>
        ⟨(z.1, z.2.restrict base), hx ▸ unifyRoots_restrict hz, rfl⟩) rfl h
  exact hok

theorem probe_restrict {source target : Nat} {found : Bool}
    (h : s.probe source target = .ok (found, t)) :
    (s.restrict base).probe source target = .ok (found, t.restrict base) := by
  have hrootOf : CycleHost.rootOf (s.restrict base) = CycleHost.rootOf s :=
    funext Pool.rootOf_restrict
  simp only [probe, bind_eq_ok, pure_eq_ok, Prod.mk.injEq] at h ⊢
  obtain ⟨x, hsource, y, htarget, ⟨survivor, detector, u⟩, hprobe, rfl, rfl⟩ := h
  rw [pool_restrict, Pool.check_restrict, Pool.check_restrict]
  refine ⟨x, hsource, y, htarget, (survivor, detector, u.restrict base), ?_, rfl, rfl⟩
  unfold Cycle.Detector.probe at hprobe ⊢
  rw [hrootOf]
  dsimp only at hprobe ⊢
  rw [members_restrict, reached_restrict, inspect_restrict]
  split at hprobe
  · rw [if_pos ‹_›]
    obtain ⟨rfl, rfl, rfl⟩ := hprobe
    rfl
  rw [if_neg ‹_›]
  obtain ⟨z, hinspect, hprobe⟩ := bind_eq_ok.1 hprobe
  refine bind_eq_ok.2 ⟨z, hinspect, ?_⟩
  split at hprobe
  · obtain ⟨rfl, rfl, rfl⟩ := hprobe
    rfl
  · obtain ⟨⟨root, v⟩, hcollapse, hprobe⟩ := bind_eq_ok.1 hprobe
    obtain ⟨rfl, rfl, rfl⟩ := pure_eq_ok.1 hprobe
    exact bind_eq_ok.2 ⟨_, collapse_restrict hcollapse, rfl⟩

theorem checkFlow_restrict (root target : Nat) (pointees : List Nat) :
    (s.restrict base).checkFlow root target pointees = s.checkFlow root target pointees := by
  simp only [checkFlow, pool_restrict, checkPointees_restrict, Pool.checkRoot_restrict]
  rfl

theorem flow_restrict (root target : Nat) (pointees : List Nat) :
    (s.restrict base).flow root target pointees =
      ((s.flow root target pointees).1, (s.flow root target pointees).2.restrict base) := by
  rw [flow, flow, pool_restrict, Pool.stored_restrict]
  exact insertPointees_restrict _ _

/-- **Pointees flow in the restricted state as they do in the state.** -/
theorem flowAll_restrict {root : Nat} {pointees rest : List Nat}
    (h : flowAll root pointees rest s = .ok t) :
    flowAll root pointees rest (s.restrict base) = .ok (t.restrict base) := by
  induction rest generalizing s with
  | nil =>
      obtain rfl := Except.ok.inj h
      rfl
  | cons x rest ih =>
      rw [flowAll] at h ⊢
      rw [pool_restrict, Pool.handle_restrict, Pool.root_restrict]
      obtain ⟨target, htarget, h⟩ := bind_eq_ok.1 h
      refine bind_eq_ok.2 ⟨target, htarget, ?_⟩
      split at h
      · rw [if_pos ‹_›]
        exact ih h
      rw [if_neg ‹_›]
      obtain ⟨y, hcheck, h⟩ := bind_eq_ok.1 h
      refine bind_eq_ok.2 ⟨y, (checkFlow_restrict _ _ _).trans hcheck, ?_⟩
      rw [flow_restrict]
      cases hu : s.flow root target pointees with
      | mk learnt u =>
          rw [hu] at h
          cases learnt with
          | true =>
              dsimp only at h ⊢
              rw [noteGrowth_restrict]
              exact ih h
          | false =>
              dsimp only at h ⊢
              by_cases hquiet : pointees.isEmpty ∨ ¬ u.settings.cycles
              · rw [if_pos hquiet] at h
                rw [if_pos (show pointees.isEmpty ∨
                  ¬ (u.restrict base).settings.cycles from hquiet)]
                exact ih h
              · rw [if_neg hquiet] at h
                rw [if_neg (show ¬ (pointees.isEmpty ∨ ¬ (u.restrict base).settings.cycles)
                  from hquiet)]
                obtain ⟨⟨found, v⟩, hprobe, h⟩ := bind_eq_ok.1 h
                refine bind_eq_ok.2 ⟨(found, v.restrict base), probe_restrict hprobe, ?_⟩
                cases found with
                | true =>
                    obtain rfl := pure_eq_ok.1 h
                    rfl
                | false => exact ih h

/-! ## Steps -/

theorem take_restrict {root : Nat} {queue : List Nat} {stats : Stats} :
    (s.restrict base).take root queue stats = (s.take root queue stats).restrict base := by
  unfold take
  dsimp only
  by_cases hd : s.settings.differences = true
  · rw [if_pos hd, if_pos (show (s.restrict base).settings.differences = true from hd)]
    exact modifyLinks_restrict (s := { s with queue, stats }) (fun _ => rfl) root
  · rw [if_neg hd, if_neg (show ¬ (s.restrict base).settings.differences = true from hd)]
    rfl

theorem waiting_restrict (root : Nat) : (s.restrict base).waiting root = s.waiting root := by
  rw [waiting, waiting, linksAt_restrict, pool_restrict, Pool.stored_restrict]
  rfl

theorem checkTaken_restrict (root : Nat) :
    (s.restrict base).checkTaken root = s.checkTaken root := by
  simp only [checkTaken, pool_restrict, check_links_restrict, Pool.checkRoot_restrict]
  rfl

theorem process_restrict (hown : ∀ {h}, s.pool.Owns h → base.Owns h)
    {order : SetOrder} {root : Nat} {queue : List Nat} {stats : Stats}
    (h : ({ s with queue, stats } : State).process order root = .ok t) :
    ({ s.restrict base with queue, stats } : State).process order root =
    .ok (t.restrict base) := by
  rw [process_eq order root queue stats rfl] at h
  rw [process_eq order root queue stats rfl, waiting_restrict, take_restrict]
  simp only [bind_eq_ok] at h ⊢
  obtain ⟨x, hx, u, hu, y, hy, h⟩ := h
  refine ⟨x, (checkTaken_restrict root).trans hx, u.restrict base, ?_, y,
    (check_links_restrict root).trans hy, ?_⟩
  · split at hu
    · obtain rfl := pure_eq_ok.1 hu
      rw [if_pos ‹_›]
      rfl
    · rw [if_neg ‹_›]
      exact conditionals_restrict (fun hh => hown (by rwa [pool_take] at hh)) hu
  · rw [linksAt_restrict]
    exact flowAll_restrict h

/-- **A step that goes through is a step of the restricted run.** -/
theorem step_restrict (hown : ∀ {h}, s.pool.Owns h → base.Owns h) {order : SetOrder}
    (h : s.step order = .ok t) : (s.restrict base).step order = .ok (t.restrict base) := by
  unfold step at h ⊢
  cases hpop : pop? s.settings.discipline s.queue with
  | none =>
      rw [hpop] at h
      rw [show pop? (s.restrict base).settings.discipline (s.restrict base).queue =
        none from hpop, ← Except.ok.inj h]
  | some popped =>
      rw [hpop] at h
      rw [show pop? (s.restrict base).settings.discipline (s.restrict base).queue = some popped
        from hpop, pool_restrict]
      dsimp only at h ⊢
      obtain ⟨root, hroot, h⟩ := bind_eq_ok.1 h
      refine bind_eq_ok.2 ⟨root, ?_, process_restrict hown h⟩
      rw [Pool.handle_restrict, Pool.root_restrict]
      exact hroot

end State
end Inclusion
end PointerChannels
