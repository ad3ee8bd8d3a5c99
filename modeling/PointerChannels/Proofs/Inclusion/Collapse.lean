import PointerChannels.Proofs.Cycle.Walk
import PointerChannels.Proofs.Inclusion.Conditional

/-!
# Collapsing a cycle

Merging two roots loses nothing: the survivor takes over what the other was asked for,
and all it points to is to be handled anew, so nothing is settled at it.  The roots of a
subset cycle point to the same objects in every solution, so merging them keeps the
state within every solution.
-/

namespace PointerChannels.Inclusion.State

variable {s t u : State} {base : Pool} {T : Family}

/-! ## Merging two roots -/

/-- What a state is after the root `loser` was merged into the root `survivor`. -/
structure Unified (s : State) (loser survivor : Nat) (t : State) : Prop where
  settings_eq : t.settings = s.settings
  joined : s.pool.Joined t.pool loser survivor
  calls_eq : t.calls = s.calls
  exposed_eq : t.exposed = s.exposed
  links_size : t.links.size = s.links.size
  mem_queue : ∀ e, e ∈ t.queue ↔ e ∈ s.queue ∨ e = survivor
  length_queue : t.queue.length ≤ s.queue.length + 1
  linksAt_loser : t.linksAt loser = {}
  linksAt_survivor : t.linksAt survivor = {
    supersets :=
      ((s.linksAt survivor).supersets.union (s.linksAt loser).supersets).erase survivor
    loads := (s.linksAt survivor).loads ++ (s.linksAt loser).loads
    stores := (s.linksAt survivor).stores ++ (s.linksAt loser).stores
    calls := (s.linksAt survivor).calls ++ (s.linksAt loser).calls
    fresh := if s.settings.differences then t.pool.stored survivor
      else (s.linksAt survivor).fresh }
  linksAt_other : ∀ i, i ≠ loser → i ≠ survivor → t.linksAt i = s.linksAt i

/-- The state in which `survivor` has taken over what `loser` was asked for, over a pool in
which their classes are one. -/
def absorb (s : State) (pool : Pool) (loser survivor : Nat) : State :=
  (({ s with pool }.modifyLinks loser fun _ => {}).modifyLinks survivor fun l => {
    supersets := (l.supersets.union (s.linksAt loser).supersets).erase survivor
    loads := l.loads ++ (s.linksAt loser).loads
    stores := l.stores ++ (s.linksAt loser).stores
    calls := l.calls ++ (s.linksAt loser).calls
    fresh := if s.settings.differences then pool.stored survivor else l.fresh }).push survivor

theorem unified_absorb {pool : Pool} {loser survivor : Nat}
    (hjoined : s.pool.Joined pool loser survivor) (hl : loser < s.links.size)
    (hsv : survivor < s.links.size) (hne : loser ≠ survivor) :
    Unified s loser survivor (s.absorb pool loser survivor) := by
  have hl' : loser < { s with pool }.links.size := hl
  have hsv' : survivor < ({ s with pool }.modifyLinks loser fun _ => {}).links.size := by
    rwa [size_links_modifyLinks]
  refine ⟨settings_push _, by rw [absorb, pool_push]; exact hjoined, calls_push _,
    exposed_push _, ?_, fun e => mem_queue_push, length_queue_push _, ?_, ?_,
    fun i hi hi' => ?_⟩
  · rw [absorb, links_push, size_links_modifyLinks, size_links_modifyLinks]
  · rw [absorb, linksAt_push, linksAt_modifyLinks hsv', if_neg hne, linksAt_modifyLinks hl',
      if_pos rfl]
  · rw [absorb, linksAt_push, linksAt_modifyLinks hsv', if_pos rfl, linksAt_modifyLinks hl',
      if_neg (Ne.symm hne), pool_push]
    rfl
  · rw [absorb, linksAt_push, linksAt_modifyLinks hsv', if_neg hi', linksAt_modifyLinks hl',
      if_neg hi]
    rfl

/-- A root may take over from another. -/
theorem checkMerged_ok {pool : Pool} {loser survivor : Nat} (hl : loser < s.links.size)
    (hsv : survivor < s.links.size) (hroot : pool.isRoot survivor = true) :
    s.checkMerged pool loser survivor = .ok () := by
  simp only [checkMerged, checkIndex_of_lt hl, checkIndex_of_lt hsv,
    Pool.checkRoot_of_isRoot hroot, bind, Except.bind]
  split <;> rfl

/-- Merging two different roots lets the survivor take over. -/
theorem unifyRoots_eq_absorb {a b : Nat} (hforest : s.pool.Forest)
    (hlinks : s.links.size = s.pool.size) (ha : s.pool.isRoot a = true)
    (hb : s.pool.isRoot b = true) (hne : a ≠ b) :
    ∃ loser survivor pool, s.unifyRoots a b = .ok (survivor, s.absorb pool loser survivor) ∧
      (survivor = a ∧ loser = b ∨ survivor = b ∧ loser = a) ∧
      s.pool.Joined pool loser survivor := by
  obtain ⟨loser, survivor, pool, hmerge, hcases, hjoined⟩ := hforest.merge ha hb hne
  have hloser : (if survivor = a then b else a) = loser := by
    rcases hcases with ⟨rfl, rfl⟩ | ⟨rfl, rfl⟩
    · rw [if_pos rfl]
    · rw [if_neg (Ne.symm hne)]
  have hcheck : s.checkMerged pool loser survivor = .ok () := by
    have ha' := hlinks ▸ Pool.lt_size_of_isRoot ha
    have hb' := hlinks ▸ Pool.lt_size_of_isRoot hb
    rcases hcases with ⟨rfl, rfl⟩ | ⟨rfl, rfl⟩
    · exact checkMerged_ok hb' ha' ((hjoined.isRoot_iff hforest (Ne.symm hne) ha).2 ⟨ha, hne⟩)
    · exact checkMerged_ok ha' hb' ((hjoined.isRoot_iff hforest hne hb).2 ⟨hb, Ne.symm hne⟩)
  have hunify := Pool.unify_handle ha hb hne
  rw [hmerge] at hunify
  refine ⟨loser, survivor, pool, ?_, hcases, hjoined⟩
  simp only [State.unifyRoots, hunify, bind, Except.bind, hloser, hcheck]
  rfl

theorem mem_supersets_modifyLinks {r x y : Nat} {change : Links → Links}
    (h : y ∈ ((s.modifyLinks r change).linksAt x).supersets) :
    y ∈ (s.linksAt x).supersets ∨ y ∈ (change (s.linksAt x)).supersets := by
  simp only [linksAt, modifyLinks, Array.getElem?_modify] at h ⊢
  split at h
  · cases hx : s.links[x]? with
    | none => simp [hx] at h
    | some links => exact .inr (by simpa [hx] using h)
  · exact .inl h

/-- The survivor's edges are its own and those of the other. -/
theorem mem_supersets_absorb {pool : Pool} {loser survivor x y : Nat}
    (h : y ∈ ((s.absorb pool loser survivor).linksAt x).supersets) :
    ∃ z, y ∈ (s.linksAt z).supersets := by
  rw [absorb, linksAt_push] at h
  have hcleared :
      ∀ {y}, y ∈ (({ s with pool }.modifyLinks loser fun _ => {}).linksAt x).supersets →
      y ∈ (s.linksAt x).supersets := by
    intro y hy
    exact (mem_supersets_modifyLinks hy).resolve_right (IndexSet.not_mem_empty y)
  rcases mem_supersets_modifyLinks h with h | h
  · exact ⟨x, hcleared h⟩
  · rcases IndexSet.mem_union.1 (IndexSet.mem_erase.1 h).1 with h | h
    · exact ⟨x, hcleared h⟩
    · exact ⟨loser, h⟩

instance : Cycle.LawfulHost State where
  pool s := s.pool
  Fits s := s.links.size = s.pool.size
  size_eq _ := rfl
  rootOf_eq _ _ := rfl
  inspect_ok {s e} hlinks hforest he hsuccessors := by
    have hcheck : checkIndex s.links e = .ok () := checkIndex_of_lt (hlinks.symm ▸ he)
    refine bind_eq_ok.2 ⟨(), hcheck, forM_eq_ok.2 fun y hy => ?_⟩
    have hy : y < s.pool.size := hsuccessors y (IndexSet.mem_toList.1 hy)
    rw [hforest.root_handle hy]
    rfl
  unifyRoots_ok {s a b} hlinks hforest ha hb hne := by
    obtain ⟨loser, survivor, pool, hok, hcases, hjoined⟩ :=
      unifyRoots_eq_absorb hforest hlinks ha hb hne
    refine ⟨loser, survivor, s.absorb pool loser survivor, hok, ?_, hcases, ?_, fun x y hy =>
      mem_supersets_absorb hy⟩
    · rw [absorb, pool_push, links_push, size_links_modifyLinks, size_links_modifyLinks]
      exact hlinks.trans hjoined.same.size_eq.symm
    · rw [absorb, pool_push]
      exact hjoined

/-- Merging two different roots succeeds. -/
theorem Valid.unifyRoots (hs : s.Valid base T) {a b : Nat} (ha : s.pool.isRoot a = true)
    (hb : s.pool.isRoot b = true) (hne : a ≠ b) :
    ∃ loser survivor t, s.unifyRoots a b = .ok (survivor, t) ∧
      (survivor = a ∧ loser = b ∨ survivor = b ∧ loser = a) ∧ Unified s loser survivor t := by
  obtain ⟨loser, survivor, pool, hok, hcases, hjoined⟩ :=
    unifyRoots_eq_absorb hs.forest hs.links_size ha hb hne
  have ha' := hs.lt_links (Pool.lt_size_of_isRoot ha)
  have hb' := hs.lt_links (Pool.lt_size_of_isRoot hb)
  refine ⟨loser, survivor, s.absorb pool loser survivor, hok, hcases, ?_⟩
  rcases hcases with ⟨rfl, rfl⟩ | ⟨rfl, rfl⟩
  · exact unified_absorb hjoined hb' ha' (Ne.symm hne)
  · exact unified_absorb hjoined ha' hb' hne

namespace Unified

variable {loser survivor : Nat}

theorem mem_supersets (h : Unified s loser survivor t) {x : Nat} :
    x ∈ (t.linksAt survivor).supersets ↔ x ≠ survivor ∧
      (x ∈ (s.linksAt survivor).supersets ∨ x ∈ (s.linksAt loser).supersets) := by
  rw [h.linksAt_survivor]
  simp [and_comm]

theorem rootOf_survivor (h : Unified s loser survivor t) (hsv : s.pool.isRoot survivor = true)
    (hne : loser ≠ survivor) : t.pool.rootOf survivor = survivor := by
  rw [h.joined.rootOf_eq, Pool.rootOf_of_isRoot hsv, if_neg (Ne.symm hne)]

/-- Nothing is settled at the two roots any more. -/
theorem not_settled (h : Unified s loser survivor t) (hsv : s.pool.isRoot survivor = true)
    (hne : loser ≠ survivor) {r o : Nat} (hr : r = loser ∨ r = survivor) :
    ¬ t.Settled r o := by
  rintro ⟨hstored, hrest⟩
  rcases hr with rfl | rfl
  · rw [h.joined.stored_loser] at hstored
    exact IndexSet.not_mem_empty _ hstored
  · by_cases hd : t.settings.differences = true
    · rw [if_pos hd] at hrest
      rw [h.linksAt_survivor, ← h.settings_eq, if_pos hd] at hrest
      exact hrest hstored
    · rw [if_neg hd] at hrest
      exact hrest ⟨r, (h.mem_queue r).2 (.inr rfl), h.rootOf_survivor hsv hne⟩

/-- A root that waited waits, be it through the survivor. -/
theorem waits (h : Unified s loser survivor t) {r : Nat} (hr : r ≠ loser) (hw : s.Waits r) :
    t.Waits r := by
  obtain ⟨e, he, her⟩ := hw
  exact ⟨e, (h.mem_queue e).2 (.inl he), by rw [h.joined.rootOf_eq, her, if_neg hr]⟩

/-- What a class was asked for is asked of the class it is now part of. -/
theorem linksAt_rootOf (h : Unified s loser survivor t) (i : Nat) :
    (∀ v ∈ (s.linksAt (s.pool.rootOf i)).loads, v ∈ (t.linksAt
      (if s.pool.rootOf i = loser then survivor else s.pool.rootOf i)).loads) ∧
    (∀ v ∈ (s.linksAt (s.pool.rootOf i)).stores, v ∈ (t.linksAt
      (if s.pool.rootOf i = loser then survivor else s.pool.rootOf i)).stores) ∧
    ∀ c ∈ (s.linksAt (s.pool.rootOf i)).calls, c ∈ (t.linksAt
      (if s.pool.rootOf i = loser then survivor else s.pool.rootOf i)).calls := by
  by_cases hl : s.pool.rootOf i = loser
  · rw [if_pos hl, hl, h.linksAt_survivor]
    simp +contextual
  rw [if_neg hl]
  by_cases hsv : s.pool.rootOf i = survivor
  · rw [hsv, h.linksAt_survivor]
    simp +contextual
  · rw [h.linksAt_other _ hl hsv]
    exact ⟨fun _ hv => hv, fun _ hv => hv, fun _ hv => hv⟩

theorem follows (h : Unified s loser survivor t) (hsv : s.pool.isRoot survivor = true)
    (hne : loser ≠ survivor) : Follows s t where
  settings_eq := h.settings_eq
  same := h.joined.same
  joins i j e := by rw [h.joined.rootOf_eq, h.joined.rootOf_eq, e]
  grows i o ho := by
    rw [Pool.pointsTo] at ho
    rw [Pool.pointsTo, h.joined.rootOf_eq]
    by_cases hi : s.pool.rootOf i = loser
    · rw [if_pos hi, h.joined.mem_stored_survivor, ← hi]
      exact .inr ho
    · rw [if_neg hi]
      by_cases hi' : s.pool.rootOf i = survivor
      · rw [hi'] at ho ⊢
        exact (h.joined.mem_stored_survivor o).2 (.inl ho)
      · rwa [h.joined.stored_other _ hi hi']
  hasEdge x y e := by
    rcases e with e | ⟨z, hz, e⟩
    · exact .inl (by rw [h.joined.rootOf_eq, h.joined.rootOf_eq, e])
    have hzy : t.pool.rootOf z = t.pool.rootOf y := by
      rw [h.joined.rootOf_eq, h.joined.rootOf_eq, e]
    by_cases hx : s.pool.rootOf x = loser ∨ s.pool.rootOf x = survivor
    · have hrx : t.pool.rootOf x = survivor := by
        rw [h.joined.rootOf_eq]
        rcases hx with hx | hx
        · rw [if_pos hx]
        · rw [if_neg (hx ▸ Ne.symm hne), hx]
      -- an edge from the merged class to its own root is not kept, and is not needed
      by_cases hzs : z = survivor
      · refine .inl ?_
        rw [hrx, ← hzy, hzs, h.rootOf_survivor hsv hne]
      · refine .inr ⟨z, ?_, hzy⟩
        rw [hrx, h.mem_supersets]
        exact ⟨hzs, hx.elim (fun hx => .inr (hx ▸ hz)) fun hx => .inl (hx ▸ hz)⟩
    · obtain ⟨hl, hs'⟩ := not_or.1 hx
      refine .inr ⟨z, ?_, hzy⟩
      rwa [h.joined.rootOf_eq, if_neg hl, h.linksAt_other _ hl hs']
  loads i v hv := by
    rw [h.joined.rootOf_eq]
    exact (h.linksAt_rootOf i).1 v hv
  stores i v hv := by
    rw [h.joined.rootOf_eq]
    exact (h.linksAt_rootOf i).2.1 v hv
  calls i c hc := by
    rw [h.joined.rootOf_eq]
    exact (h.linksAt_rootOf i).2.2 c hc
  site c x hx := by rwa [h.calls_eq]
  bound c o hb := by simpa only [Bound, h.calls_eq] using hb
  exposed o ho := by rwa [h.exposed_eq]
  settled r o ho := by
    have hr : ¬ (r = loser ∨ r = survivor) := fun hr => h.not_settled hsv hne hr ho
    obtain ⟨hl, hs'⟩ := not_or.1 hr
    have hlinks := h.linksAt_other r hl hs'
    refine ⟨?_, fun i hi => ?_, by rw [hlinks], by rw [hlinks], by rw [hlinks],
      fun x hx => .inl ?_⟩
    · by_cases hd : s.settings.differences = true
      · rw [settled_iff_fresh (h.settings_eq ▸ hd),
          h.joined.stored_other r hl hs', hlinks] at ho
        exact (settled_iff_fresh hd).2 ho
      · rw [settled_iff_waits (h.settings_eq ▸ hd), h.joined.stored_other r hl hs'] at ho
        exact (settled_iff_waits hd).2 ⟨ho.1, fun hw => ho.2 (h.waits hl hw)⟩
    · rw [h.joined.rootOf_eq] at hi
      split at hi
      · exact absurd hi.symm hs'
      · exact hi
    · rwa [hlinks] at hx

/-- The links of a root after the merge come from roots of the same class. -/
theorem linksAt_cases (h : Unified s loser survivor t) (hT : T loser = T survivor) (r : Nat) :
    (∀ x ∈ (t.linksAt r).supersets, x ≠ r ∨ r ≠ survivor) ∧
    (∀ x ∈ (t.linksAt r).supersets, ∃ r', T r' = T r ∧ x ∈ (s.linksAt r').supersets) ∧
    (∀ v ∈ (t.linksAt r).loads, ∃ r', T r' = T r ∧ v ∈ (s.linksAt r').loads) ∧
    (∀ v ∈ (t.linksAt r).stores, ∃ r', T r' = T r ∧ v ∈ (s.linksAt r').stores) ∧
    ∀ c ∈ (t.linksAt r).calls, ∃ r', T r' = T r ∧ c ∈ (s.linksAt r').calls := by
  by_cases hl : r = loser
  · subst hl
    rw [h.linksAt_loser]
    simp
  by_cases hr : r = survivor
  · subst hr
    refine ⟨fun x hx => .inl (h.mem_supersets.1 hx).1, fun x hx => ?_, ?_⟩
    · rcases (h.mem_supersets.1 hx).2 with hx | hx
      · exact ⟨r, rfl, hx⟩
      · exact ⟨loser, hT, hx⟩
    · rw [h.linksAt_survivor]
      simp only [List.mem_append]
      exact ⟨fun v hv => hv.elim (fun hv => ⟨r, rfl, hv⟩) fun hv => ⟨loser, hT, hv⟩,
        fun v hv => hv.elim (fun hv => ⟨r, rfl, hv⟩) fun hv => ⟨loser, hT, hv⟩,
        fun v hv => hv.elim (fun hv => ⟨r, rfl, hv⟩) fun hv => ⟨loser, hT, hv⟩⟩
  · rw [h.linksAt_other r hl hr]
    exact ⟨fun x hx => .inr hr, fun x hx => ⟨r, rfl, hx⟩, fun x hx => ⟨r, rfl, hx⟩,
      fun x hx => ⟨r, rfl, hx⟩, fun x hx => ⟨r, rfl, hx⟩⟩

/-- What a root points to after the merge comes from a root of the same class. -/
theorem stored_cases (h : Unified s loser survivor t) (hT : T loser = T survivor) {r o : Nat}
    (ho : o ∈ t.pool.stored r) : ∃ r', T r' = T r ∧ o ∈ s.pool.stored r' := by
  by_cases hr : r = loser
  · rw [hr, h.joined.stored_loser] at ho
    exact absurd ho (IndexSet.not_mem_empty o)
  by_cases hr' : r = survivor
  · subst hr'
    rcases (h.joined.mem_stored_survivor o).1 ho with ho | ho
    · exact ⟨r, rfl, ho⟩
    · exact ⟨loser, hT, ho⟩
  · exact ⟨r, rfl, by rwa [h.joined.stored_other r hr hr'] at ho⟩

/-- A merge of two roots that point to the same objects in a family does
not exceed the family. -/
theorem below (h : Unified s loser survivor t) (hs : Below base T s)
    (hT : T loser = T survivor) (hcycles : s.settings.cycles = true) : Below base T t := by
  -- where roots are merged no pointee is exempt, so links may move from root to root
  have hnot : ∀ {r o}, o ∉ s.exempt base r := by
    rw [exempt_eq_bot hcycles]
    exact fun h => h
  have hsame := h.joined.same
  have hlinks := h.linksAt_cases hT
  constructor
  case uniform =>
    intro i
    rw [h.joined.rootOf_eq, ← hs.uniform i]
    split
    · rename_i hi
      rw [hi, hT]
    · rfl
  case stored =>
    intro r o ho
    obtain ⟨r', hr', ho'⟩ := h.stored_cases hT ho
    exact hr' ▸ hs.stored r' o ho'
  case supersets =>
    intro r x hx
    obtain ⟨r', hr', hx'⟩ := (hlinks r).2.1 x hx
    exact hr' ▸ hs.supersets r' x hx'
  case loads =>
    intro r v hv
    obtain ⟨r', hr', hv'⟩ := (hlinks r).2.2.1 v hv
    intro o ho _
    rw [hsame.kindOf_eq]
    exact hs.loads r' v hv' o (hr' ▸ ho) hnot
  case stores =>
    intro r v hv
    obtain ⟨r', hr', hv'⟩ := (hlinks r).2.2.2.1 v hv
    intro o ho _
    rw [hsame.kindOf_eq]
    exact hs.stores r' v hv' o (hr' ▸ ho) hnot
  case calls =>
    intro r c hc entry hentry o ho _
    obtain ⟨r', hr', hc'⟩ := (hlinks r).2.2.2.2 c hc
    rw [h.calls_eq] at hentry
    rw [hsame.calleeSignature?_eq]
    exact hs.calls r' c hc' entry hentry o (hr' ▸ ho) hnot
  case exposes =>
    intro o ho _ hk signature hsig
    rw [hsame.kindOf_eq] at hk
    rw [hsame.signature?_eq] at hsig
    exact hs.exposes o ho hnot hk signature hsig

/-- The survivor's class is not what it was from the start, so nothing is overlooked there. -/
theorem not_overlooked (h : Unified s loser survivor t) (hs : s.Valid base T)
    (hl : s.pool.isRoot loser = true) (hsv : s.pool.isRoot survivor = true)
    (hne : loser ≠ survivor) {o : Nat} : ¬ t.Overlooked base survivor o := by
  intro hover
  have hloser : t.pool.rootOf loser = survivor := by
    rw [h.joined.rootOf_eq, Pool.rootOf_of_isRoot hl, if_pos rfl]
  have hroots := hs.joins loser survivor (hover.2.unmerged loser hloser)
  rw [Pool.rootOf_of_isRoot hl, Pool.rootOf_of_isRoot hsv] at hroots
  exact hne hroots

theorem overlooked_other (h : Unified s loser survivor t) {r o : Nat} (hl : r ≠ loser)
    (hover : t.Overlooked base r o) : s.Overlooked base r o := by
  refine ⟨h.settings_eq ▸ hover.1, hover.2.mem, fun i hi => hover.2.unmerged i ?_⟩
  rw [h.joined.rootOf_eq, hi, if_neg hl]

/-- A merge of two roots that point to the same objects in a family leaves a valid state. -/
theorem valid (h : Unified s loser survivor t) (hs : s.Valid base T)
    (hl : s.pool.isRoot loser = true) (hsv : s.pool.isRoot survivor = true)
    (hne : loser ≠ survivor) (hT : T loser = T survivor) (hcycles : s.settings.cycles = true) :
    t.Valid base T := by
  have hsame := h.joined.same
  have hlinks := h.linksAt_cases hT
  have hfollows := h.follows hsv hne
  have hintact := hs.ready.joined h.joined hsv hne
  constructor
  case joins => exact fun i j hij => hfollows.joins i j (hs.joins i j hij)
  case grows => exact fun i o ho => hfollows.grows i o (hs.grows i o ho)
  case closed => exact hsame.closed hs.closed
  case forest => exact hintact.forest
  case links_size => rw [h.links_size, hs.links_size, hsame.size_eq]
  case objects => exact fun _ _ ho => hintact.objects ho
  case rooted => exact fun _ _ ho => hintact.rooted ho
  case supersets_lt =>
    intro r x hx
    obtain ⟨r', -, hx'⟩ := (hlinks r).2.1 x hx
    exact hsame.lt_size_iff.2 (hs.supersets_lt r' x hx')
  case irrefl =>
    intro r hr
    rcases (hlinks r).1 r hr with hne' | hne'
    · exact hne' rfl
    · by_cases hrl : r = loser
      · rw [hrl, h.linksAt_loser] at hr
        exact IndexSet.not_mem_empty _ hr
      · rw [h.linksAt_other r hrl hne'] at hr
        exact hs.irrefl r hr
  case owns_loads =>
    intro r v hv
    obtain ⟨r', -, hv'⟩ := (hlinks r).2.2.1 v hv
    exact hsame.owns_iff.2 (hs.owns_loads r' v hv')
  case owns_stores =>
    intro r v hv
    obtain ⟨r', -, hv'⟩ := (hlinks r).2.2.2.1 v hv
    exact hsame.owns_iff.2 (hs.owns_stores r' v hv')
  case calls_lt =>
    intro r c hc
    obtain ⟨r', -, hc'⟩ := (hlinks r).2.2.2.2 c hc
    rw [h.calls_eq]
    exact hs.calls_lt r' c hc'
  case sites =>
    intro c entry hc
    rw [h.calls_eq] at hc
    exact hsame.over_site (hs.sites c entry hc)
  case queue_lt =>
    intro e he
    refine hsame.lt_size_iff.2 ?_
    rcases (h.mem_queue e).1 he with he | rfl
    · exact hs.queue_lt e he
    · exact Pool.lt_size_of_isRoot hsv
  case fresh_sub =>
    intro r o ho
    by_cases hrl : r = loser
    · rw [hrl, h.linksAt_loser] at ho
      exact absurd ho (IndexSet.not_mem_empty o)
    by_cases hr : r = survivor
    · subst hr
      rw [h.linksAt_survivor] at ho
      by_cases hd : s.settings.differences = true
      · rwa [if_pos hd] at ho
      · rw [if_neg hd] at ho
        exact (h.joined.mem_stored_survivor o).2 (.inl (hs.fresh_sub r o ho))
    · rw [h.linksAt_other r hrl hr] at ho
      rw [h.joined.stored_other r hrl hr]
      exact hs.fresh_sub r o ho
  case fresh_waits =>
    intro hd r o ho
    by_cases hrl : r = loser
    · rw [hrl, h.linksAt_loser] at ho
      exact absurd ho (IndexSet.not_mem_empty o)
    by_cases hr : r = survivor
    · subst hr
      exact ⟨r, (h.mem_queue r).2 (.inr rfl), h.rootOf_survivor hsv hne⟩
    · rw [h.linksAt_other r hrl hr] at ho
      exact h.waits hrl (hs.fresh_waits (h.settings_eq ▸ hd) r o ho)
  case fresh_new =>
    intro r o ho hover
    by_cases hrl : r = loser
    · rw [hrl, h.linksAt_loser] at ho
      exact IndexSet.not_mem_empty o ho
    by_cases hr : r = survivor
    · exact h.not_overlooked hs hl hsv hne (hr ▸ hover)
    · rw [h.linksAt_other r hrl hr] at ho
      exact hs.fresh_new r o ho (h.overlooked_other hrl hover)
  case below => exact h.below hs.below hT hcycles

/-- The merge takes a root away, which pays for putting the survivor on the worklist. -/
theorem work_le (h : Unified s loser survivor t) (hs : s.Valid base T)
    (hl : s.pool.isRoot loser = true) (hsv : s.pool.isRoot survivor = true)
    (hne : loser ≠ survivor) : t.work ≤ s.work := by
  have hroots := h.joined.roots_eq hs.forest hne hsv
  have hslack : ∀ r ∈ s.pool.roots.erase loser, t.slack r ≤ s.slack r := by
    intro r hr
    have hrl := (Finset.mem_erase.1 hr).1
    refine slack_le_slack h.joined.same.size_eq (fun o ho => ?_) fun x hx => ?_
    · by_cases hr' : r = survivor
      · rw [hr'] at ho ⊢
        exact (h.joined.mem_stored_survivor o).2 (.inl ho)
      · rwa [h.joined.stored_other r hrl hr']
    · by_cases hr' : r = survivor
      · rw [hr'] at hx ⊢
        exact h.mem_supersets.2 ⟨fun e => hs.irrefl survivor (e ▸ hx), .inl hx⟩
      · rwa [h.linksAt_other r hrl hr']
  have hsum := Finset.sum_le_sum hslack
  have hsplit := Finset.sum_erase_add s.pool.roots s.slack (Pool.mem_roots.2 hl)
  have hpays : 1 ≤ s.slack loser := by
    rw [slack]
    omega
  have hlen := h.length_queue
  rw [work, work, hroots]
  omega

end Unified

/-- A valid state was carried to a later one, without leaving more to do. -/
structure Carried (base : Pool) (T : Family) (s t : State) : Prop where
  valid : t.Valid base T
  obliged : t.Obliged
  follows : Follows s t
  work_le : t.work ≤ s.work

theorem Carried.refl (hs : s.Valid base T) (ho : s.Obliged) : Carried base T s s :=
  ⟨hs, ho, .refl s, le_rfl⟩

theorem Carried.trans (h : Carried base T s t) (h' : Carried base T t u) :
    Carried base T s u :=
  ⟨h'.valid, h'.obliged, h.follows.trans h'.follows, h'.work_le.trans h.work_le⟩

theorem Carried.congr (h : Carried base T s t) (h' : Agrees t u) : Carried base T s u :=
  ⟨h.valid.congr h', h.obliged.congr h', h.follows.trans h'.extends_.toFollows,
    h'.work_eq.le.trans h.work_le⟩

/-- **Roots that point to the same objects in every solution may be merged into one**, and
nothing is settled at any of them afterwards. -/
theorem Valid.collapse :
    ∀ {rest : List Nat} {s : State} {first : Nat}, s.Valid base T → s.Obliged →
    s.settings.cycles = true → (first :: rest).Nodup →
    (∀ x ∈ first :: rest, s.pool.isRoot x = true ∧ T x = T first) →
    (rest ≠ [] ∨ ∀ o, ¬ s.Settled first o) →
    ∃ root t, Cycle.collapse s first rest = .ok (root, t) ∧ Carried base T s t ∧
      ∀ x ∈ first :: rest, ∀ o, ¬ t.Settled x o := by
  intro rest
  induction rest with
  | nil =>
      intro s first hs ho _ _ _ hsettled
      refine ⟨first, s, rfl, .refl hs ho, fun x hx => ?_⟩
      rw [List.mem_singleton] at hx
      exact hx ▸ hsettled.resolve_left (not_not.2 rfl)
  | cons member rest ih =>
      intro s first hs ho hcycles hnodup hmembers _
      obtain ⟨hfirst, hnodup'⟩ := List.nodup_cons.1 hnodup
      obtain ⟨hmember, hrest⟩ := List.nodup_cons.1 hnodup'
      have hne : first ≠ member := fun e => hfirst (e ▸ List.mem_cons_self)
      obtain ⟨hroot, hT⟩ := hmembers member (by simp)
      have hroot' := (hmembers first (by simp)).1
      obtain ⟨loser, survivor, u, hok, hcases, hunified⟩ := hs.unifyRoots hroot' hroot hne
      -- whichever of the two survives, both are roots with one set in the family
      obtain ⟨hl, hsv, hls, hTl, hTs⟩ : s.pool.isRoot loser = true ∧
        s.pool.isRoot survivor = true ∧
          loser ≠ survivor ∧ T loser = T survivor ∧ T survivor = T first := by
        rcases hcases with ⟨rfl, rfl⟩ | ⟨rfl, rfl⟩
        · exact ⟨hroot, hroot', Ne.symm hne, hT, rfl⟩
        · exact ⟨hroot', hroot, hne, hT.symm, hT⟩
      have hfollows := hunified.follows hsv hls
      have hcarried : Carried base T s u := ⟨hunified.valid hs hl hsv hls hTl hcycles,
        hfollows.obliged ho (fun hc => .inl (hunified.calls_eq ▸ hc)) hunified.exposed_eq,
        hfollows, hunified.work_le hs hl hsv hls⟩
      have hoff : ∀ x ∈ rest, x ≠ loser ∧ x ≠ survivor := by
        intro x hx
        have h1 : x ≠ first := fun e => hfirst (e ▸ List.mem_cons_of_mem _ hx)
        have h2 : x ≠ member := fun e => hmember (e ▸ hx)
        rcases hcases with ⟨rfl, rfl⟩ | ⟨rfl, rfl⟩
        · exact ⟨h2, h1⟩
        · exact ⟨h1, h2⟩
      have hisRoot := fun i => hunified.joined.isRoot_iff (i := i) hs.forest hls hsv
      obtain ⟨root, t, hok', hcarried', hsettled⟩ := @ih u survivor hcarried.valid
        hcarried.obliged (hunified.settings_eq ▸ hcycles)
        (List.nodup_cons.2 ⟨fun hmem => (hoff survivor hmem).2 rfl, hrest⟩)
        (by
          intro x hx
          rcases List.mem_cons.1 hx with rfl | hx
          · exact ⟨(hisRoot x).2 ⟨hsv, Ne.symm hls⟩, rfl⟩
          · obtain ⟨hxroot, hxT⟩ := hmembers x (by simp [hx])
            exact ⟨(hisRoot x).2 ⟨hxroot, (hoff x hx).1⟩, hxT.trans hTs.symm⟩)
        (.inr fun o => hunified.not_settled hsv hls (.inr rfl))
      refine ⟨root, t, ?_, hcarried.trans hcarried', fun x hx o hset => ?_⟩
      · rw [Cycle.collapse, List.foldlM_cons]
        show (State.unifyRoots s first member >>= _) = _
        rw [hok]
        exact hok'
      · by_cases hrest' : x ∈ rest
        · exact hsettled x (List.mem_cons_of_mem _ hrest') o hset
        · have hpair : x = loser ∨ x = survivor := by
            simp only [List.mem_cons, hrest', or_false] at hx
            rcases hcases with ⟨rfl, rfl⟩ | ⟨rfl, rfl⟩
            · exact hx.symm
            · exact hx
          exact hunified.not_settled hsv hls hpair (hcarried'.follows.settled x o hset).1

/-! ## The members of a cycle -/

theorem Valid.sound (hs : s.Valid base T) : Cycle.Sound s :=
  ⟨hs.links_size, hs.forest, hs.supersets_lt⟩

section Members

variable {source target : Nat}

/-- Sets grow along the walks of a search. -/
theorem Valid.subset_of_leadsTo (hs : s.Valid base T) {x y : Nat}
    (h : LeadsTo (Cycle.next s source) x y) : T x ⊆ T y := by
  induction h with
  | refl => exact subset_rfl
  | @tail y y' _ hstep ih =>
      obtain ⟨-, -, z, hz, rfl⟩ := Cycle.mem_next.1 hstep
      have huniform : T (CycleHost.rootOf s z) = T z := hs.below.uniform z
      rw [huniform]
      exact ih.trans (hs.below.supersets y z hz)

/-- The roots on the walks from the target to the source point to what the source points to,
when an edge leads from the source to the target. -/
theorem Valid.onWalk (hs : s.Valid base T) (htarget : s.pool.isRoot target = true)
    (hT : T source ⊆ T target) {x : Nat} (h : Cycle.OnWalk s source target x) :
    s.pool.isRoot x = true ∧ T x = T source := by
  obtain ⟨hto, hfrom⟩ := Cycle.onWalk_iff.1 h
  refine ⟨hs.sound.isRoot_of_onWalk htarget h, (hs.subset_of_leadsTo hfrom).antisymm ?_⟩
  exact hT.trans (hs.subset_of_leadsTo hto)

end Members

/-! ## Showing an edge to the detector -/

/-- What showing the detector an edge does: either nothing but to the detector and the
counters, or a cycle is merged and nothing is settled at the source. -/
theorem Valid.probe (hs : s.Valid base T) (ho : s.Obliged) (hcycles : s.settings.cycles = true)
    {source target : Nat} (hsource : s.pool.isRoot source = true)
    (htarget : s.pool.isRoot target = true) (hT : T source ⊆ T target) :
    ∃ found t, s.probe source target = .ok (found, t) ∧ Carried base T s t ∧
      (found = false → Agrees s t) ∧ (found = true → ∀ o, ¬ t.Settled source o) := by
  have hquiet :
      ∀ detector, ∃ found t, (Except.ok (false, { s with detector }) : Except Fault _) =
      .ok (found, t) ∧ Carried base T s t ∧ (found = false → Agrees s t) ∧
        (found = true → ∀ o, ¬ t.Settled source o) := by
    intro detector
    have hagrees : Agrees s { s with detector } := ⟨rfl, rfl, rfl, rfl, rfl, rfl⟩
    exact ⟨false, _, rfl, (Carried.refl hs ho).congr hagrees, fun _ => hagrees, by simp⟩
  have hsource' : CycleHost.rootOf s source = source := Pool.rootOf_of_isRoot hsource
  have htarget' : CycleHost.rootOf s target = target := Pool.rootOf_of_isRoot htarget
  simp only [State.probe, Cycle.Detector.probe, hsource', htarget',
    Pool.check_of_lt (Pool.lt_size_of_isRoot hsource),
    Pool.check_of_lt (Pool.lt_size_of_isRoot htarget), hs.sound.inspect_reached htarget, bind,
    Except.bind]
  by_cases hseen : source = target ∨
      s.detector.probed.contains (Nat.min source target, Nat.max source target) = true
  · rw [if_pos hseen]
    exact hquiet s.detector
  rw [if_neg hseen]
  have hmem : ∀ x, x ∈ (Cycle.members s source target).toList ↔
      Cycle.OnWalk s source target x :=
    fun x => IndexSet.mem_toList.trans (hs.sound.mem_members hsource htarget)
  have hnodup := (Cycle.members s source target).nodup_toList
  cases hlist : (Cycle.members s source target).toList with
  | nil => exact hquiet _
  | cons first rest =>
      rw [hlist] at hmem hnodup
      have hfirst := (hmem first).1 List.mem_cons_self
      -- with any walk, both of its ends are on it
      have hends :
          Cycle.OnWalk s source target source ∧ Cycle.OnWalk s source target target := by
        obtain ⟨hto, hfrom⟩ := Cycle.onWalk_iff.1 hfirst
        exact ⟨Cycle.onWalk_iff.2 ⟨hto.trans hfrom, .refl⟩,
          Cycle.onWalk_iff.2 ⟨.refl, hto.trans hfrom⟩⟩
      have hrest : rest ≠ [] := by
        rintro rfl
        have h1 := List.mem_singleton.1 ((hmem source).2 hends.1)
        have h2 := List.mem_singleton.1 ((hmem target).2 hends.2)
        exact (not_or.1 hseen).1 (h1.trans h2.symm)
      have hmembers : ∀ x ∈ first :: rest, s.pool.isRoot x = true ∧ T x = T first := by
        intro x hx
        obtain ⟨hroot, hTx⟩ := hs.onWalk htarget hT ((hmem x).1 hx)
        exact ⟨hroot, hTx.trans (hs.onWalk htarget hT hfirst).2.symm⟩
      obtain ⟨root, t, hok, hcarried, hsettled⟩ :=
        hs.collapse ho hcycles hnodup hmembers (.inl hrest)
      simp only [hok, pure, Except.pure]
      have hagrees : ∀ detector, Agrees t { t with detector } :=
        fun detector => ⟨rfl, rfl, rfl, rfl, rfl, rfl⟩
      refine ⟨true, _, rfl, hcarried.congr (hagrees _), by simp, fun _ o hset => ?_⟩
      exact hsettled source ((hmem source).2 hends.1) o ((hagrees _).settled_iff.1 hset)

end PointerChannels.Inclusion.State
