import PointerChannels.Proofs.Inclusion.Invariant

/-!
# Growing sets and making edges

What the small operations of the inclusion solver do to a valid state: a root learns of
pointees, an edge is made, a call site is bound, a function is exposed, and the loads, stores
and calls of a root are met for a list of pointees.  Each succeeds, keeps the state valid,
extends it, leaves no more work than before, and achieves what it is for.

An edge is made in one step together with what keeps it true: with difference propagation its
target learns of all that its source points to, without it its source is put on the worklist.
Between the two halves the invariant would not hold.
-/

namespace PointerChannels.Inclusion.State

variable {s t : State} {base : Pool} {T : Family}

/-! ## The parts of a state -/

theorem linksAt_modifyLinks {r : Nat} (hr : r < s.links.size)
    (change : Links → Links) (i : Nat) :
    (s.modifyLinks r change).linksAt i = if i = r then change (s.linksAt r)
    else s.linksAt i := by
  simp only [linksAt, modifyLinks, Array.getElem?_modify]
  by_cases h : r = i
  · subst h
    simp [Array.getElem?_eq_getElem hr]
  · rw [if_neg h, if_neg (Ne.symm h)]

@[simp] theorem size_links_modifyLinks {r : Nat} {change : Links → Links} :
    (s.modifyLinks r change).links.size = s.links.size := by
  simp [modifyLinks]

@[simp] theorem pool_push (r : Nat) : (s.push r).pool = s.pool := by
  unfold push; split <;> rfl

@[simp] theorem links_push (r : Nat) : (s.push r).links = s.links := by
  unfold push; split <;> rfl

@[simp] theorem linksAt_push (r i : Nat) : (s.push r).linksAt i = s.linksAt i := by
  rw [linksAt, linksAt, links_push]

@[simp] theorem calls_push (r : Nat) : (s.push r).calls = s.calls := by
  unfold push; split <;> rfl

@[simp] theorem settings_push (r : Nat) : (s.push r).settings = s.settings := by
  unfold push; split <;> rfl

@[simp] theorem exposed_push (r : Nat) : (s.push r).exposed = s.exposed := by
  unfold push; split <;> rfl

theorem mem_queue_push {r e : Nat} : e ∈ (s.push r).queue ↔ e ∈ s.queue ∨ e = r := by
  unfold push
  split
  · exact ⟨.inl, fun h => h.elim id fun h => h ▸ ‹_›⟩
  · simp

theorem length_queue_push (r : Nat) : (s.push r).queue.length ≤ s.queue.length + 1 := by
  unfold push
  split
  · omega
  · simp

theorem waits_push {r x : Nat} : (s.push r).Waits x ↔ s.Waits x ∨ s.pool.rootOf r = x := by
  simp only [Waits, mem_queue_push, pool_push]
  constructor
  · rintro ⟨e, he | rfl, hx⟩
    · exact .inl ⟨e, he, hx⟩
    · exact .inr hx
  · rintro (⟨e, he, hx⟩ | hx)
    · exact ⟨e, .inl he, hx⟩
    · exact ⟨r, .inr rfl, hx⟩

theorem slack_le_slack {r : Nat} (hsize : t.pool.size = s.pool.size)
    (hstored : ∀ o, o ∈ s.pool.stored r → o ∈ t.pool.stored r)
    (hsupersets : ∀ x, x ∈ (s.linksAt r).supersets → x ∈ (t.linksAt r).supersets) :
    t.slack r ≤ s.slack r := by
  have h1 := IndexSet.size_le_of_subset hstored
  have h2 := IndexSet.size_le_of_subset hsupersets
  rw [slack, slack, hsize]
  omega

/-- Putting a root on the worklist. -/
theorem extends_push (s : State) (r : Nat) : Extends s (s.push r) where
  settings_eq := settings_push r
  same := by rw [pool_push]; exact .refl _
  joins i j h := by rwa [pool_push]
  grows i o h := by rwa [pool_push]
  hasEdge x y h := by simpa only [HasEdge, pool_push, linksAt_push] using h
  loads i v h := by rwa [pool_push, linksAt_push]
  stores i v h := by rwa [pool_push, linksAt_push]
  calls i c h := by rwa [pool_push, linksAt_push]
  site c x h := by rwa [calls_push]
  bound c o h := by simpa only [Bound, calls_push] using h
  exposed o h := by rwa [exposed_push]
  settled x o h := by
    rw [linksAt_push, pool_push]
    refine ⟨?_, fun i hi => hi, rfl, rfl, rfl, fun x hx => .inl hx⟩
    by_cases hd : s.settings.differences = true
    · rw [settled_iff_fresh (by rwa [settings_push]), pool_push, linksAt_push] at h
      exact (settled_iff_fresh hd).2 h
    · rw [settled_iff_waits (by rwa [settings_push]), pool_push, waits_push] at h
      exact (settled_iff_waits hd).2 ⟨h.1, fun hw => h.2 (.inl hw)⟩
  rootOf_eq i := by rw [pool_push]
  loads_eq x := by rw [linksAt_push]
  stores_eq x := by rw [linksAt_push]
  calls_eq x := by rw [linksAt_push]

theorem Valid.push (hs : s.Valid base T) {r : Nat} (hr : r < s.pool.size) :
    (s.push r).Valid base T := by
  refine hs.extend (settings_push r) (by rw [pool_push]; exact .refl _)
    (by rw [pool_push]; exact hs.forest) (fun i => by rw [pool_push]) (extends_push s r).grows
    (by rw [links_push]) (fun x o h => .inl (by rwa [pool_push] at h))
    (fun x y h => .inl (by rwa [linksAt_push] at h))
    (fun x v h => .inl (by rwa [linksAt_push] at h))
    (fun x v h => .inl (by rwa [linksAt_push] at h))
    (fun x c h => .inl (by rwa [linksAt_push] at h)) (fun c => by rw [calls_push])
    (fun e he => ?_) (fun x o h => ?_) (fun hd x o h => ?_)
    (fun x o h => .inl (by rwa [linksAt_push] at h))
  · rcases mem_queue_push.1 he with he | rfl
    · exact hs.queue_lt e he
    · exact hr
  · rw [linksAt_push] at h
    rw [pool_push]
    exact hs.fresh_sub x o h
  · rw [linksAt_push] at h
    rw [settings_push] at hd
    exact waits_push.2 (.inl (hs.fresh_waits hd x o h))

/-! ## Learning of pointees -/

/-- What a state is after a root was told of objects, apart from the worklist. -/
structure Told (s : State) (root : Nat) (objects : List Nat) (t : State) : Prop where
  settings_eq : t.settings = s.settings
  calls_eq : t.calls = s.calls
  exposed_eq : t.exposed = s.exposed
  same : Pool.SameEntities s.pool t.pool
  forest : s.pool.Forest → t.pool.Forest
  rootOf_eq : ∀ i, t.pool.rootOf i = s.pool.rootOf i
  isRoot_eq : ∀ i, t.pool.isRoot i = s.pool.isRoot i
  links_size : t.links.size = s.links.size
  supersets_eq : ∀ r, (t.linksAt r).supersets = (s.linksAt r).supersets
  loads_eq : ∀ r, (t.linksAt r).loads = (s.linksAt r).loads
  stores_eq : ∀ r, (t.linksAt r).stores = (s.linksAt r).stores
  links_calls_eq : ∀ r, (t.linksAt r).calls = (s.linksAt r).calls
  mem_stored : ∀ r o, o ∈ t.pool.stored r ↔ o ∈ s.pool.stored r ∨ r = root ∧ o ∈ objects
  mem_fresh : ∀ r o, o ∈ (t.linksAt r).fresh ↔ o ∈ (s.linksAt r).fresh ∨
    s.settings.differences = true ∧ r = root ∧ o ∈ objects ∧ ¬ o ∈ s.pool.stored root

theorem told_insertPointees {root : Nat} (hroot : root < s.pool.size)
    (hlinks : root < s.links.size) (objects : List Nat) :
    Told s root objects (s.insertPointees root objects).2 ∧
      (s.insertPointees root objects).2.queue = s.queue ∧
      ((s.insertPointees root objects).1 = true ↔
        ∃ o ∈ objects, ¬ o ∈ s.pool.stored root) := by
  have hall : (objects.all (s.pool.stored root).contains = true) ↔
      ∀ o ∈ objects, o ∈ s.pool.stored root := by simp [List.all_eq_true]
  unfold insertPointees
  by_cases hin : objects.all (s.pool.stored root).contains = true
  · rw [if_pos hin]
    rw [hall] at hin
    refine ⟨⟨rfl, rfl, rfl, .refl _, id, fun _ => rfl, fun _ => rfl, rfl, fun _ => rfl,
      fun _ => rfl, fun _ => rfl, fun _ => rfl, fun r o => ?_, fun r o => ?_⟩, rfl, ?_⟩
    · exact ⟨.inl, fun h => h.elim id fun h => h.1 ▸ hin o h.2⟩
    · exact ⟨.inl, fun h => h.elim id fun h => absurd (hin o h.2.2.1) h.2.2.2⟩
    · simpa using hin
  rw [if_neg hin]
  rw [hall] at hin
  have hgrew : ∃ o ∈ objects, ¬ o ∈ s.pool.stored root := by push Not at hin; exact hin
  have hadded : ∀ o, o ∈ objects.filter (fun o => !(s.pool.stored root).contains o) ↔
      o ∈ objects ∧ ¬ o ∈ s.pool.stored root := by
    intro o
    simp [List.mem_filter, IndexSet.contains]
  generalize objects.filter (fun o => !(s.pool.stored root).contains o) = added at hadded
  have hstored : ∀ r o, o ∈ (s.pool.grow root added).stored r ↔
      o ∈ s.pool.stored r ∨ r = root ∧ o ∈ objects := by
    intro r o
    rw [Pool.mem_stored_grow hroot, hadded]
    by_cases hr : r = root
    · subst hr
      by_cases ho : o ∈ s.pool.stored r <;> simp [ho]
    · simp [hr]
  by_cases hd : s.settings.differences = true
  · rw [if_pos hd]
    have hat : ∀ r, ({ s with pool := s.pool.grow root added }.modifyLinks root
        fun l => { l with fresh := l.fresh.insertAll added }).linksAt r =
          if r = root then { s.linksAt root with
            fresh := (s.linksAt root).fresh.insertAll added }
          else s.linksAt r :=
      fun r => linksAt_modifyLinks hlinks _ r
    refine ⟨⟨rfl, rfl, rfl, .store _ _ _, fun h => h.store _ _, fun i => Pool.rootOf_store i,
      fun i => Pool.isRoot_store i, size_links_modifyLinks, fun r => ?_,
      fun r => ?_, fun r => ?_, fun r => ?_, hstored, fun r o => ?_⟩,
        rfl, by simpa using hgrew⟩
    · rw [hat]; split <;> simp_all
    · rw [hat]; split <;> simp_all
    · rw [hat]; split <;> simp_all
    · rw [hat]; split <;> simp_all
    · rw [hat]
      by_cases hr : r = root
      · subst hr
        simp [hd, hadded]
      · simp [hr]
  · rw [if_neg hd]
    refine ⟨⟨rfl, rfl, rfl, .store _ _ _, fun h => h.store _ _, fun i => Pool.rootOf_store i,
      fun i => Pool.isRoot_store i, rfl, fun r => rfl, fun r => rfl,
      fun r => rfl, fun r => rfl, hstored, fun r o => ?_⟩, rfl, by simpa using hgrew⟩
    exact ⟨.inl, fun h => h.elim id fun h => absurd h.1 hd⟩

theorem Told.push {root : Nat} {objects : List Nat} (h : Told s root objects t) (r : Nat) :
    Told s root objects (t.push r) where
  settings_eq := by rw [settings_push, h.settings_eq]
  calls_eq := by rw [calls_push, h.calls_eq]
  exposed_eq := by rw [exposed_push, h.exposed_eq]
  same := by rw [pool_push]; exact h.same
  forest := by rw [pool_push]; exact h.forest
  rootOf_eq := by rw [pool_push]; exact h.rootOf_eq
  isRoot_eq := by rw [pool_push]; exact h.isRoot_eq
  links_size := by rw [links_push, h.links_size]
  supersets_eq x := by rw [linksAt_push, h.supersets_eq]
  loads_eq x := by rw [linksAt_push, h.loads_eq]
  stores_eq x := by rw [linksAt_push, h.stores_eq]
  links_calls_eq x := by rw [linksAt_push, h.links_calls_eq]
  mem_stored := by rw [pool_push]; exact h.mem_stored
  mem_fresh x o := by rw [linksAt_push, h.mem_fresh]

/-- Tell a root of objects; it waits if any is new. -/
def learn (s : State) (root : Nat) (objects : List Nat) : State :=
  if (s.insertPointees root objects).1 then (s.insertPointees root objects).2.push root
  else (s.insertPointees root objects).2

section Learn

variable {root : Nat} {objects : List Nat}

theorem told_learn (hroot : root < s.pool.size) (hlinks : root < s.links.size)
    (objects : List Nat) : Told s root objects (s.learn root objects) := by
  obtain ⟨htold, -, -⟩ := told_insertPointees hroot hlinks objects
  unfold learn
  split
  · exact htold.push root
  · exact htold

/-- Who waits after a root was told of objects. -/
theorem waits_learn (hroot : root < s.pool.size) (hlinks : root < s.links.size) {x : Nat} :
    (s.learn root objects).Waits x ↔ s.Waits x ∨
      s.pool.rootOf root = x ∧ ∃ o ∈ objects, ¬ o ∈ s.pool.stored root := by
  obtain ⟨htold, hqueue, hgrew⟩ := told_insertPointees hroot hlinks objects
  have hwaits : (s.insertPointees root objects).2.Waits x ↔ s.Waits x := by
    simp only [Waits, hqueue, htold.rootOf_eq]
  unfold learn
  split
  · rename_i h
    rw [waits_push, hwaits, htold.rootOf_eq]
    exact or_congr_right ⟨fun e => ⟨e, hgrew.1 h⟩, And.left⟩
  · rename_i h
    rw [hwaits]
    exact ⟨.inl, fun h' => h'.elim id fun h' => absurd (hgrew.2 h'.2) h⟩

theorem mem_queue_learn (hroot : root < s.pool.size) (hlinks : root < s.links.size) {e : Nat}
    (he : e ∈ (s.learn root objects).queue) : e ∈ s.queue ∨ e = root := by
  obtain ⟨-, hqueue, -⟩ := told_insertPointees hroot hlinks objects
  unfold learn at he
  split at he
  · rwa [mem_queue_push, hqueue] at he
  · exact .inl (hqueue ▸ he)

theorem extends_learn (hroot : s.pool.isRoot root = true) (hlinks : root < s.links.size) :
    Extends s (s.learn root objects) := by
  have hlt := Pool.lt_size_of_isRoot hroot
  have htold := told_learn hlt hlinks objects
  refine ⟨⟨⟨htold.settings_eq, htold.same, fun i j h => ?_, fun i o h => ?_, fun x y h => ?_,
    fun i v h => ?_, fun i v h => ?_, fun i c h => ?_, fun c x h => ?_, fun c o h => ?_,
    fun o h => ?_⟩,
    fun r o h => ?_⟩, htold.rootOf_eq, htold.loads_eq, htold.stores_eq, htold.links_calls_eq⟩
  · rw [htold.rootOf_eq, htold.rootOf_eq, h]
  · rw [Pool.pointsTo, htold.rootOf_eq, htold.mem_stored]
    exact .inl h
  · simpa only [HasEdge, htold.rootOf_eq, htold.supersets_eq] using h
  · rwa [htold.rootOf_eq, htold.loads_eq]
  · rwa [htold.rootOf_eq, htold.stores_eq]
  · rwa [htold.rootOf_eq, htold.links_calls_eq]
  · rwa [htold.calls_eq]
  · simpa only [Bound, htold.calls_eq] using h
  · rwa [htold.exposed_eq]
  · refine ⟨?_, fun i hi => htold.rootOf_eq i ▸ hi, htold.loads_eq r, htold.stores_eq r,
      htold.links_calls_eq r, fun x hx => .inl (htold.supersets_eq r ▸ hx)⟩
    -- what is new is fresh, or its root waits: either way it is not settled
    by_cases hd : s.settings.differences = true
    · rw [settled_iff_fresh (htold.settings_eq ▸ hd), htold.mem_stored, htold.mem_fresh] at h
      rw [settled_iff_fresh hd]
      obtain ⟨ho | ⟨rfl, ho⟩, hfresh⟩ := h
      · exact ⟨ho, fun hf => hfresh (.inl hf)⟩
      · by_cases hin : o ∈ s.pool.stored r
        · exact ⟨hin, fun hf => hfresh (.inl hf)⟩
        · exact absurd (.inr ⟨hd, rfl, ho, hin⟩) hfresh
    · rw [settled_iff_waits (htold.settings_eq ▸ hd), htold.mem_stored,
        waits_learn hlt hlinks] at h
      rw [settled_iff_waits hd]
      obtain ⟨ho | ⟨rfl, ho⟩, hwaits⟩ := h
      · exact ⟨ho, fun hw => hwaits (.inl hw)⟩
      · by_cases hin : o ∈ s.pool.stored r
        · exact ⟨hin, fun hw => hwaits (.inl hw)⟩
        · exact absurd (.inr ⟨Pool.rootOf_of_isRoot hroot, o, ho, hin⟩) hwaits

theorem Valid.learn (hs : s.Valid base T) (hroot : s.pool.isRoot root = true)
    (hobjects : ∀ o ∈ objects, s.pool.IsObject o ∧ o ∈ T root) :
    (s.learn root objects).Valid base T := by
  have hlt := Pool.lt_size_of_isRoot hroot
  have hlinks := hs.lt_links hlt
  have htold := told_learn hlt hlinks objects
  refine hs.extend htold.settings_eq htold.same (htold.forest hs.forest) htold.rootOf_eq
    (extends_learn hroot hlinks).grows htold.links_size (fun r o h => ?_)
    (fun r x h => .inl (htold.supersets_eq r ▸ h))
    (fun r v h => .inl (htold.loads_eq r ▸ h)) (fun r v h => .inl (htold.stores_eq r ▸ h))
    (fun r c h => .inl (htold.links_calls_eq r ▸ h)) (fun c => by rw [htold.calls_eq])
    (fun e he => ?_) (fun r o h => ?_) (fun hd r o h => ?_) (fun r o h => ?_)
  · rcases (htold.mem_stored r o).1 h with ho | ⟨rfl, ho⟩
    · exact .inl ho
    · exact .inr ⟨hroot, hobjects o ho⟩
  · rcases mem_queue_learn hlt hlinks he with he | rfl
    · exact hs.queue_lt e he
    · exact hlt
  · rw [htold.mem_stored]
    rcases (htold.mem_fresh r o).1 h with h | ⟨-, rfl, h, -⟩
    · exact .inl (hs.fresh_sub r o h)
    · exact .inr ⟨rfl, h⟩
  · rw [waits_learn hlt hlinks]
    rcases (htold.mem_fresh r o).1 h with h | ⟨-, rfl, h, hnew⟩
    · exact .inl (hs.fresh_waits (htold.settings_eq ▸ hd) r o h)
    · exact .inr ⟨Pool.rootOf_of_isRoot hroot, o, h, hnew⟩
  · refine ((htold.mem_fresh r o).1 h).imp_right ?_
    rintro ⟨-, rfl, -, hnew⟩
    rwa [Pool.pointsTo, Pool.rootOf_of_isRoot hroot]

/-- A root that is put on the worklist for what it learnt lacks less than before. -/
theorem work_learn_le (hs : s.Valid base T) (hroot : s.pool.isRoot root = true)
    (hobjects : ∀ o ∈ objects, s.pool.IsObject o) : (s.learn root objects).work ≤ s.work := by
  have hlt := Pool.lt_size_of_isRoot hroot
  have hlinks := hs.lt_links hlt
  have htold := told_learn hlt hlinks objects
  have hslack : ∀ r, (s.learn root objects).slack r ≤ s.slack r := fun r =>
    slack_le_slack htold.same.size_eq (fun o ho => (htold.mem_stored r o).2 (.inl ho))
      (fun x hx => (htold.supersets_eq r).symm ▸ hx)
  refine work_le_work htold.same.size_eq htold.isRoot_eq hslack ?_
  obtain ⟨htold', hqueue, hgrew⟩ := told_insertPointees hlt hlinks objects
  by_cases hg : (s.insertPointees root objects).1 = true
  · refine .inr ⟨?_, root, hroot, ?_⟩
    · rw [learn, if_pos hg]
      exact (length_queue_push root).trans (by rw [hqueue])
    · obtain ⟨o, ho, hnew⟩ := hgrew.1 hg
      have hmore :
          (s.pool.stored root).size < ((s.learn root objects).pool.stored root).size :=
        IndexSet.size_lt_of_subset (fun o ho => (htold.mem_stored root o).2 (.inl ho))
          ((htold.mem_stored root o).2 (.inr ⟨rfl, ho⟩)) hnew
      have hbound : ((s.learn root objects).pool.stored root).size ≤ s.pool.size := by
        refine IndexSet.size_le_of_lt fun o ho => ?_
        rcases (htold.mem_stored root o).1 ho with ho | ⟨-, ho⟩
        · exact (hs.objects root o ho).1
        · exact (hobjects o ho).1
      rw [slack, slack, htold.same.size_eq, htold.supersets_eq]
      omega
  · rw [learn, if_neg hg]
    exact .inl (congrArg List.length hqueue).le

end Learn

/-! ## Making an edge -/

/-- Note an edge at its source. -/
def addSuperset (s : State) (superset subset : Nat) : State :=
  s.modifyLinks subset fun l => { l with supersets := l.supersets.insert superset }

section AddSuperset

variable {sup sub : Nat}

theorem linksAt_addSuperset (h : sub < s.links.size) (i : Nat) :
    (s.addSuperset sup sub).linksAt i =
      if i = sub then { s.linksAt sub with supersets := (s.linksAt sub).supersets.insert sup }
      else s.linksAt i :=
  linksAt_modifyLinks h _ i

theorem mem_supersets_addSuperset (h : sub < s.links.size) {r x : Nat} :
    x ∈ ((s.addSuperset sup sub).linksAt r).supersets ↔
      x ∈ (s.linksAt r).supersets ∨ r = sub ∧ x = sup := by
  rw [linksAt_addSuperset h]
  by_cases hr : r = sub
  · subst hr
    simp [or_comm]
  · simp [hr]

/-- Apart from its supersets a root's links are as before. -/
theorem linksAt_addSuperset_eq (h : sub < s.links.size) (sup r : Nat) :
    ((s.addSuperset sup sub).linksAt r).loads = (s.linksAt r).loads ∧
    ((s.addSuperset sup sub).linksAt r).stores = (s.linksAt r).stores ∧
    ((s.addSuperset sup sub).linksAt r).calls = (s.linksAt r).calls ∧
    ((s.addSuperset sup sub).linksAt r).fresh = (s.linksAt r).fresh := by
  rw [linksAt_addSuperset h]
  by_cases hr : r = sub
  · subst hr
    simp
  · simp [hr]

theorem settled_addSuperset (h : sub < s.links.size) {r o : Nat} :
    (s.addSuperset sup sub).Settled r o ↔ s.Settled r o := by
  obtain ⟨-, -, -, hfresh⟩ := linksAt_addSuperset_eq h sup r
  have hwaits : (s.addSuperset sup sub).Waits r ↔ s.Waits r := Iff.rfl
  simp only [Settled, hfresh, hwaits]
  exact Iff.rfl

theorem hasEdge_addSuperset (h : sub < s.links.size) {x y : Nat} (he : s.HasEdge x y) :
    (s.addSuperset sup sub).HasEdge x y := by
  refine he.imp id fun ⟨z, hz, hy⟩ => ⟨z, ?_, hy⟩
  exact (mem_supersets_addSuperset h).2 (.inl hz)

/-- An edge that has carried all that is settled at its source may be noted. -/
theorem extends_addSuperset (h : sub < s.links.size)
    (hcarried : ∀ o, s.Settled sub o → o ∈ s.pool.pointsTo sup) :
    Extends s (s.addSuperset sup sub) where
  settings_eq := rfl
  same := .refl _
  joins _ _ e := e
  grows _ _ ho := ho
  hasEdge x y e := hasEdge_addSuperset h e
  loads i v hv := (linksAt_addSuperset_eq h sup _).1 ▸ hv
  stores i v hv := (linksAt_addSuperset_eq h sup _).2.1 ▸ hv
  calls i c hc := (linksAt_addSuperset_eq h sup _).2.2.1 ▸ hc
  site _ _ hx := hx
  bound _ _ hb := hb
  exposed _ ho := ho
  settled r o ho := by
    rw [settled_addSuperset h] at ho
    obtain ⟨hloads, hstores, hcalls, -⟩ := linksAt_addSuperset_eq h sup r
    refine ⟨ho, fun i hi => hi, hloads, hstores, hcalls, fun x hx => ?_⟩
    rcases (mem_supersets_addSuperset h).1 hx with hx | ⟨rfl, rfl⟩
    · exact .inl hx
    · exact .inr (hcarried o ho)
  rootOf_eq _ := rfl
  loads_eq r := (linksAt_addSuperset_eq h sup r).1
  stores_eq r := (linksAt_addSuperset_eq h sup r).2.1
  calls_eq r := (linksAt_addSuperset_eq h sup r).2.2.1

theorem Valid.addSuperset (hs : s.Valid base T) (hsup : sup < s.pool.size)
    (hsub : sub < s.pool.size) (hne : sup ≠ sub) (hT : T sub ⊆ T sup) :
    (s.addSuperset sup sub).Valid base T := by
  have hlinks := hs.lt_links hsub
  refine hs.extend rfl (.refl _) hs.forest
    (fun _ => rfl) (fun _ _ h => h) size_links_modifyLinks (fun r o h => .inl h)
    (fun r x h => ?_) (fun r v h => .inl ((linksAt_addSuperset_eq hlinks sup r).1 ▸ h))
    (fun r v h => .inl ((linksAt_addSuperset_eq hlinks sup r).2.1 ▸ h))
    (fun r c h => .inl ((linksAt_addSuperset_eq hlinks sup r).2.2.1 ▸ h)) (fun _ => rfl)
    hs.queue_lt (fun r o h => ?_) (fun hd r o h => ?_)
    (fun r o h => .inl ((linksAt_addSuperset_eq hlinks sup r).2.2.2 ▸ h))
  · rcases (mem_supersets_addSuperset hlinks).1 h with h | ⟨rfl, rfl⟩
    · exact .inl h
    · exact .inr ⟨hsup, hne, hT⟩
  · rw [(linksAt_addSuperset_eq hlinks sup r).2.2.2] at h
    exact hs.fresh_sub r o h
  · rw [(linksAt_addSuperset_eq hlinks sup r).2.2.2] at h
    exact hs.fresh_waits hd r o h

/-- A new edge leaves less to do. -/
theorem work_addSuperset_lt (hs : s.Valid base T) (hsup : sup < s.pool.size)
    (hsub : s.pool.isRoot sub = true) (hnew : ¬ sup ∈ (s.linksAt sub).supersets) :
    (s.addSuperset sup sub).work < s.work := by
  have hlinks := hs.lt_links (Pool.lt_size_of_isRoot hsub)
  have hmore : (s.linksAt sub).supersets.size <
      ((s.addSuperset sup sub).linksAt sub).supersets.size :=
    IndexSet.size_lt_of_subset (fun x hx => (mem_supersets_addSuperset hlinks).2 (.inl hx))
      ((mem_supersets_addSuperset hlinks).2 (.inr ⟨rfl, rfl⟩)) hnew
  have hbound : ((s.addSuperset sup sub).linksAt sub).supersets.size ≤ s.pool.size := by
    refine IndexSet.size_le_of_lt fun x hx => ?_
    rcases (mem_supersets_addSuperset hlinks).1 hx with hx | ⟨-, rfl⟩
    · exact hs.supersets_lt sub x hx
    · exact hsup
  have hslack : (s.addSuperset sup sub).slack sub < s.slack sub := by
    show (s.pool.size - (s.pool.stored sub).size) + (s.pool.size - _) + 1 <
      (s.pool.size - (s.pool.stored sub).size) + (s.pool.size - _) + 1
    omega
  have hsum := Finset.sum_lt_sum (s := s.pool.roots) (f := (s.addSuperset sup sub).slack)
    (g := s.slack)
    (fun r _ => slack_le_slack rfl (fun _ ho => ho)
      fun x hx => (mem_supersets_addSuperset hlinks).2 (.inl hx))
    ⟨sub, Pool.mem_roots.2 hsub, hslack⟩
  show s.queue.length + ∑ r ∈ s.pool.roots, (s.addSuperset sup sub).slack r < s.work
  rw [work]
  omega

end AddSuperset

/-- The order of two changes to different roots does not matter. -/
theorem modify_comm {α : Type} {xs : Array α} {i j : Nat} (h : i ≠ j) (f g : α → α) :
    (xs.modify i f).modify j g = (xs.modify j g).modify i f := by
  apply Array.ext_getElem?
  intro k
  simp only [Array.getElem?_modify]
  by_cases hi : i = k
  · subst hi
    rw [if_neg (Ne.symm h), if_pos rfl, if_pos rfl, if_neg (Ne.symm h)]
  · simp [hi]

/-- Telling one root of objects and noting an edge at another can be done in either order. -/
theorem insertPointees_addSuperset {sup sub root : Nat} (hne : sub ≠ root) (stats : Stats)
    (objects : List Nat) :
    { s.addSuperset sup sub with stats }.insertPointees root objects =
      ((s.insertPointees root objects).1,
        { (s.insertPointees root objects).2.addSuperset sup sub with stats }) := by
  unfold insertPointees
  by_cases hin : objects.all (s.pool.stored root).contains = true
  · rw [if_pos (show objects.all ((s.addSuperset sup sub).pool.stored root).contains =
      true from hin), if_pos hin]
  rw [if_neg (show ¬ objects.all ((s.addSuperset sup sub).pool.stored root).contains =
    true from hin), if_neg hin]
  by_cases hd : s.settings.differences = true
  · rw [if_pos (show (s.addSuperset sup sub).settings.differences = true from hd), if_pos hd]
    simp only [addSuperset, modifyLinks, modify_comm hne]
  · rw [if_neg (show ¬ (s.addSuperset sup sub).settings.differences = true from hd), if_neg hd]
    rfl

theorem agrees_push_addSuperset {sup sub : Nat} (stats : Stats) (r : Nat) :
    Agrees ((s.push r).addSuperset sup sub) ({ s.addSuperset sup sub with stats }.push r) := by
  unfold push
  by_cases hq : r ∈ s.queue
  · rw [if_pos hq, if_pos (show r ∈ (s.addSuperset sup sub).queue from hq)]
    exact ⟨rfl, rfl, rfl, rfl, rfl, rfl⟩
  · rw [if_neg hq, if_neg (show ¬ r ∈ (s.addSuperset sup sub).queue from hq)]
    exact ⟨rfl, rfl, rfl, rfl, rfl, rfl⟩

/-- Making an edge that is not there. -/
theorem link_eq {sup sub : Nat} (hne : sup ≠ sub) (hnew : ¬ sup ∈ (s.linksAt sub).supersets) :
    s.link sup sub =
      if s.settings.differences then
        match { s.addSuperset sup sub with
            stats := { s.stats with edges := s.stats.edges + 1 } }.insertPointees sup
          (s.pool.stored sub).toList with
        | (true, s) => s.noteGrowth sup
        | (false, s) => s
      else
        { s.addSuperset sup sub with
          stats := { s.stats with edges := s.stats.edges + 1 } }.push sub := by
  rw [link, if_neg (not_or.2 ⟨hne, hnew⟩)]
  rfl

/-- What happens before a new edge is noted: with difference propagation its target learns of
all its source points to, without it its source waits. -/
def beforeLink (s : State) (superset subset : Nat) : State :=
  if s.settings.differences then s.learn superset (s.pool.stored subset).toList
    else s.push subset

/-- Making a new edge. -/
theorem agrees_link {sup sub : Nat} (hne : sup ≠ sub)
    (hnew : ¬ sup ∈ (s.linksAt sub).supersets) :
    Agrees ((s.beforeLink sup sub).addSuperset sup sub) (s.link sup sub) := by
  rw [link_eq hne hnew, beforeLink]
  by_cases hd : s.settings.differences = true
  · rw [if_pos hd, if_pos hd, insertPointees_addSuperset (Ne.symm hne), learn]
    cases (s.insertPointees sup (s.pool.stored sub).toList).1 with
    | false => exact ⟨rfl, rfl, rfl, rfl, rfl, rfl⟩
    | true => exact agrees_push_addSuperset _ sup
  · rw [if_neg hd, if_neg hd]
    exact agrees_push_addSuperset _ sub

section BeforeLink

variable {sup sub : Nat}

/-- A new edge may be noted: what is settled at its source has reached its target. -/
structure Primed (s : State) (sup sub : Nat) (t : State) : Prop where
  ext : Extends s t
  calls_eq : t.calls = s.calls
  exposed_eq : t.exposed = s.exposed
  forest : s.pool.Forest → t.pool.Forest
  isRoot_eq : ∀ i, t.pool.isRoot i = s.pool.isRoot i
  links_size : t.links.size = s.links.size
  supersets_eq : ∀ r, (t.linksAt r).supersets = (s.linksAt r).supersets
  carried : ∀ o, t.Settled sub o → o ∈ t.pool.pointsTo sup

theorem primed_beforeLink (hsup : s.pool.isRoot sup = true) (hsub : s.pool.isRoot sub = true)
    (hlinks : sup < s.links.size) : Primed s sup sub (s.beforeLink sup sub) := by
  rw [beforeLink]
  by_cases hd : s.settings.differences = true
  · have htold := told_learn (Pool.lt_size_of_isRoot hsup) hlinks (s.pool.stored sub).toList
    have hext : Extends s (s.learn sup (s.pool.stored sub).toList) := extends_learn hsup hlinks
    rw [if_pos hd]
    refine ⟨hext, htold.calls_eq, htold.exposed_eq, htold.forest, htold.isRoot_eq,
      htold.links_size, htold.supersets_eq, fun o ho => ?_⟩
    have hso := (hext.settled sub o ho).1.1
    rw [Pool.pointsTo, htold.rootOf_eq, Pool.rootOf_of_isRoot hsup, htold.mem_stored]
    exact .inr ⟨rfl, hso⟩
  · rw [if_neg hd]
    refine ⟨extends_push s sub, calls_push sub, exposed_push sub, fun h => by rwa [pool_push],
      fun i => by rw [pool_push], by rw [links_push], fun r => by rw [linksAt_push],
      fun o ho => ?_⟩
    rw [settled_iff_waits (by rwa [settings_push])] at ho
    exact absurd (waits_push.2 (.inr (Pool.rootOf_of_isRoot hsub))) ho.2

/-- Making an edge between two roots, whatever else the state holds. -/
theorem extends_link (hsup : s.pool.isRoot sup = true) (hsub : s.pool.isRoot sub = true)
    (hlinks : s.links.size = s.pool.size) :
    Extends s (s.link sup sub) ∧ (s.link sup sub).calls = s.calls ∧
      (s.link sup sub).exposed = s.exposed ∧ (s.link sup sub).HasEdge sub sup := by
  by_cases htriv : sup = sub ∨ sup ∈ (s.linksAt sub).supersets
  · rw [State.link, if_pos htriv]
    refine ⟨.refl s, rfl, rfl, ?_⟩
    rcases htriv with rfl | hmem
    · exact .inl rfl
    · refine .inr ⟨sup, ?_, rfl⟩
      rwa [Pool.rootOf_of_isRoot hsub]
  · obtain ⟨hne, hnew⟩ := not_or.1 htriv
    have hagrees := agrees_link hne hnew
    have hprimed := primed_beforeLink hsup hsub (hlinks ▸ Pool.lt_size_of_isRoot hsup)
    generalize s.beforeLink sup sub = t at hagrees hprimed
    have hlt : sub < t.links.size := by
      rw [hprimed.links_size, hlinks]
      exact Pool.lt_size_of_isRoot hsub
    refine ⟨(hprimed.ext.trans (extends_addSuperset hlt hprimed.carried)).trans
      hagrees.extends_,
      hagrees.calls_eq.trans hprimed.calls_eq, hagrees.exposed_eq.trans hprimed.exposed_eq,
      hagrees.hasEdge_iff.2 (.inr ⟨sup, ?_, rfl⟩)⟩
    show sup ∈ ((t.addSuperset sup sub).linksAt (t.pool.rootOf sub)).supersets
    rw [hprimed.ext.rootOf_eq, Pool.rootOf_of_isRoot hsub]
    exact (mem_supersets_addSuperset hlt).2 (.inr ⟨rfl, rfl⟩)

/-- An edge joins the roots, which stand for the entities. -/
theorem HasEdge.of_roots (hforest : s.pool.Forest)
    (hroot : ∀ i, t.pool.rootOf i = s.pool.rootOf i) {x y : Nat}
    (h : t.HasEdge (s.pool.rootOf x) (s.pool.rootOf y)) : t.HasEdge x y := by
  simpa only [HasEdge, hroot, hforest.rootOf_rootOf] using h

end BeforeLink

/-- A valid state was extended without leaving more to do. -/
structure Grown (base : Pool) (T : Family) (s t : State) : Prop where
  valid : t.Valid base T
  ext : Extends s t
  work_le : t.work ≤ s.work

theorem Grown.trans {u : State} (h : Grown base T s t) (h' : Grown base T t u) :
    Grown base T s u :=
  ⟨h'.valid, h.ext.trans h'.ext, h'.work_le.trans h.work_le⟩

theorem Valid.grown_learn (hs : s.Valid base T) {root : Nat} {objects : List Nat}
    (hroot : s.pool.isRoot root = true)
    (hobjects : ∀ o ∈ objects, s.pool.IsObject o ∧ o ∈ T root) :
    Grown base T s (s.learn root objects) :=
  ⟨hs.learn hroot hobjects, extends_learn hroot (hs.lt_links (Pool.lt_size_of_isRoot hroot)),
    work_learn_le hs hroot fun o ho => (hobjects o ho).1⟩

/-- What a state is after edges were made. -/
structure Edged (base : Pool) (T : Family) (s t : State) (edges : List (Handle × Handle)) : Prop
    extends Grown base T s t where
  calls_eq : t.calls = s.calls
  exposed_eq : t.exposed = s.exposed
  linked : t.Linked edges

/-- Before a new edge is noted there may be one more root to take. -/
theorem Valid.beforeLink (hs : s.Valid base T) {sup sub : Nat}
    (hsup : s.pool.isRoot sup = true) (hsub : s.pool.isRoot sub = true) (hT : T sub ⊆ T sup) :
    (s.beforeLink sup sub).Valid base T ∧ (s.beforeLink sup sub).work ≤ s.work + 1 := by
  rw [State.beforeLink]
  by_cases hd : s.settings.differences = true
  · have hgrown : Grown base T s (s.learn sup (s.pool.stored sub).toList) :=
      hs.grown_learn hsup fun o ho => ⟨hs.objects sub o ho, hT (hs.below.stored sub o ho)⟩
    rw [if_pos hd]
    exact ⟨hgrown.valid, hgrown.work_le.trans (Nat.le_succ _)⟩
  · rw [if_neg hd]
    refine ⟨hs.push (Pool.lt_size_of_isRoot hsub), ?_⟩
    have hlen := length_queue_push (s := s) sub
    have hsum : ∑ r ∈ (s.push sub).pool.roots, (s.push sub).slack r =
        ∑ r ∈ s.pool.roots, s.slack r := by
      simp only [slack, pool_push, linksAt_push]
    rw [work, work, hsum]
    omega

/-- Making an edge between two roots. -/
theorem Valid.link (hs : s.Valid base T) {sup sub : Nat} (hsup : s.pool.isRoot sup = true)
    (hsub : s.pool.isRoot sub = true) (hT : T sub ⊆ T sup) :
    Grown base T s (s.link sup sub) ∧ (s.link sup sub).calls = s.calls ∧
      (s.link sup sub).exposed = s.exposed ∧ (s.link sup sub).HasEdge sub sup := by
  obtain ⟨hext, hcalls, hexposed, hedge⟩ := extends_link hsup hsub hs.links_size
  refine ⟨?_, hcalls, hexposed, hedge⟩
  by_cases htriv : sup = sub ∨ sup ∈ (s.linksAt sub).supersets
  · rw [State.link, if_pos htriv]
    exact ⟨hs, .refl s, le_rfl⟩
  · obtain ⟨hne, hnew⟩ := not_or.1 htriv
    have hagrees := agrees_link hne hnew
    have hprimed := primed_beforeLink hsup hsub (hs.lt_links (Pool.lt_size_of_isRoot hsup))
    obtain ⟨hvalid, hwork⟩ := hs.beforeLink hsup hsub hT
    generalize s.beforeLink sup sub = t at hagrees hprimed hvalid hwork
    have hsize : ∀ {i : Nat}, s.pool.isRoot i = true → i < t.pool.size := fun hi =>
      hprimed.ext.same.lt_size_iff.2 (Pool.lt_size_of_isRoot hi)
    have hlt := work_addSuperset_lt hvalid (hsize hsup) (by rwa [hprimed.isRoot_eq])
      (by rwa [hprimed.supersets_eq])
    refine ⟨(hvalid.addSuperset (hsize hsup) (hsize hsub) hne hT).congr hagrees, hext, ?_⟩
    rw [hagrees.work_eq]
    omega

theorem Valid.addEdge (hs : s.Valid base T) {sup sub : Handle} (hsup : s.pool.Owns sup)
    (hsub : s.pool.Owns sub) (hT : T sub.index ⊆ T sup.index) :
    ∃ t, s.addEdge sup sub = .ok t ∧ Edged base T s t [(sup, sub)] := by
  have hsup' := hs.forest.isRoot_rootOf hsup.2
  have hsub' := hs.forest.isRoot_rootOf hsub.2
  obtain ⟨hgrown, hcalls, hexposed, hedge⟩ := hs.link hsup' hsub' (hs.subset_rootOf hT)
  refine ⟨_, ?_, hgrown, hcalls, hexposed, fun e he => ?_⟩
  · simp only [State.addEdge, hs.forest.root_ok hsup, hs.forest.root_ok hsub,
      hs.checkLink hsup' hsub', bind, Except.bind]
    rfl
  · rw [List.mem_singleton] at he
    subst he
    exact hedge.of_roots hs.forest hgrown.ext.rootOf_eq

theorem Valid.addEdges (hs : s.Valid base T) {edges : List (Handle × Handle)}
    (hown : ∀ e ∈ edges, s.pool.Owns e.1 ∧ s.pool.Owns e.2)
    (hT : ∀ e ∈ edges, T e.2.index ⊆ T e.1.index) :
    ∃ t, s.addEdges edges = .ok t ∧ Edged base T s t edges := by
  have key := foldlM_ok (f := fun (s : State) (e : Handle × Handle) => s.addEdge e.1 e.2)
    (G := fun u => u.Valid base T ∧ Pool.SameEntities s.pool u.pool)
    (R := fun u v => Extends u v ∧ v.work ≤ u.work ∧ v.calls = u.calls ∧ v.exposed = u.exposed)
    (D := fun e u => u.HasEdge e.2.index e.1.index)
    (fun u => ⟨.refl u, le_rfl, rfl, rfl⟩)
    (fun h h' => ⟨h.1.trans h'.1, h'.2.1.trans h.2.1, h'.2.2.1.trans h.2.2.1,
      h'.2.2.2.trans h.2.2.2⟩)
    (fun h h' => h'.1.hasEdge _ _ h) (l := edges) ?round (s := s) ⟨hs, .refl _⟩
  · obtain ⟨t, hok, ⟨hvalid, -⟩, ⟨hext, hwork, hcalls, hexposed⟩, hlinked⟩ := key
    exact ⟨t, hok, ⟨hvalid, hext, hwork⟩, hcalls, hexposed, hlinked⟩
  case round =>
    rintro u e he ⟨hu, hsame⟩
    obtain ⟨h1, h2⟩ := hown e he
    obtain ⟨v, hok, hedged⟩ := hu.addEdge (hsame.owns_iff.2 h1) (hsame.owns_iff.2 h2) (hT e he)
    exact ⟨v, hok, ⟨hedged.valid, hsame.trans hedged.ext.same⟩,
      ⟨hedged.ext, hedged.work_le, hedged.calls_eq, hedged.exposed_eq⟩,
      hedged.linked e (List.mem_singleton_self e)⟩

end PointerChannels.Inclusion.State
