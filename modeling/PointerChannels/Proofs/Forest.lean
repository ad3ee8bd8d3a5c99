import PointerChannels.Pool
import PointerChannels.Proofs.Fold
import Mathlib.Data.Finset.Range

/-!
# Classes of a pool

The parents of a pool form a forest when ranks rise along them.  In a forest every climb ends
at a root within as many steps as there are entities, so `rootOf` names the class of an entity,
and `merge` joins two classes and leaves the others as they were.

Clients read a pool through `rootOf`, `stored` and what its entities are; only the modules
about pools themselves look at parents or ranks.

## Main definitions

* `Pool.Forest` — parents are in range and ranks rise along them.
* `Pool.Climbs` — an entity climbs to a root.
* `Pool.SameEntities` — two pools hold the same entities, whatever their classes.
* `Pool.Joined` — what a pool is after two of its classes were merged.
-/

namespace PointerChannels.Pool

/-- Parents are in range, and rank rises from an entity to a parent other than itself. -/
structure Forest (p : Pool) : Prop where
  parent_lt : ∀ {i : Nat} {c : Cell}, p.cells[i]? = some c → c.parent < p.size
  rank_lt : ∀ {i : Nat} {c : Cell}, p.cells[i]? = some c → c.parent ≠ i →
    c.rank < p.rankOf c.parent

/-- An entity climbs to a root. -/
inductive Climbs (p : Pool) : Nat → Nat → Prop
  | root {r : Nat} : p.isRoot r = true → Climbs p r r
  | step {i r : Nat} {c : Cell} : p.cells[i]? = some c → c.parent ≠ i → Climbs p c.parent r →
      Climbs p i r

variable {p q : Pool} {i r a b : Nat}

theorem lt_size_iff : i < p.size ↔ ∃ c, p.cells[i]? = some c := by
  constructor
  · intro h
    exact ⟨p.cells[i], Array.getElem?_eq_getElem h⟩
  · rintro ⟨c, hc⟩
    exact (Array.getElem?_eq_some_iff.1 hc).1

theorem isRoot_iff : p.isRoot i = true ↔ ∃ c, p.cells[i]? = some c ∧ c.parent = i := by
  unfold isRoot
  cases h : p.cells[i]? <;> simp

theorem lt_size_of_isRoot (h : p.isRoot r = true) : r < p.size := by
  obtain ⟨c, hc, -⟩ := isRoot_iff.1 h
  exact lt_size_iff.2 ⟨c, hc⟩

/-- The roots of a pool. -/
def roots (p : Pool) : Finset Nat := (Finset.range p.size).filter fun r => p.isRoot r = true

theorem mem_roots : r ∈ p.roots ↔ p.isRoot r = true := by
  rw [roots, Finset.mem_filter, Finset.mem_range]
  exact ⟨And.right, fun h => ⟨lt_size_of_isRoot h, h⟩⟩

theorem card_roots_le (p : Pool) : p.roots.card ≤ p.size := by
  have h := Finset.card_filter_le (Finset.range p.size) fun r => p.isRoot r = true
  rwa [Finset.card_range] at h

/-! ## Climbing -/

/-- The entities of higher rank.  There are fewer of them at every step of a climb. -/
def above (p : Pool) (i : Nat) : Finset Nat :=
  (Finset.range p.size).filter fun j => p.rankOf i < p.rankOf j

theorem rankOf_eq {c : Cell} (h : p.cells[i]? = some c) : p.rankOf i = c.rank := by
  simp [rankOf, h]

theorem Forest.above_parent (hp : p.Forest) {c : Cell} (h : p.cells[i]? = some c)
    (hne : c.parent ≠ i) : (p.above c.parent).card < (p.above i).card := by
  have hrank := hp.rank_lt h hne
  rw [← rankOf_eq h] at hrank
  refine Finset.card_lt_card ⟨fun j hj => ?_, fun hsub => ?_⟩
  · simp only [above, Finset.mem_filter] at hj ⊢
    exact ⟨hj.1, by omega⟩
  · have hmem : c.parent ∈ p.above i := by
      simp only [above, Finset.mem_filter, Finset.mem_range]
      exact ⟨hp.parent_lt h, hrank⟩
    have := hsub hmem
    simp [above] at this

theorem card_above_lt (h : i < p.size) : (p.above i).card < p.size := by
  have hsub : p.above i ⊆ (Finset.range p.size).erase i := by
    intro j hj
    simp only [above, Finset.mem_filter] at hj
    exact Finset.mem_erase.2 ⟨by rintro rfl; omega, hj.1⟩
  have hcard := Finset.card_le_card hsub
  rw [Finset.card_erase_of_mem (Finset.mem_range.2 h), Finset.card_range] at hcard
  omega

/-- A climb with enough steps ends at a root. -/
theorem Forest.climbs_climb (hp : p.Forest) :
    ∀ steps i, i < p.size → (p.above i).card ≤ steps → p.Climbs i (climb p.cells steps i) := by
  intro steps
  induction steps with
  | zero =>
      intro i hi hsteps
      obtain ⟨c, hc⟩ := lt_size_iff.1 hi
      have hroot : c.parent = i := by
        by_contra hne
        have := hp.above_parent hc hne
        omega
      exact .root (isRoot_iff.2 ⟨c, hc, hroot⟩)
  | succ steps ih =>
      intro i hi hsteps
      obtain ⟨c, hc⟩ := lt_size_iff.1 hi
      simp only [climb, hc]
      by_cases hne : c.parent = i
      · rw [if_pos hne]
        exact .root (isRoot_iff.2 ⟨c, hc, hne⟩)
      · rw [if_neg hne]
        have := hp.above_parent hc hne
        exact .step hc hne (ih c.parent (hp.parent_lt hc) (by omega))

theorem Forest.climbs_rootOf (hp : p.Forest) (h : i < p.size) : p.Climbs i (p.rootOf i) :=
  hp.climbs_climb p.cells.size i h (card_above_lt h).le

theorem Climbs.isRoot (h : p.Climbs i r) : p.isRoot r = true := by
  induction h with
  | root h => exact h
  | step _ _ _ ih => exact ih

theorem Climbs.unique {s : Nat} (h : p.Climbs i r) (h' : p.Climbs i s) : r = s := by
  induction h with
  | root hr =>
      obtain ⟨c, hc, hparent⟩ := isRoot_iff.1 hr
      cases h' with
      | root _ => rfl
      | step hc' hne _ =>
          rw [hc, Option.some.injEq] at hc'
          exact absurd (hc' ▸ hparent) hne
  | step hc hne _ ih =>
      cases h' with
      | root hr =>
          obtain ⟨c', hc', hparent⟩ := isRoot_iff.1 hr
          rw [hc, Option.some.injEq] at hc'
          exact absurd (hc' ▸ hparent) hne
      | step hc' _ h' =>
          rw [hc, Option.some.injEq] at hc'
          subst hc'
          exact ih h'

theorem Climbs.lt_size (h : p.Climbs i r) : i < p.size := by
  cases h with
  | root h => exact lt_size_of_isRoot h
  | step h _ _ => exact lt_size_iff.2 ⟨_, h⟩

theorem Climbs.rootOf_eq (hp : p.Forest) (h : p.Climbs i r) : p.rootOf i = r :=
  (hp.climbs_rootOf h.lt_size).unique h

theorem Forest.isRoot_rootOf (hp : p.Forest) (h : i < p.size) : p.isRoot (p.rootOf i) = true :=
  (hp.climbs_rootOf h).isRoot

theorem Forest.rootOf_lt (hp : p.Forest) (h : i < p.size) : p.rootOf i < p.size :=
  lt_size_of_isRoot (hp.isRoot_rootOf h)

theorem rootOf_of_isRoot (h : p.isRoot r = true) : p.rootOf r = r := by
  obtain ⟨c, hc, hparent⟩ := isRoot_iff.1 h
  rw [rootOf]
  cases p.cells.size with
  | zero => rfl
  | succ n => simp [climb, hc, hparent]

theorem rootOf_of_size_le (h : p.size ≤ i) : p.rootOf i = i := by
  have hnone : p.cells[i]? = none := Array.getElem?_eq_none h
  rw [rootOf]
  cases p.cells.size with
  | zero => rfl
  | succ n => simp [climb, hnone]

theorem Forest.rootOf_rootOf (hp : p.Forest) (i : Nat) :
    p.rootOf (p.rootOf i) = p.rootOf i := by
  by_cases h : i < p.size
  · exact rootOf_of_isRoot (hp.isRoot_rootOf h)
  · rw [rootOf_of_size_le (not_lt.1 h), rootOf_of_size_le (not_lt.1 h)]

theorem Forest.isRoot_iff_rootOf (hp : p.Forest) (h : r < p.size) :
    p.isRoot r = true ↔ p.rootOf r = r :=
  ⟨rootOf_of_isRoot, fun e => e ▸ hp.isRoot_rootOf h⟩

/-! ## Entities -/

/-- What an entity is, apart from its class. -/
def Cell.face (c : Cell) : Entity.Kind × String × Origin × Option Signature :=
  (c.kind, c.label, c.origin, c.signature)

/-- Two pools hold the same entities, whatever their classes and sets. -/
structure SameEntities (p q : Pool) : Prop where
  id_eq : q.id = p.id
  registers_eq : q.registers = p.registers
  face_eq : ∀ i : Nat, q.cells[i]?.map Cell.face = p.cells[i]?.map Cell.face

namespace SameEntities

theorem refl (p : Pool) : SameEntities p p := ⟨rfl, rfl, fun _ => rfl⟩

theorem symm (h : SameEntities p q) : SameEntities q p :=
  ⟨h.id_eq.symm, h.registers_eq.symm, fun i => (h.face_eq i).symm⟩

theorem trans {s : Pool} (h : SameEntities p q) (h' : SameEntities q s) : SameEntities p s :=
  ⟨h'.id_eq.trans h.id_eq, h'.registers_eq.trans h.registers_eq,
    fun i => (h'.face_eq i).trans (h.face_eq i)⟩

theorem lt_size_iff (h : SameEntities p q) : i < q.size ↔ i < p.size := by
  have hface := h.face_eq i
  rw [Pool.lt_size_iff, Pool.lt_size_iff]
  cases hp : p.cells[i]? <;> cases hq : q.cells[i]? <;> simp [hp, hq] at hface ⊢

theorem size_eq (h : SameEntities p q) : q.size = p.size := by
  have hle := h.lt_size_iff (i := p.size)
  have hge := h.lt_size_iff (i := q.size)
  omega

theorem kindOf_eq (h : SameEntities p q) (i : Nat) : q.kindOf i = p.kindOf i := by
  have hmap : ∀ s : Pool,
      s.kindOf i = ((s.cells[i]?.map Cell.face).map (·.1)).getD .unknownMemory := by
    intro s
    rw [Option.map_map]
    rfl
  rw [hmap, hmap, h.face_eq]

theorem signature?_eq (h : SameEntities p q) (i : Nat) : q.signature? i = p.signature? i := by
  have hmap : ∀ s : Pool, s.signature? i = (s.cells[i]?.map Cell.face).bind (·.2.2.2) := by
    intro s
    unfold signature?
    cases s.cells[i]? <;> rfl
  rw [hmap, hmap, h.face_eq]

theorem calleeSignature?_eq (h : SameEntities p q) (i : Nat) :
    q.calleeSignature? i = p.calleeSignature? i := by
  rw [calleeSignature?, calleeSignature?, h.kindOf_eq, h.signature?_eq]

theorem handle_eq (h : SameEntities p q) (i : Nat) : q.handle i = p.handle i := by
  rw [handle, handle, h.id_eq]

end SameEntities

/-! ## Changing sets -/

/-- A view of a cell that a change keeps, it keeps at every place of the pool. -/
theorem map_view {α : Type} {view : Cell → α} {change : Cell → Cell}
    (h : ∀ c, view (change c) = view c) (x : Option Cell) :
    (x.map change).map view = x.map view := by
  cases x with
  | none => rfl
  | some c => exact congrArg some (h c)

theorem climb_congr {xs ys : Array Cell}
    (h : ∀ i : Nat, ys[i]?.map Cell.parent = xs[i]?.map Cell.parent) :
    ∀ steps i, climb ys steps i = climb xs steps i := by
  intro steps
  induction steps with
  | zero => intro i; rfl
  | succ steps ih =>
      intro i
      have hi := h i
      cases hx : xs[i]? <;> cases hy : ys[i]? <;> simp only [hx, hy, Option.map_some,
        Option.map_none, Option.some.injEq, reduceCtorEq] at hi
      · simp [climb, hx, hy]
      · simp [climb, hx, hy, hi, ih]

/-- Classes depend on parents alone. -/
theorem rootOf_congr (h : ∀ i : Nat, q.cells[i]?.map Cell.parent = p.cells[i]?.map Cell.parent)
    (hsize : q.size = p.size) (i : Nat) : q.rootOf i = p.rootOf i := by
  have hcells : q.cells.size = p.cells.size := hsize
  rw [rootOf, rootOf, hcells, climb_congr h]

/-- Where an entity stands in the forest. -/
def Cell.place (c : Cell) : Nat × Nat := (c.parent, c.rank)

/-- Being a forest depends on parents and ranks alone. -/
theorem Forest.congr (hp : p.Forest)
    (h : ∀ i : Nat, q.cells[i]?.map Cell.place = p.cells[i]?.map Cell.place)
    (hsize : q.size = p.size) : q.Forest := by
  have hrank : ∀ i, q.rankOf i = p.rankOf i := by
    intro i
    have hmap :
        ∀ s : Pool, s.rankOf i = ((s.cells[i]?.map Cell.place).map Prod.snd).getD 0 := by
      intro s
      rw [Option.map_map]
      rfl
    rw [hmap, hmap, h]
  have hcell : ∀ {i : Nat} {c : Cell}, q.cells[i]? = some c →
      ∃ d, p.cells[i]? = some d ∧ d.place = c.place := by
    intro i c hc
    have hi := h i
    rw [hc, Option.map_some] at hi
    exact Option.map_eq_some_iff.1 hi.symm
  constructor
  · intro i c hc
    obtain ⟨d, hd, hplace⟩ := hcell hc
    simp only [Cell.place, Prod.mk.injEq] at hplace
    rw [hsize, ← hplace.1]
    exact hp.parent_lt hd
  · intro i c hc hne
    obtain ⟨d, hd, hplace⟩ := hcell hc
    simp only [Cell.place, Prod.mk.injEq] at hplace
    rw [hrank, ← hplace.1, ← hplace.2]
    exact hp.rank_lt hd (hplace.1 ▸ hne)

theorem cells_store {set : IndexSet} (j : Nat) : (p.store i set).cells[j]? =
    p.cells[j]?.map fun c => if i = j then { c with pointsTo := set } else c := by
  simp only [store, Array.getElem?_modify]
  by_cases h : i = j
  · simp [h]
  · simp [h]

@[simp] theorem size_store {set : IndexSet} : (p.store i set).size = p.size := by
  simp [store, size]

theorem SameEntities.store (p : Pool) (i : Nat) (set : IndexSet) :
    SameEntities p (p.store i set) := by
  refine ⟨rfl, rfl, fun j => ?_⟩
  rw [cells_store, map_view fun c => by split <;> rfl]

@[simp] theorem rootOf_store {set : IndexSet} (j : Nat) :
    (p.store i set).rootOf j = p.rootOf j := by
  refine rootOf_congr (fun j => ?_) size_store j
  rw [cells_store, map_view fun c => by split <;> rfl]

@[simp] theorem isRoot_store {set : IndexSet} (j : Nat) :
    (p.store i set).isRoot j = p.isRoot j := by
  rw [isRoot, isRoot, cells_store]
  cases p.cells[j]? with
  | none => rfl
  | some c => simp only [Option.map_some]; split <;> rfl

theorem Forest.store (hp : p.Forest) (i : Nat) (set : IndexSet) : (p.store i set).Forest := by
  refine hp.congr (fun j => ?_) size_store
  rw [cells_store, map_view fun c => by split <;> rfl]

theorem stored_store_self {set : IndexSet} (h : i < p.size) :
    (p.store i set).stored i = set := by
  obtain ⟨c, hc⟩ := lt_size_iff.1 h
  simp [stored, cells_store, hc]

theorem stored_store_of_ne {set : IndexSet} {j : Nat} (h : j ≠ i) :
    (p.store i set).stored j = p.stored j := by
  simp [stored, cells_store, Ne.symm h]

theorem mem_stored_grow {objects : List Nat} (h : i < p.size) {j o : Nat} :
    o ∈ (p.grow i objects).stored j ↔ o ∈ p.stored j ∨ j = i ∧ o ∈ objects := by
  rw [grow]
  by_cases hj : j = i
  · subst hj
    rw [stored_store_self h]
    simp
  · rw [stored_store_of_ne hj]
    simp [hj]

/-! ## Merging classes -/

/-- What a pool is after the class of `loser` was merged into that of `survivor`. -/
structure Joined (p q : Pool) (loser survivor : Nat) : Prop where
  forest : q.Forest
  same : SameEntities p q
  rootOf_eq : ∀ i, q.rootOf i = if p.rootOf i = loser then survivor else p.rootOf i
  mem_stored_survivor : ∀ o, o ∈ q.stored survivor ↔ o ∈ p.stored survivor ∨ o ∈ p.stored loser
  stored_loser : q.stored loser = .empty
  stored_other : ∀ i, i ≠ loser → i ≠ survivor → q.stored i = p.stored i

theorem cells_hang {l s : Nat} (hne : l ≠ s) (j : Nat) : (p.hang l s).cells[j]? =
    p.cells[j]?.map fun c =>
      if j = l then { c with parent := s, pointsTo := .empty }
      else if j = s then { c with pointsTo := c.pointsTo.union (p.stored l) }
      else c := by
  simp only [hang, Array.getElem?_modify]
  by_cases hs : s = j
  · subst hs
    rw [if_pos rfl, if_neg hne]
    simp [Ne.symm hne]
  · rw [if_neg hs]
    by_cases hl : l = j
    · subst hl
      simp
    · rw [if_neg hl]
      cases p.cells[j]? <;> simp [Ne.symm hl, Ne.symm hs]

theorem size_hang {l s : Nat} : (p.hang l s).size = p.size := by
  simp [hang, size]

theorem SameEntities.hang {l s : Nat} (hne : l ≠ s) : SameEntities p (p.hang l s) := by
  refine ⟨rfl, rfl, fun j => ?_⟩
  rw [cells_hang hne, map_view fun c => by split <;> [rfl; split <;> rfl]]

theorem rankOf_hang {l s : Nat} (hne : l ≠ s) (j : Nat) :
    (p.hang l s).rankOf j = p.rankOf j := by
  rw [rankOf, rankOf, cells_hang hne, map_view fun c => by split <;> [rfl; split <;> rfl]]

theorem Forest.hang {l s : Nat} (hp : p.Forest) (hs : s < p.size)
    (hrank : p.rankOf l < p.rankOf s) : (p.hang l s).Forest := by
  have hne : l ≠ s := by rintro rfl; omega
  constructor
  · intro j c hc
    rw [cells_hang hne] at hc
    obtain ⟨d, hd, rfl⟩ := Option.map_eq_some_iff.1 hc
    rw [size_hang]
    have hparent := hp.parent_lt hd
    split
    · exact hs
    · split <;> exact hparent
  · intro j c hc hparent
    rw [cells_hang hne] at hc
    obtain ⟨d, hd, rfl⟩ := Option.map_eq_some_iff.1 hc
    rw [rankOf_hang hne]
    by_cases hl : j = l
    · subst hl
      simpa [rankOf_eq hd] using hrank
    · rw [if_neg hl] at hparent ⊢
      split at hparent <;> simp only [*, if_true, if_false] <;> exact hp.rank_lt hd hparent

/-- The class of a hung root moves to its new root; every other entity keeps its root. -/
theorem climbs_hang {l s : Nat} (hl : p.isRoot l = true)
    (hs : p.isRoot s = true) (hne : l ≠ s) (h : p.Climbs i r) :
    (p.hang l s).Climbs i (if r = l then s else r) := by
  obtain ⟨cs, hcs, hcsp⟩ := isRoot_iff.1 hs
  obtain ⟨cl, hcl, hclp⟩ := isRoot_iff.1 hl
  have hroot : ∀ {j : Nat}, p.isRoot j = true → j ≠ l → (p.hang l s).isRoot j = true := by
    intro j hj hjl
    obtain ⟨c, hc, hcp⟩ := isRoot_iff.1 hj
    refine isRoot_iff.2 ⟨_, by rw [cells_hang hne, hc, Option.map_some], ?_⟩
    rw [if_neg hjl]
    split <;> exact hcp
  induction h with
  | @root r hr =>
      by_cases hrl : r = l
      · subst hrl
        rw [if_pos rfl]
        refine .step (c := { cl with parent := s, pointsTo := .empty }) ?_ (Ne.symm hne)
          (.root (hroot hs (Ne.symm hne)))
        rw [cells_hang hne, hcl, Option.map_some, if_pos rfl]
      · rw [if_neg hrl]
        exact .root (hroot hr hrl)
  | @step j r c hc hparent _ ih =>
      have hjl : j ≠ l := by
        rintro rfl
        rw [hcl, Option.some.injEq] at hc
        exact hparent (hc ▸ hclp)
      have hjs : j ≠ s := by
        rintro rfl
        rw [hcs, Option.some.injEq] at hc
        exact hparent (hc ▸ hcsp)
      refine .step (c := c) ?_ hparent ih
      rw [cells_hang hne, hc, Option.map_some, if_neg hjl, if_neg hjs]

theorem Forest.joined_hang {l s : Nat} (hp : p.Forest) (hl : p.isRoot l = true)
    (hs : p.isRoot s = true) (hrank : p.rankOf l < p.rankOf s) :
    p.Joined (p.hang l s) l s := by
  have hne : l ≠ s := by rintro rfl; omega
  have hforest := hp.hang (lt_size_of_isRoot hs) hrank
  obtain ⟨cs, hcs, -⟩ := isRoot_iff.1 hs
  obtain ⟨cl, hcl, -⟩ := isRoot_iff.1 hl
  refine ⟨hforest, .hang hne, fun i => ?_, fun o => ?_, ?_, fun i hil his => ?_⟩
  · by_cases hi : i < p.size
    · exact (climbs_hang hl hs hne (hp.climbs_rootOf hi)).rootOf_eq hforest
    · have hil : i ≠ l := by rintro rfl; exact hi (lt_size_of_isRoot hl)
      rw [rootOf_of_size_le (by rw [size_hang]; omega), rootOf_of_size_le (not_lt.1 hi),
        if_neg hil]
  · simp [stored, cells_hang hne, hcs, hcl, Ne.symm hne]
  · simp [stored, cells_hang hne, hcl]
  · have hid : (p.hang l s).cells[i]? = p.cells[i]? := by
      rw [cells_hang hne]
      cases p.cells[i]? <;> simp [hil, his]
    rw [stored, stored, hid]

/-- Raising the rank of a root changes nothing that shows. -/
def raise (p : Pool) (a : Nat) : Pool :=
  { p with cells := p.cells.modify a fun c => { c with rank := c.rank + 1 } }

theorem cells_raise (j : Nat) : (p.raise a).cells[j]? =
    p.cells[j]?.map fun c => if a = j then { c with rank := c.rank + 1 } else c := by
  simp only [raise, Array.getElem?_modify]
  by_cases h : a = j
  · simp [h]
  · simp [h]

theorem size_raise : (p.raise a).size = p.size := by
  simp [raise, size]

theorem rankOf_raise (ha : a < p.size) (j : Nat) :
    (p.raise a).rankOf j = if a = j then p.rankOf j + 1 else p.rankOf j := by
  rw [rankOf, rankOf, cells_raise]
  by_cases h : a = j
  · subst h
    obtain ⟨c, hc⟩ := lt_size_iff.1 ha
    simp [hc]
  · cases hj : p.cells[j]? <;> simp [h]

theorem SameEntities.raise : SameEntities p (p.raise a) := by
  refine ⟨rfl, rfl, fun j => ?_⟩
  rw [cells_raise, map_view fun c => by split <;> rfl]

theorem stored_raise (j : Nat) : (p.raise a).stored j = p.stored j := by
  rw [stored, stored, cells_raise, map_view fun c => by split <;> rfl]

theorem rootOf_raise (j : Nat) : (p.raise a).rootOf j = p.rootOf j := by
  refine rootOf_congr (fun j => ?_) size_raise j
  rw [cells_raise, map_view fun c => by split <;> rfl]

theorem isRoot_raise (j : Nat) : (p.raise a).isRoot j = p.isRoot j := by
  rw [isRoot, isRoot, cells_raise]
  cases p.cells[j]? with
  | none => rfl
  | some c => simp only [Option.map_some]; split <;> rfl

theorem Forest.raise (hp : p.Forest) (ha : p.isRoot a = true) : (p.raise a).Forest := by
  obtain ⟨ca, hca, hcap⟩ := isRoot_iff.1 ha
  constructor
  · intro j c hc
    rw [cells_raise] at hc
    obtain ⟨d, hd, rfl⟩ := Option.map_eq_some_iff.1 hc
    have hparent := hp.parent_lt hd
    rw [size_raise]
    split <;> exact hparent
  · intro j c hc hparent
    rw [cells_raise] at hc
    obtain ⟨d, hd, rfl⟩ := Option.map_eq_some_iff.1 hc
    rw [rankOf_raise (lt_size_of_isRoot ha)]
    by_cases hj : a = j
    · subst hj
      rw [hca, Option.some.injEq] at hd
      subst hd
      simp [hcap] at hparent
    · rw [if_neg hj] at hparent ⊢
      have := hp.rank_lt hd hparent
      split <;> omega

/-- **Merging two roots joins their classes**, and one of the two survives. -/
theorem Forest.merge (hp : p.Forest) (ha : p.isRoot a = true) (hb : p.isRoot b = true)
    (hne : a ≠ b) : ∃ loser survivor q, p.merge a b = (survivor, q) ∧
      (survivor = a ∧ loser = b ∨ survivor = b ∧ loser = a) ∧ p.Joined q loser survivor := by
  unfold Pool.merge
  by_cases hab : p.rankOf a < p.rankOf b
  · rw [if_pos hab]
    exact ⟨a, b, _, rfl, .inr ⟨rfl, rfl⟩, hp.joined_hang ha hb hab⟩
  rw [if_neg hab]
  by_cases hba : p.rankOf b < p.rankOf a
  · rw [if_pos hba]
    exact ⟨b, a, _, rfl, .inl ⟨rfl, rfl⟩, hp.joined_hang hb ha hba⟩
  rw [if_neg hba]
  have hlt := lt_size_of_isRoot ha
  have hrank : (p.raise a).rankOf b < (p.raise a).rankOf a := by
    rw [rankOf_raise hlt, rankOf_raise hlt, if_neg hne, if_pos rfl]
    omega
  have hjoin := (hp.raise ha).joined_hang (l := b) (s := a) (by rwa [isRoot_raise])
    (by rwa [isRoot_raise]) hrank
  refine ⟨b, a, (p.raise a).hang b a, rfl, .inl ⟨rfl, rfl⟩, hjoin.forest,
    SameEntities.raise.trans hjoin.same, fun i => ?_, fun o => ?_, hjoin.stored_loser,
    fun i hib hia => ?_⟩
  · rw [hjoin.rootOf_eq, rootOf_raise]
  · rw [hjoin.mem_stored_survivor, stored_raise, stored_raise]
  · rw [hjoin.stored_other i hib hia, stored_raise]

namespace Joined

variable {l s : Nat}

theorem isRoot_iff (h : p.Joined q l s) (hp : p.Forest) (hne : l ≠ s)
    (hs : p.isRoot s = true) : q.isRoot i = true ↔ p.isRoot i = true ∧ i ≠ l := by
  by_cases hi : i < p.size
  · rw [h.forest.isRoot_iff_rootOf (h.same.lt_size_iff.2 hi),
      hp.isRoot_iff_rootOf hi, h.rootOf_eq]
    constructor
    · intro e
      split at e
      · subst e
        exact ⟨rootOf_of_isRoot hs, Ne.symm hne⟩
      · rename_i hr
        exact ⟨e, fun hil => hr (hil ▸ e)⟩
    · rintro ⟨e, hil⟩
      rw [e, if_neg hil]
  · constructor
    · intro hr
      exact absurd (h.same.lt_size_iff.1 (lt_size_of_isRoot hr)) hi
    · rintro ⟨hr, -⟩
      exact absurd (lt_size_of_isRoot hr) hi

theorem roots_eq (h : p.Joined q l s) (hp : p.Forest) (hne : l ≠ s) (hs : p.isRoot s = true) :
    q.roots = p.roots.erase l := by
  ext r
  rw [mem_roots, Finset.mem_erase, mem_roots, h.isRoot_iff hp hne hs, and_comm]

end Joined

/-! ## Handles -/

/-- The pool issued the handle. -/
def Owns (p : Pool) (h : Handle) : Prop := h.pool = p.id ∧ h.index < p.size

theorem owns_handle (h : i < p.size) : p.Owns (p.handle i) := ⟨rfl, h⟩

theorem SameEntities.owns_iff (hpq : SameEntities p q) {h : Handle} : q.Owns h ↔ p.Owns h := by
  rw [Owns, Owns, hpq.id_eq, hpq.size_eq]

theorem Owns.resolve {h : Handle} (hh : p.Owns h) : p.resolve h = .ok h.index := by
  rw [Pool.resolve, if_neg (not_not.2 hh.1), if_neg (not_le.2 hh.2)]

theorem resolve_eq_ok {h : Handle} : p.resolve h = .ok i ↔ p.Owns h ∧ h = p.handle i := by
  constructor
  · intro hi
    unfold Pool.resolve at hi
    split at hi
    · exact absurd hi (by simp)
    · next hid =>
        split at hi
        · exact absurd hi (by simp)
        · next hlt =>
            obtain rfl := Except.ok.inj hi
            have hpool : h.pool = p.id := not_not.1 hid
            refine ⟨⟨hpool, not_le.1 hlt⟩, ?_⟩
            rw [handle, ← hpool]
  · rintro ⟨howns, rfl⟩
    exact howns.resolve

theorem resolveRoot_handle (h : p.isRoot r = true) : p.resolveRoot (p.handle r) = .ok r := by
  rw [resolveRoot, (owns_handle (lt_size_of_isRoot h)).resolve]
  show (if p.isRoot r = true then _ else _) = _
  rw [if_pos h]
  rfl

theorem resolveRoot_eq_ok {h : Handle} :
    p.resolveRoot h = .ok r ↔ p.isRoot r = true ∧ h = p.handle r := by
  constructor
  · intro hr
    simp only [resolveRoot, bind_eq_ok, resolve_eq_ok] at hr
    obtain ⟨i, ⟨-, rfl⟩, hr⟩ := hr
    split at hr
    · next hroot =>
        obtain rfl := pure_eq_ok.1 hr
        exact ⟨hroot, rfl⟩
    · exact absurd hr throw_ne_ok
  · rintro ⟨hroot, rfl⟩
    exact resolveRoot_handle hroot

theorem check_eq_ok {u : Unit} : p.check i = .ok u ↔ i < p.size := by
  simp only [check, bind_eq_ok, resolve_eq_ok]
  exact ⟨fun ⟨j, ⟨howns, _⟩, _⟩ => howns.2, fun hi => ⟨i, ⟨owns_handle hi, rfl⟩, rfl⟩⟩

theorem checkRoot_eq_ok {u : Unit} : p.checkRoot r = .ok u ↔ p.isRoot r = true := by
  simp only [checkRoot, bind_eq_ok, resolveRoot_eq_ok]
  constructor
  · rintro ⟨j, ⟨hroot, hj⟩, -⟩
    cases hj
    exact hroot
  · exact fun hroot => ⟨r, ⟨hroot, rfl⟩, rfl⟩

theorem check_of_lt (h : i < p.size) : p.check i = .ok () := check_eq_ok.2 h

theorem checkRoot_of_isRoot (h : p.isRoot r = true) : p.checkRoot r = .ok () :=
  checkRoot_eq_ok.2 h

theorem root_eq_ok {h : Handle} :
    p.root h = .ok r ↔ p.Owns h ∧ p.rootOf h.index = r ∧ r < p.size := by
  simp only [root, bind_eq_ok, resolve_eq_ok, checkIndex_eq_ok, pure_eq_ok]
  constructor
  · rintro ⟨i, ⟨howns, rfl⟩, -, hlt, rfl⟩
    exact ⟨howns, rfl, hlt⟩
  · rintro ⟨howns, rfl, hlt⟩
    exact ⟨h.index, ⟨howns, by rw [handle, ← howns.1]⟩, (), hlt, rfl⟩

theorem root_handle_eq_ok {i : Nat} :
    p.root (p.handle i) = .ok r ↔ i < p.size ∧ p.rootOf i = r ∧ r < p.size :=
  root_eq_ok.trans ⟨fun h => ⟨h.1.2, h.2⟩, fun h => ⟨owns_handle h.1, h.2⟩⟩

/-- In a forest every entity has a root. -/
theorem Forest.root_ok (hp : p.Forest) {h : Handle} (hh : p.Owns h) :
    p.root h = .ok (p.rootOf h.index) :=
  root_eq_ok.2 ⟨hh, rfl, hp.rootOf_lt hh.2⟩

theorem Forest.root_handle (hp : p.Forest) {i : Nat} (hi : i < p.size) :
    p.root (p.handle i) = .ok (p.rootOf i) :=
  hp.root_ok (owns_handle hi)

theorem Forest.checkClasses_ok (hp : p.Forest) : p.checkClasses = .ok () := by
  refine forM_eq_ok.2 fun i hi => ?_
  rw [hp.root_handle (List.mem_range.1 hi)]
  rfl

/-- Two different roots can always be merged. -/
theorem unify_handle (ha : p.isRoot a = true) (hb : p.isRoot b = true) (hne : a ≠ b) :
    p.unify (p.handle a) (p.handle b) = .ok (p.merge a b) := by
  rw [unify, resolveRoot_handle ha, resolveRoot_handle hb]
  show (if a = b then _ else _) = _
  rw [if_neg hne]
  rfl

end PointerChannels.Pool
