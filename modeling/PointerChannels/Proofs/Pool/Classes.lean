import PointerChannels.Proofs.Fold
import PointerChannels.Proofs.Solution
import Mathlib.Order.Interval.Finset.Nat

/-!
# What the operations of a pool do to its classes

Merging is the one operation that joins classes.  Every other operation leaves the roots of
earlier entities as they were, and an entity that it adds is a class of its own.  Shortening
the way to a root is among them: it rewrites parents, but only to hang an entity below the root
that it climbs to anyway.

## Main definitions

* `Pool.Unmerged` — what a pool is after an operation that joins no classes.
* `Pool.Intact` — what every operation keeps.
-/

namespace PointerChannels.Pool

variable {p q : Pool} {i j r a b o : Nat} {kind : Entity.Kind} {label : String}
  {origin : Origin} {signature : Signature}

/-- What a pool is after an operation that joins no classes: earlier entities keep their roots,
and each entity added since is a class of its own. -/
structure Unmerged (p q : Pool) : Prop where
  forest : q.Forest
  size_le : p.size ≤ q.size
  rootOf_eq : ∀ i, q.rootOf i = p.rootOf i
  count_eq : q.rootCount + p.size = p.rootCount + q.size

theorem Unmerged.refl (hp : p.Forest) : Unmerged p p := ⟨hp, le_rfl, fun _ => rfl, rfl⟩

theorem Unmerged.trans {s : Pool} (h : Unmerged p q) (h' : Unmerged q s) : Unmerged p s where
  forest := h'.forest
  size_le := h.size_le.trans h'.size_le
  rootOf_eq i := (h'.rootOf_eq i).trans (h.rootOf_eq i)
  count_eq := by
    have hq := h.count_eq
    have hs := h'.count_eq
    omega

theorem Forest.mem_roots_iff (hp : p.Forest) : r ∈ p.roots ↔ r < p.size ∧ p.rootOf r = r := by
  rw [mem_roots]
  constructor
  · intro h
    exact ⟨lt_size_of_isRoot h, rootOf_of_isRoot h⟩
  · rintro ⟨hlt, h⟩
    exact (hp.isRoot_iff_rootOf hlt).2 h

/-- The roots that were not there before are the entities that were not there before. -/
theorem Unmerged.card_roots (h : Unmerged p q) (hp : p.Forest) :
    q.roots.card + p.size = p.roots.card + q.size := by
  have hroots : q.roots = p.roots ∪ Finset.Ico p.size q.size := by
    ext r
    rw [Finset.mem_union, Finset.mem_Ico, h.forest.mem_roots_iff,
      hp.mem_roots_iff, h.rootOf_eq]
    have hle := h.size_le
    by_cases hr : r < p.size
    · simp only [hr, true_and, not_le.2 hr, false_and, or_false, and_iff_right_iff_imp]
      omega
    · rw [rootOf_of_size_le (not_lt.1 hr)]
      omega
  have hdisjoint : Disjoint p.roots (Finset.Ico p.size q.size) := by
    refine Finset.disjoint_left.2 fun r hr hr' => ?_
    have := (hp.mem_roots_iff.1 hr).1
    have := (Finset.mem_Ico.1 hr').1
    omega
  have hle := h.size_le
  rw [hroots, Finset.card_union_of_disjoint hdisjoint, Nat.card_Ico]
  omega

/-- What every operation keeps: parents form a forest, and what a class points to is a memory
object and is stored at its root. -/
structure Intact (p : Pool) : Prop where
  forest : p.Forest
  objects : ∀ {i o : Nat}, o ∈ p.stored i → p.IsObject o
  rooted : ∀ {i o : Nat}, o ∈ p.stored i → p.isRoot i = true

theorem Unmerged.isRoot (h : Unmerged p q) (hr : p.isRoot r = true) : q.isRoot r = true := by
  have hlt := lt_size_of_isRoot hr
  rw [h.forest.isRoot_iff_rootOf (hlt.trans_le h.size_le), h.rootOf_eq]
  exact rootOf_of_isRoot hr

theorem Intact.unmerged (h : Unmerged p q)
    (hstored : ∀ {i o : Nat}, o ∈ q.stored i → q.IsObject o ∧ p.isRoot i = true) :
    q.Intact where
  forest := h.forest
  objects ho := (hstored ho).1
  rooted ho := h.isRoot (hstored ho).2

/-! ## Adding an entity -/

theorem cells_push (j : Nat) : (p.push kind label origin).cells[j]? =
    if j = p.size then some (.fresh kind label origin p.size) else p.cells[j]? := by
  rw [push, Array.getElem?_push]
  rfl

theorem size_push : (p.push kind label origin).size = p.size + 1 := Array.size_push _

/-- A view that does not tell a new entity from none sees no change. -/
theorem view_push {α : Type} (view : Option Cell → α)
    (h : view (some (.fresh kind label origin p.size)) = view none) (j : Nat) :
    view (p.push kind label origin).cells[j]? = view p.cells[j]? := by
  rw [cells_push]
  split
  · next hj =>
      have hnone : p.cells[j]? = none := Array.getElem?_eq_none hj.ge
      rw [h, hnone]
  · rfl

theorem signature?_push : (p.push kind label origin).signature? o = p.signature? o :=
  view_push (fun cell => cell.bind (·.signature)) rfl o

theorem stored_push : (p.push kind label origin).stored j = p.stored j :=
  view_push (fun cell => (cell.map Cell.pointsTo).getD .empty) rfl j

theorem rankOf_push : (p.push kind label origin).rankOf j = p.rankOf j :=
  view_push (fun cell => (cell.map Cell.rank).getD 0) rfl j

theorem kindOf_push (h : o < p.size) : (p.push kind label origin).kindOf o = p.kindOf o := by
  rw [kindOf, kindOf, cells_push, if_neg h.ne]

theorem IsObject.push (h : p.IsObject o) : (p.push kind label origin).IsObject o := by
  rw [IsObject, size_push, kindOf_push h.1]
  exact ⟨Nat.lt_succ_of_lt h.1, h.2⟩

theorem Forest.push (hp : p.Forest) : (p.push kind label origin).Forest := by
  constructor
  · intro j c hc
    rw [cells_push] at hc
    rw [size_push]
    split at hc
    · obtain rfl := Option.some_injective _ hc
      exact Nat.lt_succ_self _
    · exact Nat.lt_succ_of_lt (hp.parent_lt hc)
  · intro j c hc hne
    rw [cells_push] at hc
    rw [rankOf_push]
    split at hc
    · next hj =>
        obtain rfl := Option.some_injective _ hc
        exact absurd hj.symm hne
    · exact hp.rank_lt hc hne

theorem isRoot_push_size : (p.push kind label origin).isRoot p.size = true :=
  isRoot_iff.2 ⟨_, by rw [cells_push, if_pos rfl], rfl⟩

theorem isRoot_push (h : p.isRoot r = true) : (p.push kind label origin).isRoot r = true := by
  obtain ⟨c, hc, hparent⟩ := isRoot_iff.1 h
  refine isRoot_iff.2 ⟨c, ?_, hparent⟩
  rw [cells_push, if_neg (lt_size_of_isRoot h).ne, hc]

theorem climbs_push (h : p.Climbs i r) : (p.push kind label origin).Climbs i r := by
  induction h with
  | root hr => exact .root (isRoot_push hr)
  | step hc hne _ ih =>
      refine .step ?_ hne ih
      rw [cells_push, if_neg (lt_size_iff.2 ⟨_, hc⟩).ne, hc]

theorem Forest.rootOf_push (hp : p.Forest) (i : Nat) :
    (p.push kind label origin).rootOf i = p.rootOf i := by
  rcases lt_trichotomy i p.size with h | h | h
  · exact (climbs_push (hp.climbs_rootOf h)).rootOf_eq hp.push
  · subst h
    rw [rootOf_of_isRoot isRoot_push_size, rootOf_of_size_le le_rfl]
  · rw [rootOf_of_size_le (by rw [size_push]; omega), rootOf_of_size_le h.le]

theorem Forest.unmerged_push (hp : p.Forest) : Unmerged p (p.push kind label origin) where
  forest := hp.push
  size_le := by rw [size_push]; exact Nat.le_succ _
  rootOf_eq := hp.rootOf_push
  count_eq := by
    show p.rootCount + 1 + p.size = p.rootCount + (p.push kind label origin).size
    rw [size_push]
    omega

theorem Intact.push (hp : p.Intact) : (p.push kind label origin).Intact := by
  refine .unmerged hp.forest.unmerged_push fun ho => ?_
  rw [stored_push] at ho
  exact ⟨(hp.objects ho).push, hp.rooted ho⟩

theorem Intact.new (id : Nat) (capacity : Option Nat) : (Pool.new id capacity).Intact := by
  have hbare : (⟨id, #[], [], capacity, 0⟩ : Pool).Intact := by
    refine ⟨⟨fun hc => absurd hc (by simp), fun hc => absurd hc (by simp)⟩, fun ho => ?_,
      fun ho => ?_⟩ <;> exact absurd ho (by simp [stored])
  exact hbare.push.push

/-! ## Naming registers and giving signatures -/

theorem Forest.unmerged_bindRegister (hp : p.Forest) {v : ValueId} :
    Unmerged p (p.bindRegister v i) :=
  ⟨⟨hp.parent_lt, hp.rank_lt⟩, le_rfl, fun _ => rfl, rfl⟩

theorem Intact.bindRegister (hp : p.Intact) (v : ValueId) : (p.bindRegister v i).Intact :=
  .unmerged hp.forest.unmerged_bindRegister fun ho => ⟨hp.objects ho, hp.rooted ho⟩

/-- A pool in which a function entity has a signature. -/
def sign (p : Pool) (o : Nat) (signature : Signature) : Pool :=
  { p with cells := p.cells.modify o ({ · with signature := some signature }) }

theorem cells_sign (j : Nat) : (p.sign o signature).cells[j]? =
    p.cells[j]?.map fun c => if o = j then { c with signature := some signature } else c := by
  simp only [sign, Array.getElem?_modify]
  by_cases h : o = j <;> simp [h]

theorem size_sign : (p.sign o signature).size = p.size := by
  simp [sign, size]

theorem stored_sign : (p.sign o signature).stored j = p.stored j := by
  rw [stored, stored, cells_sign, map_view fun c => by split <;> rfl]

theorem kindOf_sign : (p.sign o signature).kindOf j = p.kindOf j := by
  rw [kindOf, kindOf, cells_sign, map_view fun c => by split <;> rfl]

theorem Forest.unmerged_sign (hp : p.Forest) : Unmerged p (p.sign o signature) where
  forest :=
    hp.congr (fun j => by rw [cells_sign, map_view fun c => by split <;> rfl]) size_sign
  size_le := size_sign.ge
  rootOf_eq :=
    rootOf_congr (fun j => by rw [cells_sign, map_view fun c => by split <;> rfl]) size_sign
  count_eq := by rw [size_sign]; rfl

theorem Intact.sign (hp : p.Intact) : (p.sign o signature).Intact := by
  refine .unmerged hp.forest.unmerged_sign fun ho => ?_
  rw [stored_sign] at ho
  rw [IsObject, size_sign, kindOf_sign]
  exact ⟨hp.objects ho, hp.rooted ho⟩

/-! ## Shortening the way to a root -/

/-- Hang an entity below another. -/
def redirect (p : Pool) (i r : Nat) : Pool :=
  { p with cells := p.cells.modify i ({ · with parent := r }) }

theorem cells_redirect (j : Nat) : (p.redirect i r).cells[j]? =
    p.cells[j]?.map fun c => if i = j then { c with parent := r } else c := by
  simp only [redirect, Array.getElem?_modify]
  by_cases h : i = j <;> simp [h]

theorem size_redirect : (p.redirect i r).size = p.size := by
  simp [redirect, size]

theorem rankOf_redirect : (p.redirect i r).rankOf j = p.rankOf j := by
  rw [rankOf, rankOf, cells_redirect, map_view fun c => by split <;> rfl]

theorem stored_redirect : (p.redirect i r).stored j = p.stored j := by
  rw [stored, stored, cells_redirect, map_view fun c => by split <;> rfl]

theorem SameEntities.redirect : SameEntities p (p.redirect i r) := by
  refine ⟨rfl, rfl, fun j => ?_⟩
  rw [cells_redirect, map_view fun c => by split <;> rfl]

theorem Climbs.rankOf_le (hp : p.Forest) (h : p.Climbs i r) : p.rankOf i ≤ p.rankOf r := by
  induction h with
  | root _ => exact le_rfl
  | step hc hne _ ih =>
      have hlt := hp.rank_lt hc hne
      rw [← rankOf_eq hc] at hlt
      omega

/-- Rank rises on the way to a root. -/
theorem Climbs.rankOf_lt (hp : p.Forest) (h : p.Climbs i r) (hne : i ≠ r) :
    p.rankOf i < p.rankOf r := by
  cases h with
  | root _ => exact absurd rfl hne
  | step hc hparent h =>
      have hlt := hp.rank_lt hc hparent
      rw [← rankOf_eq hc] at hlt
      have hle := h.rankOf_le hp
      omega

theorem Forest.redirect (hp : p.Forest) (h : p.Climbs i r) (hne : i ≠ r) :
    (p.redirect i r).Forest := by
  constructor
  · intro j c hc
    rw [cells_redirect] at hc
    obtain ⟨d, hd, rfl⟩ := Option.map_eq_some_iff.1 hc
    rw [size_redirect]
    have hparent := hp.parent_lt hd
    split
    · exact lt_size_of_isRoot h.isRoot
    · exact hparent
  · intro j c hc hparent
    rw [cells_redirect] at hc
    obtain ⟨d, hd, rfl⟩ := Option.map_eq_some_iff.1 hc
    rw [rankOf_redirect]
    by_cases hj : i = j
    · subst hj
      simpa [rankOf_eq hd] using h.rankOf_lt hp hne
    · rw [if_neg hj] at hparent ⊢
      exact hp.rank_lt hd hparent

/-- An entity hung below the root that it climbs to changes no climb. -/
theorem climbs_redirect (h : p.Climbs i r) (hne : i ≠ r) (hj : p.Climbs j a) :
    (p.redirect i r).Climbs j a := by
  have hroot : ∀ {s : Nat}, p.isRoot s = true → (p.redirect i r).isRoot s = true := by
    intro s hs
    have hsi : i ≠ s := by
      rintro rfl
      exact hne ((Climbs.root hs).unique h)
    obtain ⟨c, hc, hparent⟩ := isRoot_iff.1 hs
    refine isRoot_iff.2 ⟨c, ?_, hparent⟩
    rw [cells_redirect, hc, Option.map_some, if_neg hsi]
  induction hj with
  | root hs => exact .root (hroot hs)
  | @step j s c hc hparent hclimb ih =>
      by_cases hij : i = j
      · subst hij
        have hsr : s = r := (Climbs.step hc hparent hclimb).unique h
        subst hsr
        refine .step (c := { c with parent := s }) ?_ (Ne.symm hne) (.root (hroot h.isRoot))
        rw [cells_redirect, hc, Option.map_some, if_pos rfl]
      · refine .step (c := c) ?_ hparent ih
        rw [cells_redirect, hc, Option.map_some, if_neg hij]

/-- Two pools differ at most in which entities hang below which; every
climb ends where it did. -/
structure Shortened (p q : Pool) : Prop where
  forest : q.Forest
  same : SameEntities p q
  climbs : ∀ {i r}, p.Climbs i r → q.Climbs i r
  stored_eq : ∀ i, q.stored i = p.stored i
  rootCount_eq : q.rootCount = p.rootCount

theorem Shortened.refl (hp : p.Forest) : Shortened p p :=
  ⟨hp, .refl p, fun h => h, fun _ => rfl, rfl⟩

theorem Shortened.trans {s : Pool} (h : Shortened p q) (h' : Shortened q s) :
    Shortened p s where
  forest := h'.forest
  same := h.same.trans h'.same
  climbs hc := h'.climbs (h.climbs hc)
  stored_eq i := (h'.stored_eq i).trans (h.stored_eq i)
  rootCount_eq := h'.rootCount_eq.trans h.rootCount_eq

theorem Forest.shortened_redirect (hp : p.Forest) (h : p.Climbs i r) (hne : i ≠ r) :
    Shortened p (p.redirect i r) :=
  ⟨hp.redirect h hne, .redirect, climbs_redirect h hne, fun _ => stored_redirect, rfl⟩

/-- Compressing a path is redirecting its entities one by one. -/
theorem Forest.shortened_compress (hp : p.Forest) (steps : Nat) (h : p.Climbs i r) :
    Shortened p { p with cells := compress r steps i p.cells } := by
  induction steps generalizing p i with
  | zero => exact .refl hp
  | succ steps ih =>
      obtain ⟨c, hc⟩ := lt_size_iff.1 h.lt_size
      simp only [compress, hc]
      by_cases hir : i = r
      · rw [if_pos hir]
        exact .refl hp
      · rw [if_neg hir]
        have hredirect := hp.shortened_redirect h hir
        cases h with
        | root _ => exact absurd rfl hir
        | step hc' _ hparent =>
            obtain rfl := Option.some_injective _ (hc.symm.trans hc')
            exact hredirect.trans (ih hredirect.forest (hredirect.climbs hparent))

theorem Shortened.rootOf_eq (h : Shortened p q) (hp : p.Forest) (i : Nat) :
    q.rootOf i = p.rootOf i := by
  by_cases hi : i < p.size
  · exact (h.climbs (hp.climbs_rootOf hi)).rootOf_eq h.forest
  · rw [rootOf_of_size_le (not_lt.1 hi), rootOf_of_size_le (by rw [h.same.size_eq]; omega)]

theorem Forest.shortened_find (hp : p.Forest) (hi : i < p.size) : Shortened p (p.find i).2 :=
  hp.shortened_compress p.cells.size (hp.climbs_rootOf hi)

theorem Shortened.unmerged (h : Shortened p q) (hp : p.Forest) : Unmerged p q where
  forest := h.forest
  size_le := h.same.size_eq.ge
  rootOf_eq := h.rootOf_eq hp
  count_eq := by rw [h.same.size_eq, h.rootCount_eq]

theorem Intact.shortened (hp : p.Intact) (h : Shortened p q) : q.Intact := by
  refine .unmerged (h.unmerged hp.forest) fun ho => ?_
  rw [h.stored_eq] at ho
  exact ⟨h.same.isObject_iff.2 (hp.objects ho), hp.rooted ho⟩

/-! ## Adding pointees and merging -/

theorem Forest.unmerged_grow (hp : p.Forest) (r : Nat) (objects : List Nat) :
    Unmerged p (p.grow r objects) where
  forest := hp.store r _
  size_le := (SameEntities.store p r _).size_eq.ge
  rootOf_eq := rootOf_store
  count_eq := by
    rw [grow, size_store]
    rfl

theorem Intact.grow (hp : p.Intact) (hr : p.isRoot r = true) {objects : List Nat}
    (hobjects : ∀ o ∈ objects, p.IsObject o) : (p.grow r objects).Intact := by
  refine .unmerged (hp.forest.unmerged_grow r objects) fun ho => ?_
  have hsame : SameEntities p (p.grow r objects) := .store p r _
  rw [hsame.isObject_iff]
  rcases (mem_stored_grow (lt_size_of_isRoot hr)).1 ho with ho | ⟨hi, ho⟩
  · exact ⟨hp.objects ho, hp.rooted ho⟩
  · exact ⟨hobjects _ ho, hi ▸ hr⟩

theorem rootCount_merge (p : Pool) (a b : Nat) :
    (p.merge a b).2.rootCount = p.rootCount - 1 := by
  unfold Pool.merge
  split
  · rfl
  · split <;> rfl

/-- A pool in which a root was merged into another is intact. -/
theorem Intact.joined {loser survivor : Nat} (hp : p.Intact) (h : p.Joined q loser survivor)
    (hsurvivor : p.isRoot survivor = true) (hne : loser ≠ survivor) : q.Intact := by
  have hstored : ∀ {i o : Nat}, o ∈ q.stored i → p.IsObject o ∧ p.isRoot i = true ∧
      i ≠ loser := by
    intro i o ho
    by_cases hl : i = loser
    · rw [hl, h.stored_loser] at ho
      exact absurd ho (IndexSet.not_mem_empty o)
    by_cases hs : i = survivor
    · subst hs
      rcases (h.mem_stored_survivor o).1 ho with ho | ho
      · exact ⟨hp.objects ho, hsurvivor, hl⟩
      · exact ⟨hp.objects ho, hsurvivor, hl⟩
    · rw [h.stored_other i hl hs] at ho
      exact ⟨hp.objects ho, hp.rooted ho, hl⟩
  refine ⟨h.forest, fun ho => ?_, fun ho => ?_⟩
  · exact h.same.isObject_iff.2 (hstored ho).1
  · exact (h.isRoot_iff hp.forest hne hsurvivor).2 (hstored ho).2

/-! ## Operations that succeeded -/

theorem resolveObject_eq_ok {h : Handle} (ho : p.resolveObject h = .ok o) :
    p.IsObject o ∧ h = p.handle o := by
  simp only [resolveObject, bind_eq_ok, resolve_eq_ok] at ho
  obtain ⟨i, ⟨howns, rfl⟩, ho⟩ := ho
  split at ho
  · next hobject =>
      obtain rfl := pure_eq_ok.1 ho
      exact ⟨⟨howns.2, hobject⟩, rfl⟩
  · exact absurd ho throw_ne_ok

theorem create_eq_ok (h : p.create kind label origin = .ok (i, q)) :
    i = p.size ∧ q = p.push kind label origin := by
  unfold Pool.create at h
  split at h
  · split at h
    · exact absurd h (by simp)
    · obtain ⟨rfl, rfl⟩ := Prod.mk.inj (Except.ok.inj h)
      exact ⟨rfl, rfl⟩
  · obtain ⟨rfl, rfl⟩ := Prod.mk.inj (Except.ok.inj h)
    exact ⟨rfl, rfl⟩

theorem createRegister_eq_ok {v : ValueId} (h : p.createRegister v label = .ok (i, q)) :
    i = p.size ∧ q = (p.push .register label (.value v)).bindRegister v p.size := by
  unfold Pool.createRegister at h
  split at h
  · exact absurd h (by simp)
  · split at h
    · exact absurd h (by simp)
    · next hcreate =>
        obtain ⟨rfl, rfl⟩ := create_eq_ok hcreate
        obtain ⟨rfl, rfl⟩ := Prod.mk.inj (Except.ok.inj h)
        exact ⟨rfl, rfl⟩

theorem shareRegister_eq_ok {v : ValueId} {h : Handle} (hq : p.shareRegister v h = .ok q) :
    h.index < p.size ∧ q = p.bindRegister v h.index := by
  simp only [shareRegister, bind_eq_ok, resolve_eq_ok] at hq
  obtain ⟨i, ⟨howns, rfl⟩, hq⟩ := hq
  split at hq
  · exact absurd hq throw_ne_ok
  · exact ⟨howns.2, (pure_eq_ok.1 hq).symm⟩

theorem setSignature_eq_ok {h : Handle} (hq : p.setSignature h signature = .ok q) :
    q = p.sign h.index signature := by
  simp only [setSignature, bind_eq_ok, resolve_eq_ok] at hq
  obtain ⟨i, ⟨-, rfl⟩, hq⟩ := hq
  split at hq
  · exact absurd hq throw_ne_ok
  · exact (pure_eq_ok.1 hq).symm

end PointerChannels.Pool
