import PointerChannels.Proofs.Pool.Classes
import Mathlib.Data.Finset.Image
import Mathlib.Logic.Relation

/-!
# Histories of a pool

A history is a list of operations of a pool's interface, performed on a new pool.  Whatever the
history, the pool it leads to is a faithful record of it: the classes are those of the
equivalence that the merged pairs generate, the count and the listing of the classes agree with
it, and each operation changes the points-to sets of the classes it names and of no other.

## Main definitions

* `Pool.Action`, `Pool.perform` — the operations of the interface, as data.
* `Pool.Performed` — what an operation that succeeds does to a pool.
* `Pool.run` — a history.
* `Pool.Faithful` — the laws of a partition with points-to sets.
-/

namespace PointerChannels.Pool

/-! ## Operations as data -/

/-- An operation of a pool's interface. -/
inductive Action where
  /-- Add an entity. -/
  | create (kind : Entity.Kind) (label : String) (origin : Origin)
  /-- Add the register entity of a value. -/
  | createRegister (value : ValueId) (label : String)
  /-- Add a register that belongs to no value. -/
  | createDummy
  /-- Let a value share an entity as its register. -/
  | shareRegister (value : ValueId) (h : Handle)
  /-- Give a function entity its signature. -/
  | setSignature (h : Handle) (signature : Signature)
  /-- Look up a root and shorten the way to it. -/
  | find (h : Handle)
  /-- Merge the classes of two roots. -/
  | unify (a b : Handle)
  /-- Let the class of a root point to a memory object. -/
  | addPointee (root object : Handle)
  /-- Let the class of a root point to all that another points to. -/
  | addSuperset (superset subset : Handle)

/-- The pool after an operation that adds an entity.  A full pool
refuses and stays as it was. -/
def made (p : Pool) : Except (Failure Exhausted) (Nat × Pool) → Except Fault Pool
  | .ok (_, q) => .ok q
  | .error (.error _) => .ok p
  | .error (.fault cause) => .error cause

/-- The pool after an operation. -/
def perform (p : Pool) : Action → Except Fault Pool
  | .create kind label origin => p.made ((p.create kind label origin).mapError .error)
  | .createRegister value label => p.made (p.createRegister value label)
  | .createDummy => p.made (p.createDummy.mapError .error)
  | .shareRegister value h => p.shareRegister value h
  | .setSignature h signature => p.setSignature h signature
  | .find h => (p.findRoot h).map Prod.snd
  | .unify a b => (p.unify a b).map Prod.snd
  | .addPointee root object => (p.addPointee root object).map Prod.snd
  | .addSuperset superset subset => (p.addSuperset superset subset).map Prod.snd

/-- The pool after a list of operations. -/
def run (p : Pool) (actions : List Action) : Except Fault Pool := actions.foldlM perform p

/-- The pair that an operation merges. -/
def Action.union? : Action → Option (Nat × Nat)
  | .unify a b => some (a.index, b.index)
  | _ => none

/-- The pairs that a list of operations merges. -/
def unions (actions : List Action) : List (Nat × Nat) := actions.filterMap Action.union?

variable {p q : Pool} {a b e i o r x y : Nat}

/-! ## One operation -/

/-- What an operation does to the classes: it joins those of the pair it merges, or none. -/
inductive Effect (p q : Pool) : Option (Nat × Nat) → Prop
  /-- No classes are joined. -/
  | unmerged : Unmerged p q → Effect p q none
  /-- Two classes are joined. -/
  | joined {a b loser survivor : Nat} : p.isRoot a = true → p.isRoot b = true → a ≠ b →
      (survivor = a ∧ loser = b ∨ survivor = b ∧ loser = a) → p.Joined q loser survivor →
      q.rootCount = p.rootCount - 1 → Effect p q (some (a, b))

theorem made_eq_ok {x : Except (Failure Exhausted) (Nat × Pool)} (h : p.made x = .ok q) :
    q = p ∨ ∃ i, x = .ok (i, q) := by
  cases x with
  | ok made =>
      obtain ⟨i, q'⟩ := made
      exact .inr ⟨i, by rw [Except.ok.inj h]⟩
  | error failure =>
      cases failure with
      | fault cause => exact absurd h (by simp [made])
      | error cause => exact .inl (Except.ok.inj h).symm

theorem findRoot_eq_ok {h : Handle} (hq : p.findRoot h = .ok (r, q)) :
    p.Owns h ∧ (r, q) = p.find h.index := by
  simp only [findRoot, bind_eq_ok, resolve_eq_ok, pure_eq_ok] at hq
  obtain ⟨i, ⟨howns, rfl⟩, -, -, hq⟩ := hq
  exact ⟨howns, hq.symm⟩

theorem unify_eq_ok {g h : Handle} (hq : p.unify g h = .ok (r, q)) :
    p.isRoot g.index = true ∧ p.isRoot h.index = true ∧ g.index ≠ h.index ∧
      (r, q) = p.merge g.index h.index := by
  simp only [unify, bind_eq_ok, resolveRoot_eq_ok] at hq
  obtain ⟨a, ⟨ha, rfl⟩, b, ⟨hb, rfl⟩, hq⟩ := hq
  split at hq
  · exact absurd hq throw_ne_ok
  · next hne => exact ⟨ha, hb, hne, (pure_eq_ok.1 hq).symm⟩

theorem addPointee_eq_ok {g h : Handle} {new : Bool} (hq : p.addPointee g h = .ok (new, q)) :
    q = p ∨ p.isRoot g.index = true ∧ p.IsObject h.index ∧ q = p.grow g.index [h.index] := by
  simp only [addPointee, bind_eq_ok, resolveRoot_eq_ok] at hq
  obtain ⟨r, ⟨hr, rfl⟩, o, ho, hq⟩ := hq
  obtain ⟨hobject, rfl⟩ := resolveObject_eq_ok ho
  split at hq
  · exact .inl (Prod.mk.inj (pure_eq_ok.1 hq)).2.symm
  · exact .inr ⟨hr, hobject, (Prod.mk.inj (pure_eq_ok.1 hq)).2.symm⟩

theorem addSuperset_eq_ok {g h : Handle} {new : Bool} (hq : p.addSuperset g h = .ok (new, q)) :
    q = p ∨ p.isRoot g.index = true ∧ q = p.grow g.index (p.stored h.index).toList := by
  simp only [addSuperset, bind_eq_ok, resolveRoot_eq_ok] at hq
  obtain ⟨x, ⟨hx, rfl⟩, y, ⟨-, rfl⟩, hq⟩ := hq
  split at hq
  · exact .inl (Prod.mk.inj (pure_eq_ok.1 hq)).2.symm
  · exact .inr ⟨hx, (Prod.mk.inj (pure_eq_ok.1 hq)).2.symm⟩

theorem register?_of_createRegister {v : ValueId} {label : String}
    (h : p.createRegister v label = .ok (i, q)) : p.register? v = none := by
  unfold createRegister at h
  split at h
  · exact absurd h (by simp)
  · next hnone => simpa using hnone

theorem register?_of_shareRegister {v : ValueId} {h : Handle}
    (hq : p.shareRegister v h = .ok q) : p.register? v = none := by
  simp only [shareRegister, bind_eq_ok] at hq
  obtain ⟨i, -, hq⟩ := hq
  split at hq
  · exact absurd hq throw_ne_ok
  · next hnone => simpa using hnone

/-- What an operation that succeeds does to a pool, and the pair that it merges. -/
inductive Performed (p : Pool) : Option (Nat × Nat) → Pool → Prop
  /-- Nothing. -/
  | same : Performed p none p
  /-- It adds an entity. -/
  | pushed (kind : Entity.Kind) (label : String) (origin : Origin) :
      Performed p none (p.push kind label origin)
  /-- It adds the register of a value that had none. -/
  | registered (v : ValueId) (label : String) : p.register? v = none →
      Performed p none ((p.push .register label (.value v)).bindRegister v p.size)
  /-- It gives an entity to a value that had no register. -/
  | shared (v : ValueId) (i : Nat) : p.register? v = none → i < p.size →
      Performed p none (p.bindRegister v i)
  /-- It signs an entity. -/
  | signed (i : Nat) (signature : Signature) : Performed p none (p.sign i signature)
  /-- It shortens the way to a root. -/
  | found (i : Nat) : i < p.size → Performed p none (p.find i).2
  /-- It adds objects to the set of a root. -/
  | grown (r : Nat) (objects : List Nat) : p.isRoot r = true →
      (∀ o ∈ objects, p.IsObject o ∨ ∃ i, o ∈ p.stored i) → Performed p none (p.grow r objects)
  /-- It merges the classes of two roots. -/
  | merged (a b : Nat) : p.isRoot a = true → p.isRoot b = true → a ≠ b →
      Performed p (some (a, b)) (p.merge a b).2

theorem performed_of_perform {action : Action} (h : p.perform action = .ok q) :
    Performed p action.union? q := by
  cases action with
  | create kind label origin =>
      rcases made_eq_ok h with rfl | ⟨i, hi⟩
      · exact .same
      · obtain ⟨-, rfl⟩ := create_eq_ok (mapError_eq_ok.1 hi)
        exact .pushed kind label origin
  | createDummy =>
      rcases made_eq_ok h with rfl | ⟨i, hi⟩
      · exact .same
      · obtain ⟨-, rfl⟩ := create_eq_ok (mapError_eq_ok.1 hi)
        exact .pushed .register "dummy" .synthetic
  | createRegister value label =>
      rcases made_eq_ok h with rfl | ⟨i, hi⟩
      · exact .same
      · have hnone := register?_of_createRegister hi
        obtain ⟨-, rfl⟩ := createRegister_eq_ok hi
        exact .registered value label hnone
  | shareRegister value g =>
      have hnone := register?_of_shareRegister h
      obtain ⟨hlt, rfl⟩ := shareRegister_eq_ok h
      exact .shared value g.index hnone hlt
  | setSignature g signature =>
      obtain rfl := setSignature_eq_ok h
      exact .signed g.index signature
  | find g =>
      obtain ⟨⟨r, q'⟩, hfind, rfl⟩ := map_eq_ok.1 h
      obtain ⟨howns, hq⟩ := findRoot_eq_ok hfind
      obtain rfl := (Prod.mk.inj hq).2
      exact .found g.index howns.2
  | unify g g' =>
      obtain ⟨⟨r, q'⟩, hunify, rfl⟩ := map_eq_ok.1 h
      obtain ⟨ha, hb, hne, hq⟩ := unify_eq_ok hunify
      obtain rfl := (Prod.mk.inj hq).2
      exact .merged g.index g'.index ha hb hne
  | addPointee g g' =>
      obtain ⟨⟨new, q'⟩, hadd, rfl⟩ := map_eq_ok.1 h
      rcases addPointee_eq_ok hadd with rfl | ⟨hr, ho, rfl⟩
      · exact .same
      · exact .grown g.index [g'.index] hr fun o ho' => .inl (List.mem_singleton.1 ho' ▸ ho)
  | addSuperset g g' =>
      obtain ⟨⟨new, q'⟩, hadd, rfl⟩ := map_eq_ok.1 h
      rcases addSuperset_eq_ok hadd with rfl | ⟨hr, rfl⟩
      · exact .same
      · exact .grown g.index _ hr fun o ho => .inr ⟨g'.index, IndexSet.mem_toList.1 ho⟩

theorem Intact.performed (hp : p.Intact) {pair : Option (Nat × Nat)} (h : Performed p pair q) :
    q.Intact ∧ Effect p q pair := by
  cases h with
  | same => exact ⟨hp, .unmerged (.refl hp.forest)⟩
  | pushed kind label origin => exact ⟨hp.push, .unmerged hp.forest.unmerged_push⟩
  | registered v label _ =>
      exact ⟨hp.push.bindRegister v,
        .unmerged (hp.forest.unmerged_push.trans hp.push.forest.unmerged_bindRegister)⟩
  | shared v i _ _ => exact ⟨hp.bindRegister v, .unmerged hp.forest.unmerged_bindRegister⟩
  | signed i signature => exact ⟨hp.sign, .unmerged hp.forest.unmerged_sign⟩
  | found i hi =>
      have hshort := hp.forest.shortened_find hi
      exact ⟨hp.shortened hshort, .unmerged (hshort.unmerged hp.forest)⟩
  | grown r objects hr hobjects =>
      have hobjects : ∀ o ∈ objects, p.IsObject o := by
        intro o ho
        rcases hobjects o ho with ho | ⟨i, ho⟩
        · exact ho
        · exact hp.objects ho
      exact ⟨hp.grow hr hobjects, .unmerged (hp.forest.unmerged_grow r objects)⟩
  | merged a b ha hb hne =>
      obtain ⟨loser, survivor, q, hmerge, hpair, hjoined⟩ := hp.forest.merge ha hb hne
      have hcount := rootCount_merge p a b
      rw [hmerge] at hcount ⊢
      refine ⟨?_, .joined ha hb hne hpair hjoined hcount⟩
      rcases hpair with ⟨rfl, rfl⟩ | ⟨rfl, rfl⟩
      · exact hp.joined hjoined ha (Ne.symm hne)
      · exact hp.joined hjoined hb hne

/-- Every operation keeps a pool intact, and joins the pair it merges. -/
theorem Intact.perform (hp : p.Intact) {action : Action} (h : p.perform action = .ok q) :
    q.Intact ∧ Effect p q action.union? := hp.performed (performed_of_perform h)

/-- The roots are counted. -/
def Counted (p : Pool) : Prop := p.rootCount = p.roots.card

theorem Counted.effect {pair : Option (Nat × Nat)} (hp : p.Forest) (h : p.Counted)
    (hq : Effect p q pair) : q.Counted := by
  rw [Counted] at h ⊢
  cases hq with
  | unmerged hq =>
      have hcount := hq.count_eq
      have hcard := hq.card_roots hp
      omega
  | joined ha hb hne hpair hq hcount =>
      rcases hpair with ⟨rfl, rfl⟩ | ⟨rfl, rfl⟩
      · rw [hcount, h, hq.roots_eq hp (Ne.symm hne) ha,
          Finset.card_erase_of_mem (mem_roots.2 hb)]
      · rw [hcount, h, hq.roots_eq hp hne hb, Finset.card_erase_of_mem (mem_roots.2 ha)]

theorem counted_new (id : Nat) (capacity : Option Nat) : (Pool.new id capacity).Counted := by
  simp only [Counted]
  rfl

/-! ## Histories -/

/-- Entities that the pairs of a list connect. -/
abbrev Connected (unions : List (Nat × Nat)) : Nat → Nat → Prop :=
  Relation.EqvGen fun x y => (x, y) ∈ unions

theorem Connected.append {u v : List (Nat × Nat)} (h : Connected u x y) :
    Connected (u ++ v) x y :=
  h.mono fun _ _ hmem => List.mem_append_left v hmem

/-- The classes are those that the pairs generate. -/
def Partitioned (p : Pool) (unions : List (Nat × Nat)) : Prop :=
  ∀ x y, p.rootOf x = p.rootOf y ↔ Connected unions x y

/-- Merging a pair adds it to the generators. -/
theorem Partitioned.joined {u : List (Nat × Nat)} {loser survivor : Nat} (hp : p.Forest)
    (h : p.Partitioned u) (ha : p.isRoot a = true) (hb : p.isRoot b = true)
    (hpair : survivor = a ∧ loser = b ∨ survivor = b ∧ loser = a)
    (hq : p.Joined q loser survivor) : q.Partitioned (u ++ [(a, b)]) := by
  have hroots : p.rootOf survivor = survivor ∧ p.rootOf loser = loser := by
    rcases hpair with ⟨rfl, rfl⟩ | ⟨rfl, rfl⟩
    · exact ⟨rootOf_of_isRoot ha, rootOf_of_isRoot hb⟩
    · exact ⟨rootOf_of_isRoot hb, rootOf_of_isRoot ha⟩
  have hab : Connected (u ++ [(a, b)]) a b := .rel a b (by simp)
  have hjoin : Connected (u ++ [(a, b)]) loser survivor := by
    rcases hpair with ⟨rfl, rfl⟩ | ⟨rfl, rfl⟩
    · exact .symm _ _ hab
    · exact hab
  -- an entity is connected with its new root, through its old one
  have hroot : ∀ z, Connected (u ++ [(a, b)]) z (q.rootOf z) := by
    intro z
    have hz : Connected (u ++ [(a, b)]) z (p.rootOf z) :=
      ((h z (p.rootOf z)).1 (hp.rootOf_rootOf z).symm).append
    rw [hq.rootOf_eq]
    split
    · next hzl => exact .trans _ _ _ (hzl ▸ hz) hjoin
    · exact hz
  intro x y
  constructor
  · intro hxy
    exact .trans _ _ _ (hroot x) (hxy ▸ .symm _ _ (hroot y))
  · intro hxy
    induction hxy with
    | rel x y hmem =>
        rcases List.mem_append.1 hmem with hmem | hmem
        · rw [hq.rootOf_eq, hq.rootOf_eq, (h x y).2 (.rel x y hmem)]
        · obtain ⟨rfl, rfl⟩ := Prod.mk.inj (List.mem_singleton.1 hmem)
          rcases hpair with ⟨rfl, rfl⟩ | ⟨rfl, rfl⟩ <;> simp [hq.rootOf_eq, hroots]
    | refl x => rfl
    | symm x y _ ih => exact ih.symm
    | trans x y z _ _ ih ih' => exact ih.trans ih'

theorem Partitioned.effect {u : List (Nat × Nat)} {pair : Option (Nat × Nat)} (hp : p.Forest)
    (h : p.Partitioned u) (hq : Effect p q pair) : q.Partitioned (u ++ pair.toList) := by
  cases hq with
  | unmerged hq =>
      intro x y
      rw [hq.rootOf_eq, hq.rootOf_eq, Option.toList_none, List.append_nil]
      exact h x y
  | joined ha hb _ hpair hq _ => exact h.joined hp ha hb hpair hq

theorem partitioned_new (id : Nat) (capacity : Option Nat) :
    (Pool.new id capacity).Partitioned [] := by
  have hbare : (⟨id, #[], [], capacity, 0⟩ : Pool).Forest :=
    ⟨fun hc => absurd hc (by simp), fun hc => absurd hc (by simp)⟩
  have halone : ∀ i, (Pool.new id capacity).rootOf i = i := by
    intro i
    rw [Pool.new, hbare.push.rootOf_push, hbare.rootOf_push]
    exact rootOf_of_size_le (Nat.zero_le i)
  intro x y
  rw [halone, halone]
  constructor
  · rintro rfl
    exact .refl x
  · intro h
    induction h with
    | rel x y hmem => exact absurd hmem List.not_mem_nil
    | refl x => rfl
    | symm x y _ ih => exact ih.symm
    | trans x y z _ _ ih ih' => exact ih.trans ih'

/-- A history keeps a new pool intact and its roots counted, and the classes are
generated by the merged pairs. -/
theorem run_new {id : Nat} {capacity : Option Nat} {actions : List Action}
    (h : (Pool.new id capacity).run actions = .ok p) :
    p.Intact ∧ p.Counted ∧ p.Partitioned (unions actions) := by
  refine foldlM_prefix (I := fun done q => q.Intact ∧ q.Counted ∧ q.Partitioned (unions done))
    (k := []) (fun done s action t hs ht => ?_)
    ⟨.new id capacity, counted_new id capacity, partitioned_new id capacity⟩ h
  obtain ⟨hintact, hcounted, hpartitioned⟩ := hs
  obtain ⟨hintact', heffect⟩ := hintact.perform ht
  refine ⟨hintact', hcounted.effect hintact.forest heffect, ?_⟩
  have hlast : [action].filterMap Action.union? = action.union?.toList := by
    cases hpair : action.union? <;> simp [hpair]
  rw [unions, List.filterMap_append, hlast]
  exact hpartitioned.effect hintact.forest heffect

/-! ## Listing the classes -/

theorem mem_indices : e ∈ p.indices ↔ e < p.size := List.mem_range

theorem nodup_indices (p : Pool) : p.indices.Nodup := List.nodup_range

theorem mem_members : e ∈ p.members r ↔ e < p.size ∧ p.rootOf e = r := by
  simp [members, mem_indices]

theorem mem_classes {c : Nat × List Nat} :
    c ∈ p.classes ↔ p.isRoot c.1 = true ∧ c.2 = p.members c.1 := by
  simp only [classes, List.mem_map, List.mem_filter, mem_indices]
  constructor
  · rintro ⟨r, ⟨-, hr⟩, rfl⟩
    exact ⟨hr, rfl⟩
  · rintro ⟨hr, hc⟩
    exact ⟨c.1, ⟨lt_size_of_isRoot hr, hr⟩, by rw [← hc]⟩

theorem length_classes (p : Pool) : p.classes.length = p.roots.card := by
  have hroots : p.roots = (p.indices.filter p.isRoot).toFinset := by
    ext r
    rw [mem_roots, List.mem_toFinset, List.mem_filter, mem_indices]
    exact ⟨fun h => ⟨lt_size_of_isRoot h, h⟩, And.right⟩
  rw [hroots, List.toFinset_card_of_nodup (p.nodup_indices.filter _), classes, List.length_map]

/-- There are as many roots as classes. -/
theorem Forest.card_image_rootOf (hp : p.Forest) :
    ((Finset.range p.size).image p.rootOf).card = p.roots.card := by
  congr 1
  ext r
  rw [Finset.mem_image, mem_roots]
  constructor
  · rintro ⟨e, he, rfl⟩
    exact hp.isRoot_rootOf (Finset.mem_range.1 he)
  · intro hr
    exact ⟨r, Finset.mem_range.2 (lt_size_of_isRoot hr), rootOf_of_isRoot hr⟩

/-- The classes list every entity once. -/
theorem Forest.perm_classes (hp : p.Forest) : (p.classes.flatMap Prod.snd).Perm p.indices := by
  have hnodup : (p.classes.flatMap Prod.snd).Nodup := by
    rw [List.nodup_flatMap]
    constructor
    · intro c hc
      rw [(mem_classes.1 hc).2]
      exact p.nodup_indices.filter _
    · rw [classes, List.pairwise_map]
      refine (p.nodup_indices.filter _).imp fun {r r'} hne => ?_
      intro e he he'
      exact hne ((mem_members.1 he).2.symm.trans (mem_members.1 he').2)
  refine (List.perm_ext_iff_of_nodup hnodup p.nodup_indices).2 fun e => ?_
  rw [List.mem_flatMap]
  constructor
  · rintro ⟨c, hc, he⟩
    rw [(mem_classes.1 hc).2] at he
    exact mem_indices.2 (mem_members.1 he).1
  · intro he
    have hlt := mem_indices.1 he
    exact ⟨(p.rootOf e, p.members (p.rootOf e)), mem_classes.2 ⟨hp.isRoot_rootOf hlt, rfl⟩,
      mem_members.2 ⟨hlt, rfl⟩⟩

/-! ## What operations do to points-to sets -/

theorem pointsTo_of_isRoot (h : p.isRoot r = true) : p.pointsTo r = p.stored r := by
  rw [pointsTo, rootOf_of_isRoot h]

theorem Joined.rootOf_eq_survivor_iff {loser survivor : Nat} (h : p.Joined q loser survivor) :
    q.rootOf e = survivor ↔ p.rootOf e = survivor ∨ p.rootOf e = loser := by
  rw [h.rootOf_eq]
  split
  · next hl => simp [hl]
  · next hl => simp [hl]

theorem Joined.pointsTo_eq {loser survivor : Nat} (h : p.Joined q loser survivor) (e : Nat) :
    q.pointsTo e = if q.rootOf e = survivor then (p.stored survivor).union (p.stored loser)
      else p.pointsTo e := by
  rw [pointsTo]
  by_cases he : q.rootOf e = survivor
  · rw [if_pos he, he]
    exact IndexSet.ext_mem fun o => by rw [h.mem_stored_survivor, IndexSet.mem_union]
  · rw [if_neg he]
    rw [h.rootOf_eq] at he ⊢
    split at he
    · exact absurd rfl he
    · next hl => rw [if_neg hl, h.stored_other _ hl he, pointsTo]

/-- Merging two classes gives every member of the merged class the union of their sets. -/
theorem Forest.unify (hp : p.Forest) (ha : p.isRoot a = true) (hb : p.isRoot b = true)
    (hne : a ≠ b) : ∃ survivor q, p.unify (p.handle a) (p.handle b) = .ok (survivor, q) ∧
      ∀ e, (q.rootOf e = survivor ↔ p.rootOf e = a ∨ p.rootOf e = b) ∧
        q.pointsTo e = if q.rootOf e = survivor then (p.pointsTo a).union (p.pointsTo b)
          else p.pointsTo e := by
  obtain ⟨loser, survivor, q, hmerge, hpair, hjoined⟩ := hp.merge ha hb hne
  refine ⟨survivor, q, by rw [unify_handle ha hb hne, hmerge], fun e => ?_⟩
  rw [hjoined.pointsTo_eq, pointsTo_of_isRoot ha, pointsTo_of_isRoot hb]
  rcases hpair with ⟨rfl, rfl⟩ | ⟨rfl, rfl⟩
  · exact ⟨hjoined.rootOf_eq_survivor_iff, rfl⟩
  · have hcomm : (p.stored survivor).union (p.stored loser) =
        (p.stored loser).union (p.stored survivor) :=
      IndexSet.ext_mem fun o => by simp [or_comm]
    exact ⟨hjoined.rootOf_eq_survivor_iff.trans or_comm, by rw [hcomm]⟩

theorem pointsTo_grow (hr : p.isRoot r = true) (objects : List Nat) (e : Nat) :
    (p.grow r objects).pointsTo e =
      if p.rootOf e = r then (p.pointsTo r).insertAll objects else p.pointsTo e := by
  have hroot : (p.grow r objects).rootOf e = p.rootOf e := rootOf_store e
  rw [pointsTo, hroot, pointsTo_of_isRoot hr]
  split
  · next he => rw [he, grow, stored_store_self (lt_size_of_isRoot hr)]
  · next he => rw [grow, stored_store_of_ne he, pointsTo]

/-- What an operation that adds pointees to the class of a root does: it tells whether they
were new, and no other class changes. -/
structure Widened (p : Pool) (r : Nat) (objects : List Nat) (new : Bool) (q : Pool) :
    Prop where
  rootOf_eq : ∀ e, q.rootOf e = p.rootOf e
  pointsTo_eq : ∀ e, q.pointsTo e =
    if p.rootOf e = r then (p.pointsTo r).insertAll objects else p.pointsTo e
  new_iff : new = true ↔ q.pointsTo r ≠ p.pointsTo r

theorem widened_of_subset {objects : List Nat} (hr : p.isRoot r = true)
    (h : ∀ o ∈ objects, o ∈ p.stored r) : Widened p r objects false p where
  rootOf_eq _ := rfl
  pointsTo_eq e := by
    have hset : (p.pointsTo r).insertAll objects = p.pointsTo r := by
      refine IndexSet.ext_mem fun o => ?_
      rw [IndexSet.mem_insertAll, pointsTo_of_isRoot hr]
      exact ⟨fun ho => ho.elim (fun ho => ho) (h o), .inl⟩
    split
    · next he => rw [hset, pointsTo, he, pointsTo_of_isRoot hr]
    · rfl
  new_iff := by simp

theorem widened_grow {objects : List Nat} (hr : p.isRoot r = true) (ho : o ∈ objects)
    (hnew : ¬ o ∈ p.stored r) : Widened p r objects true (p.grow r objects) where
  rootOf_eq := rootOf_store
  pointsTo_eq := pointsTo_grow hr objects
  new_iff := by
    refine ⟨fun _ hsame => hnew ?_, fun _ => rfl⟩
    rw [← pointsTo_of_isRoot hr, ← hsame, pointsTo_grow hr, if_pos (rootOf_of_isRoot hr)]
    exact IndexSet.mem_insertAll.2 (.inr ho)

theorem exists_widened_addPointee (hr : p.isRoot r = true) (ho : p.IsObject o) :
    ∃ new q, p.addPointee (p.handle r) (p.handle o) = .ok (new, q) ∧
      Widened p r [o] new q := by
  have hrun : p.addPointee (p.handle r) (p.handle o) =
      if o ∈ p.stored r then .ok (false, p) else .ok (true, p.grow r [o]) := by
    rw [addPointee, resolveRoot_handle hr, (owns_handle ho.1).resolveObject ho]
    rfl
  by_cases hmem : o ∈ p.stored r
  · rw [hrun, if_pos hmem]
    exact ⟨false, p, rfl, widened_of_subset hr (by simpa using hmem)⟩
  · rw [hrun, if_neg hmem]
    exact ⟨true, p.grow r [o], rfl, widened_grow hr (by simp) hmem⟩

theorem exists_widened_addSuperset (hx : p.isRoot x = true) (hy : p.isRoot y = true) :
    ∃ new q, p.addSuperset (p.handle x) (p.handle y) = .ok (new, q) ∧
      Widened p x (p.pointsTo y).toList new q := by
  have hrun : p.addSuperset (p.handle x) (p.handle y) =
      if (p.stored y).subset (p.stored x) = true then .ok (false, p)
      else .ok (true, p.grow x (p.stored y).toList) := by
    rw [addSuperset, resolveRoot_handle hx, resolveRoot_handle hy]
    rfl
  rw [pointsTo_of_isRoot hy]
  by_cases hsub : (p.stored y).subset (p.stored x) = true
  · rw [hrun, if_pos hsub]
    exact ⟨false, p, rfl, widened_of_subset hx (IndexSet.subset_iff.1 hsub)⟩
  · rw [hrun, if_neg hsub]
    rw [IndexSet.subset_iff] at hsub
    push Not at hsub
    obtain ⟨o, ho, hnew⟩ := hsub
    exact ⟨true, p.grow x (p.stored y).toList, rfl, widened_grow hx ho hnew⟩

/-! ## The laws -/

/-- A pool is a faithful record of the pairs that were merged. -/
structure Faithful (p : Pool) (unions : List (Nat × Nat)) : Prop where
  /-- Entities are in one class exactly when merged pairs connect them. -/
  rootOf_eq_iff : ∀ x y, p.rootOf x = p.rootOf y ↔
    Relation.EqvGen (fun a b => (a, b) ∈ unions) x y
  /-- Looking up a root answers it, and shows nowhere. -/
  findRoot : ∀ h, p.Owns h → ∃ q, p.findRoot h = .ok (p.rootOf h.index, q) ∧
    ∀ e, q.rootOf e = p.rootOf e ∧ q.pointsTo e = p.pointsTo e
  /-- The count of roots is the number of classes. -/
  rootCount_eq : p.rootCount = ((Finset.range p.size).image p.rootOf).card
  /-- The listing has one entry for each class. -/
  length_classes : p.classes.length = p.rootCount
  /-- The listing has every entity exactly once. -/
  perm_classes : (p.classes.flatMap Prod.snd).Perm (List.range p.size)
  /-- An entity is listed under its own root. -/
  rootOf_of_mem : ∀ c ∈ p.classes, ∀ e ∈ c.2, p.rootOf e = c.1
  /-- The members of a class point to the same. -/
  pointsTo_eq : ∀ x y, p.rootOf x = p.rootOf y → p.pointsTo x = p.pointsTo y
  /-- Merging two classes unites their sets, and changes no other. -/
  unify : ∀ a b, p.isRoot a = true → p.isRoot b = true → a ≠ b →
    ∃ survivor q, p.unify (p.handle a) (p.handle b) = .ok (survivor, q) ∧
      ∀ e, (q.rootOf e = survivor ↔ p.rootOf e = a ∨ p.rootOf e = b) ∧
        q.pointsTo e = if q.rootOf e = survivor then (p.pointsTo a).union (p.pointsTo b)
          else p.pointsTo e
  /-- One class takes over the set of another, and no other changes; the answer tells
  whether the set grew. -/
  addSuperset : ∀ x y, p.isRoot x = true → p.isRoot y = true →
    ∃ new q, p.addSuperset (p.handle x) (p.handle y) = .ok (new, q) ∧
      (∀ e, q.rootOf e = p.rootOf e ∧ q.pointsTo e =
        if p.rootOf e = x then (p.pointsTo x).union (p.pointsTo y) else p.pointsTo e) ∧
      (new = true ↔ q.pointsTo x ≠ p.pointsTo x)
  /-- One class gets a pointee, and no other changes; the answer tells whether it was new. -/
  addPointee : ∀ r o, p.isRoot r = true → p.IsObject o →
    ∃ new q, p.addPointee (p.handle r) (p.handle o) = .ok (new, q) ∧
      (∀ e, q.rootOf e = p.rootOf e ∧ q.pointsTo e =
        if p.rootOf e = r then (p.pointsTo r).insert o else p.pointsTo e) ∧
      (new = true ↔ q.pointsTo r ≠ p.pointsTo r)

theorem Intact.faithful {u : List (Nat × Nat)} (hp : p.Intact) (hcounted : p.Counted)
    (hu : p.Partitioned u) : p.Faithful u where
  rootOf_eq_iff := hu
  findRoot h hh := by
    have hshort := hp.forest.shortened_find hh.2
    refine ⟨(p.find h.index).2, ?_, fun e => ?_⟩
    · have hcheck : checkIndex p.cells (p.rootOf h.index) = .ok () :=
        checkIndex_of_lt (hp.forest.rootOf_lt hh.2)
      simp only [Pool.findRoot, hh.resolve, hcheck, bind, Except.bind]
      rfl
    · have hroot := hshort.rootOf_eq hp.forest e
      exact ⟨hroot, by rw [pointsTo, hroot, hshort.stored_eq, pointsTo]⟩
  rootCount_eq := by rw [hp.forest.card_image_rootOf, hcounted]
  length_classes := by rw [Pool.length_classes, hcounted]
  perm_classes := hp.forest.perm_classes
  rootOf_of_mem c hc e he := by
    rw [(mem_classes.1 hc).2] at he
    exact (mem_members.1 he).2
  pointsTo_eq x y h := by rw [pointsTo, pointsTo, h]
  unify a b ha hb hne := hp.forest.unify ha hb hne
  addSuperset x y hx hy := by
    obtain ⟨new, q, hq, hwide⟩ := exists_widened_addSuperset hx hy
    exact ⟨new, q, hq, fun e => ⟨hwide.rootOf_eq e, hwide.pointsTo_eq e⟩, hwide.new_iff⟩
  addPointee r o hr ho := by
    obtain ⟨new, q, hq, hwide⟩ := exists_widened_addPointee hr ho
    exact ⟨new, q, hq, fun e => ⟨hwide.rootOf_eq e, hwide.pointsTo_eq e⟩, hwide.new_iff⟩

/-- **A pool is a faithful partition with points-to sets**, whatever operations were performed
on it since it was made. -/
theorem faithful_of_run {id : Nat} {capacity : Option Nat} {actions : List Action}
    (h : (Pool.new id capacity).run actions = .ok p) : p.Faithful (unions actions) := by
  obtain ⟨hintact, hcounted, hpartitioned⟩ := run_new h
  exact hintact.faithful hcounted hpartitioned

/-- Two registers get a pointee each and are merged, a third takes over what they point to, and
the pool is then full. -/
def sharedActions : List Action :=
  [.createRegister 0 "x", .createRegister 1 "y", .create .allocaObject "a" .synthetic,
    .create .heapObject "b" .synthetic, .addPointee ⟨0, 2⟩ ⟨0, 4⟩, .addPointee ⟨0, 3⟩ ⟨0, 5⟩,
    .unify ⟨0, 2⟩ ⟨0, 3⟩, .find ⟨0, 3⟩, .createDummy, .addSuperset ⟨0, 6⟩ ⟨0, 2⟩,
    .shareRegister 2 ⟨0, 6⟩, .createDummy]

theorem faithful_of_run_sharedActions : ∃ p, (Pool.new 0 (some 7)).run sharedActions = .ok p ∧
    p.Faithful [(2, 3)] ∧ p.rootCount = 6 ∧ p.pointsTo 6 = .ofList [4, 5] := by
  have hrun : ∃ p, (Pool.new 0 (some 7)).run sharedActions = .ok p ∧ p.rootCount = 6 ∧
      p.pointsTo 6 = .ofList [4, 5] := ⟨_, rfl, rfl, rfl⟩
  obtain ⟨p, hp, hcount, hset⟩ := hrun
  exact ⟨p, hp, faithful_of_run hp, hcount, hset⟩

end PointerChannels.Pool
