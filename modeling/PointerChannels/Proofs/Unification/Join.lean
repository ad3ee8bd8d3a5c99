import PointerChannels.Unification
import PointerChannels.Proofs.Fold
import PointerChannels.Proofs.Solution

/-!
# Merging classes and their pointee classes

Two views of a state are all that the soundness of unification needs: which entities are
in one class (`Same`), and which class a class points to (`Points`).  Both only grow.  A
merge may leave a class with two pointee classes; `join` goes on to merge those, so it
keeps `Points`, while one merge alone does not.  Every merge leaves a root less, which
bounds how far a join can go.
-/

namespace PointerChannels.Unification.State

variable {s t u : State} {p : Pool}

/-! ## The view of a state -/

/-- Two entities are in one class. -/
def Same (s : State) (i j : Nat) : Prop := s.pool.rootOf i = s.pool.rootOf j

/-- The class of the first entity points to the class of the second. -/
def Points (s : State) (i j : Nat) : Prop :=
  ∃ h, s.pointeeOf (s.pool.rootOf i) = some h ∧ s.Same h.index j

theorem Points.same {i j k : Nat} (h : s.Points i j) (hjk : s.Same j k) : s.Points i k := by
  obtain ⟨x, hx, hxj⟩ := h
  exact ⟨x, hx, hxj.trans hjk⟩

/-- A class points to one class. -/
theorem Points.unique {i j k : Nat} (h : s.Points i j) (h' : s.Points i k) : s.Same j k := by
  obtain ⟨x, hx, hxj⟩ := h
  obtain ⟨y, hy, hyk⟩ := h'
  rw [hx, Option.some.injEq] at hy
  subst hy
  exact hxj.symm.trans hyk

/-- Numbers and handles are in range, and nothing is written out yet. -/
structure Sound (s : State) : Prop where
  closed : s.pool.Closed
  forest : s.pool.Forest
  nowhere : ∀ r, s.pool.stored r = .empty
  pointee_size : s.pointee.size = s.pool.size
  owns : ∀ {r : Nat} {h : Handle}, s.pointeeOf r = some h → s.pool.Owns h
  calls : ∀ {c : Nat} {callee : Handle} {site : CallSite}, s.calls[c]? = some (callee, site) →
    s.pool.Owns callee ∧ site.Over s.pool

/-- Every entity has a place for its pointee class. -/
theorem Sound.check_pointee (hs : s.Sound) {i : Nat} (hi : i < s.pool.size) :
    checkIndex s.pointee i = .ok () :=
  checkIndex_of_lt (hs.pointee_size.symm ▸ hi)

/-- A later state: classes have been merged and pointee classes have been adopted. -/
structure Later (s t : State) : Prop where
  entities : Pool.SameEntities s.pool t.pool
  same : ∀ i j, s.Same i j → t.Same i j
  points : ∀ i j, s.Points i j → t.Points i j
  calls : ∀ (c : Nat) x, s.calls[c]? = some x → t.calls[c]? = some x
  bound : ∀ x ∈ s.bound, x ∈ t.bound
  exposed : ∀ o, o ∈ s.exposed → o ∈ t.exposed

theorem Later.refl (s : State) : Later s s :=
  ⟨.refl _, fun _ _ h => h, fun _ _ h => h, fun _ _ h => h, fun _ h => h, fun _ h => h⟩

theorem Later.trans (h : Later s t) (h' : Later t u) : Later s u where
  entities := h.entities.trans h'.entities
  same i j hs := h'.same i j (h.same i j hs)
  points i j hs := h'.points i j (h.points i j hs)
  calls c x hc := h'.calls c x (h.calls c x hc)
  bound x hx := h'.bound x (h.bound x hx)
  exposed o ho := h'.exposed o (h.exposed o ho)

/-- A later state in which no call was noted, bound or exposed. -/
structure Joins (s t : State) : Prop extends Later s t where
  calls_eq : t.calls = s.calls
  bound_eq : t.bound = s.bound
  exposed_eq : t.exposed = s.exposed

theorem Joins.refl (s : State) : Joins s s := ⟨.refl s, rfl, rfl, rfl⟩

theorem Joins.trans (h : Joins s t) (h' : Joins t u) : Joins s u :=
  ⟨h.toLater.trans h'.toLater, h'.calls_eq.trans h.calls_eq, h'.bound_eq.trans h.bound_eq,
    h'.exposed_eq.trans h.exposed_eq⟩

/-! ## Merging two roots -/

theorem pointeeOf_modify {pointee : Array (Option Handle)} {r : Nat} (hr : r < pointee.size)
    (x : Option Handle) (i : Nat) :
    ((pointee.modify r fun _ => x)[i]?).join = if i = r then x else (pointee[i]?).join := by
  rw [Array.getElem?_modify]
  by_cases h : r = i
  · subst h
    simp [Array.getElem?_eq_getElem hr]
  · rw [if_neg h, if_neg (Ne.symm h)]

/-- What a state is after two roots were merged: one survives and adopts the first
pointee class there is. -/
structure Merged (s : State) (a b : Nat) (t : State) (loser survivor : Nat) : Prop where
  survives : survivor = a ∧ loser = b ∨ survivor = b ∧ loser = a
  joined : s.pool.Joined t.pool loser survivor
  pointee_size : t.pointee.size = s.pointee.size
  pointeeOf_eq : ∀ i, t.pointeeOf i =
    if i = survivor then (s.pointeeOf a).or (s.pointeeOf b) else s.pointeeOf i
  calls_eq : t.calls = s.calls
  bound_eq : t.bound = s.bound
  exposed_eq : t.exposed = s.exposed

section MergeRoots

variable {a b loser survivor : Nat} (hs : s.Sound) (ha : s.pool.isRoot a = true)
  (hb : s.pool.isRoot b = true) (hne : a ≠ b)

include hs ha hb hne

/-- **Two different roots can always be merged.** -/
theorem Sound.mergeRoots : ∃ t loser survivor, s.mergeRoots a b = .ok t ∧
    Merged s a b t loser survivor := by
  obtain ⟨loser, survivor, q, hmerge, hcases, hjoined⟩ := hs.forest.merge ha hb hne
  have ha' := hs.check_pointee (Pool.lt_size_of_isRoot ha)
  have hb' := hs.check_pointee (Pool.lt_size_of_isRoot hb)
  have hcheck : checkIndex s.pointee survivor = .ok () := by
    rcases hcases with ⟨rfl, -⟩ | ⟨rfl, -⟩
    · exact ha'
    · exact hb'
  have hok : s.mergeRoots a b = .ok { s with
      pool := q
      pointee := s.pointee.modify survivor fun _ => (s.pointeeOf a).or (s.pointeeOf b)
      stats := { s.stats with unions := s.stats.unions + 1 } } := by
    simp only [State.mergeRoots, ha', hb', Pool.unify_handle ha hb hne, hmerge, hcheck, bind,
      Except.bind]
    rfl
  exact ⟨_, loser, survivor, hok, hcases, hjoined, Array.size_modify,
    fun i => pointeeOf_modify (checkIndex_eq_ok.1 hcheck) _ i, rfl, rfl, rfl⟩

variable (h : Merged s a b t loser survivor)

include h

omit ha hb hne in
theorem Merged.sound : t.Sound := by
  constructor
  case closed => exact h.joined.same.closed hs.closed
  case forest => exact h.joined.forest
  case nowhere =>
    intro r
    by_cases hl : r = loser
    · rw [hl, h.joined.stored_loser]
    by_cases hr : r = survivor
    · refine IndexSet.ext_mem fun o => ?_
      rw [hr, h.joined.mem_stored_survivor, hs.nowhere, hs.nowhere, or_self]
    · rw [h.joined.stored_other r hl hr, hs.nowhere]
  case pointee_size => rw [h.joined.same.size_eq, ← hs.pointee_size, h.pointee_size]
  case owns =>
    intro r x hr
    rw [h.joined.same.owns_iff]
    rw [h.pointeeOf_eq] at hr
    split at hr
    · rcases Option.or_eq_some_iff.1 hr with hr | ⟨-, hr⟩
      · exact hs.owns hr
      · exact hs.owns hr
    · exact hs.owns hr
  case calls =>
    intro c callee site hc
    obtain ⟨hcallee, hsite⟩ := hs.calls (h.calls_eq ▸ hc)
    exact ⟨h.joined.same.owns_iff.2 hcallee, h.joined.same.over_site hsite⟩

omit hs in
/-- Both roots now stand under the survivor. -/
theorem Merged.rootOf_eq {i : Nat} (hi : s.pool.rootOf i = a ∨ s.pool.rootOf i = b) :
    t.pool.rootOf i = survivor := by
  rw [h.joined.rootOf_eq]
  rcases h.survives with ⟨rfl, rfl⟩ | ⟨rfl, rfl⟩
  · rcases hi with hi | hi
    · rw [hi, if_neg hne]
    · rw [if_pos hi]
  · rcases hi with hi | hi
    · rw [if_pos hi]
    · rw [hi, if_neg (Ne.symm hne)]

omit hs in
/-- The two roots are in one class. -/
theorem Merged.same_roots : t.Same a b := by
  rw [Same, h.rootOf_eq ha hb hne (.inl (Pool.rootOf_of_isRoot ha)),
    h.rootOf_eq ha hb hne (.inr (Pool.rootOf_of_isRoot hb))]

omit hs ha hb hne in
/-- What was in one class still is. -/
theorem Merged.same {i j : Nat} (hij : s.Same i j) : t.Same i j := by
  rw [Same, h.joined.rootOf_eq, h.joined.rootOf_eq, hij]

omit hs in
/-- What a class pointed to it still points to, unless both classes had a pointee class. -/
theorem Merged.points {i j : Nat} (hij : s.Points i j) : t.Points i j ∨
    ∃ px py, s.pointeeOf a = some px ∧ s.pointeeOf b = some py ∧
      t.Points i px.index ∧ s.Same py.index j := by
  obtain ⟨x, hx, hxj⟩ := hij
  by_cases hia : s.pool.rootOf i = a
  · rw [hia] at hx
    refine .inl ⟨x, ?_, h.same hxj⟩
    rw [h.rootOf_eq ha hb hne (.inl hia), h.pointeeOf_eq, if_pos rfl, hx, Option.some_or]
  by_cases hib : s.pool.rootOf i = b
  · rw [hib] at hx
    cases hpx : s.pointeeOf a with
    | none =>
        refine .inl ⟨x, ?_, h.same hxj⟩
        rw [h.rootOf_eq ha hb hne (.inr hib), h.pointeeOf_eq, if_pos rfl, hpx, hx,
          Option.none_or]
    | some px =>
        refine .inr ⟨px, x, rfl, hx, ⟨px, ?_, rfl⟩, hxj⟩
        rw [h.rootOf_eq ha hb hne (.inr hib), h.pointeeOf_eq, if_pos rfl, hpx, Option.some_or]
  · refine .inl ⟨x, ?_, h.same hxj⟩
    have hother : s.pool.rootOf i ≠ loser ∧ s.pool.rootOf i ≠ survivor := by
      rcases h.survives with ⟨rfl, rfl⟩ | ⟨rfl, rfl⟩
      · exact ⟨hib, hia⟩
      · exact ⟨hia, hib⟩
    rw [h.joined.rootOf_eq, if_neg hother.1, h.pointeeOf_eq, if_neg hother.2, hx]

theorem Merged.card_roots_lt : t.pool.roots.card < s.pool.roots.card := by
  obtain ⟨hl, hsv, hls⟩ : s.pool.isRoot loser = true ∧ s.pool.isRoot survivor = true ∧
      loser ≠ survivor := by
    rcases h.survives with ⟨rfl, rfl⟩ | ⟨rfl, rfl⟩
    · exact ⟨hb, ha, Ne.symm hne⟩
    · exact ⟨ha, hb, hne⟩
  rw [h.joined.roots_eq hs.forest hls hsv]
  exact Finset.card_erase_lt_of_mem (Pool.mem_roots.2 hl)

end MergeRoots

/-! ## Joining -/

/-- **A join puts two entities in one class**, and whatever a class pointed
to it still points to. -/
theorem Sound.joinFor : ∀ {bound : Nat} {s : State} {x y : Handle}, s.Sound → s.pool.Owns x →
    s.pool.Owns y → s.pool.roots.card ≤ bound →
    ∃ t, joinFor bound s x y = .ok t ∧ t.Sound ∧ Joins s t ∧ t.Same x.index y.index := by
  intro bound
  induction bound with
  | zero =>
      intro s x y hs hx _ hcard
      have hroot := Pool.mem_roots.2 (hs.forest.isRoot_rootOf hx.2)
      rw [Finset.card_eq_zero.1 (Nat.le_zero.1 hcard)] at hroot
      exact absurd hroot (Finset.notMem_empty _)
  | succ bound ih =>
      intro s x y hs hx hy hcard
      simp only [State.joinFor, hs.forest.root_ok hx, hs.forest.root_ok hy, bind, Except.bind]
      by_cases heq : s.pool.rootOf x.index = s.pool.rootOf y.index
      · rw [if_pos heq]
        exact ⟨s, rfl, hs, .refl s, heq⟩
      rw [if_neg heq]
      have ha := hs.forest.isRoot_rootOf hx.2
      have hb := hs.forest.isRoot_rootOf hy.2
      obtain ⟨merged, loser, survivor, hmerged, h⟩ := hs.mergeRoots ha hb heq
      have hfewer := h.card_roots_lt hs ha hb heq
      -- the roots stand for the entities, in whatever state comes later
      have hxy : merged.Same x.index y.index :=
        ((h.same (hs.forest.rootOf_rootOf _).symm).trans (h.same_roots ha hb heq)).trans
          (h.same (hs.forest.rootOf_rootOf _))
      have hpair : ∀ t, Joins merged t →
          (∀ px py, s.pointeeOf (s.pool.rootOf x.index) = some px →
            s.pointeeOf (s.pool.rootOf y.index) = some py → t.Same px.index py.index) →
          Joins s t := by
        intro t ht hpointees
        refine ⟨⟨h.joined.same.trans ht.entities, fun i j hij => ht.same i j (h.same hij),
          fun i j hij => ?_, fun c x hc => ht.calls c x (h.calls_eq ▸ hc),
          fun x hx => ht.bound x (h.bound_eq ▸ hx),
          fun o ho => ht.exposed o (h.exposed_eq ▸ ho)⟩,
          ht.calls_eq.trans h.calls_eq, ht.bound_eq.trans h.bound_eq,
          ht.exposed_eq.trans h.exposed_eq⟩
        rcases h.points ha hb heq hij with hij | ⟨px, py, hpx, hpy, hpoint, hj⟩
        · exact ht.points i j hij
        · have hlast := ht.same _ _ (h.same hj)
          exact ((ht.points _ _ hpoint).same (hpointees px py hpx hpy)).same hlast
      simp only [hmerged]
      cases hpx : s.pointeeOf (s.pool.rootOf x.index) with
      | none => exact ⟨merged, rfl, h.sound hs, hpair merged (.refl _) (by simp [hpx]), hxy⟩
      | some px =>
          cases hpy : s.pointeeOf (s.pool.rootOf y.index) with
          | none =>
            exact ⟨merged, rfl, h.sound hs, hpair merged (.refl _) (by simp [hpy]), hxy⟩
          | some py =>
              obtain ⟨t, hok, ht, hjoins, hpointees⟩ := ih (h.sound hs)
                (h.joined.same.owns_iff.2 (hs.owns hpx))
                (h.joined.same.owns_iff.2 (hs.owns hpy)) (by omega)
              refine ⟨t, hok, ht, hpair t hjoins fun px' py' hpx' hpy' => ?_,
                hjoins.same _ _ hxy⟩
              rw [hpx, Option.some.injEq] at hpx'
              rw [hpy, Option.some.injEq] at hpy'
              rw [← hpx', ← hpy']
              exact hpointees

theorem Sound.join (hs : s.Sound) {x y : Handle} (hx : s.pool.Owns x) (hy : s.pool.Owns y) :
    ∃ t, s.join x y = .ok t ∧ t.Sound ∧ Joins s t ∧ t.Same x.index y.index :=
  hs.joinFor hx hy (s.pool.card_roots_le.trans (Nat.le_succ _))

theorem Sound.joinAll (hs : s.Sound) {pairs : List (Handle × Handle)}
    (hpairs : ∀ e ∈ pairs, s.pool.Owns e.1 ∧ s.pool.Owns e.2) :
    ∃ t, s.joinAll pairs = .ok t ∧ t.Sound ∧ Joins s t ∧
      ∀ e ∈ pairs, t.Same e.1.index e.2.index := by
  have key := foldlM_ok (f := fun (s : State) (e : Handle × Handle) => s.join e.1 e.2)
    (G := fun u => u.Sound ∧ Pool.SameEntities s.pool u.pool) (R := Joins)
    (D := fun e u => u.Same e.1.index e.2.index) Joins.refl Joins.trans
    (fun h hj => hj.same _ _ h) (l := pairs) ?round ⟨hs, .refl _⟩
  · obtain ⟨t, hok, ⟨ht, -⟩, hjoins, hall⟩ := key
    exact ⟨t, hok, ht, hjoins, hall⟩
  case round =>
    rintro u e he ⟨hu, hentities⟩
    obtain ⟨hx, hy⟩ := hpairs e he
    obtain ⟨v, hok, hv, hjoins, hsame⟩ :=
      hu.join (hentities.owns_iff.2 hx) (hentities.owns_iff.2 hy)
    exact ⟨v, hok, ⟨hv, hentities.trans hjoins.entities⟩, hjoins, hsame⟩

/-- **A pointer comes to point to a class.** -/
theorem Sound.point (hs : s.Sound) {pointer target : Handle} (hp : s.pool.Owns pointer)
    (ht : s.pool.Owns target) :
    ∃ t, s.point pointer target = .ok t ∧ t.Sound ∧ Joins s t ∧
      t.Points pointer.index target.index := by
  have hcheck := hs.check_pointee (hs.forest.rootOf_lt hp.2)
  simp only [State.point, hs.forest.root_ok hp, hcheck, bind, Except.bind]
  cases hcurrent : s.pointeeOf (s.pool.rootOf pointer.index) with
  | some current =>
      obtain ⟨t, hok, hsound, hjoins, hsame⟩ := hs.join (hs.owns hcurrent) ht
      exact ⟨t, hok, hsound, hjoins, (hjoins.points _ _ ⟨current, hcurrent, rfl⟩).same hsame⟩
  | none =>
      have hat := pointeeOf_modify (checkIndex_eq_ok.1 hcheck) (some target)
      refine ⟨_, rfl, { hs with
        pointee_size := Array.size_modify.trans hs.pointee_size
        owns := fun {r h} hr => ?_ },
          ⟨⟨.refl _, fun _ _ h => h, fun i j h => ?_, fun _ _ h => h,
          fun _ h => h, fun _ h => h⟩, rfl, rfl, rfl⟩, target, ?_, rfl⟩
      · have hr' := (hat r).symm.trans hr
        split at hr'
        · rw [Option.some.injEq] at hr'
          exact hr' ▸ ht
        · exact hs.owns hr'
      · obtain ⟨x, hx, hxj⟩ := h
        refine ⟨x, (hat _).trans ?_, hxj⟩
        rw [if_neg, ← hx]
        · rfl
        · intro e
          rw [e, hcurrent] at hx
          exact absurd hx (by simp)
      · exact (hat _).trans (if_pos rfl)

/-! ## Taking in constraints -/

/-- A constraint is recorded in the state. -/
def Recorded (s : State) : Constraint → Prop
  | .pointsTo pointer pointee => s.Points pointer.index pointee.index
  | .superset whole part => s.Same whole.index part.index
  | .load value address => s.Points address.index value.index
  | .store address value => s.Points address.index value.index
  | .call callee site => ∃ c : Nat, s.calls[c]? = some (callee, site)
  | .external pointer => s.Same pointer.index Pool.external
  | .unknown pointer => s.Same pointer.index Pool.unknown
  | .escapes pointer => s.Same Pool.external pointer.index

theorem Later.recorded (h : Later s t) {c : Constraint} (hc : s.Recorded c) :
    t.Recorded c := by
  cases c with
  | pointsTo pointer pointee => exact h.points _ _ hc
  | superset whole part => exact h.same _ _ hc
  | load value address => exact h.points _ _ hc
  | store address value => exact h.points _ _ hc
  | call callee site =>
      obtain ⟨c, hc⟩ := hc
      exact ⟨c, h.calls c _ hc⟩
  | external pointer => exact h.same _ _ hc
  | unknown pointer => exact h.same _ _ hc
  | escapes pointer => exact h.same _ _ hc

/-- A state before any call was bound. -/
structure Seeding (s : State) : Prop extends Sound s where
  bound_eq : s.bound = []
  exposed_eq : s.exposed = .empty

theorem Seeding.joins (hs : s.Seeding) (hsound : t.Sound) (h : Joins s t) : t.Seeding :=
  ⟨hsound, h.bound_eq.trans hs.bound_eq, h.exposed_eq.trans hs.exposed_eq⟩

/-- **A constraint is taken in and recorded.** -/
theorem Seeding.addConstraint (hs : s.Seeding) {c : Constraint} (hc : c.Over s.pool) :
    ∃ t, s.addConstraint c = .ok t ∧ t.Seeding ∧ Later s t ∧ t.Recorded c := by
  have hcount : ∀ stats, ({ s with stats } : State).Seeding ∧ Later s { s with stats } := by
    intro stats
    exact ⟨{ hs with }, .refl _, fun _ _ h => h, fun _ _ h => h, fun _ _ h => h, fun _ h => h,
      fun _ h => h⟩
  obtain ⟨hseeding, hlater⟩ := hcount { s.stats with constraints := s.stats.constraints + 1 }
  obtain ⟨u, hu⟩ : ∃ u, ({ s with
    stats := { s.stats with constraints := s.stats.constraints + 1 } } : State) = u := ⟨_, rfl⟩
  have hpool : u.pool = s.pool := hu ▸ rfl
  rw [hu] at hseeding hlater
  rw [← hpool] at hc
  have hunknown := Pool.owns_handle hseeding.closed.unknown_object.1
  have hexternal := Pool.owns_handle hseeding.closed.external_object.1
  have hpoint : ∀ {pointer target : Handle}, u.pool.Owns pointer → u.pool.Owns target →
      ∃ t, u.point pointer target = .ok t ∧ t.Seeding ∧ Later s t ∧
        t.Points pointer.index target.index := by
    intro pointer target hp ht
    obtain ⟨t, hok, hsound, hjoins, hpoints⟩ := hseeding.toSound.point hp ht
    exact ⟨t, hok, hseeding.joins hsound hjoins, hlater.trans hjoins.toLater, hpoints⟩
  have hjoin : ∀ {x y : Handle}, u.pool.Owns x → u.pool.Owns y →
      ∃ t, u.join x y = .ok t ∧ t.Seeding ∧ Later s t ∧ t.Same x.index y.index := by
    intro x y hx hy
    obtain ⟨t, hok, hsound, hjoins, hsame⟩ := hseeding.toSound.join hx hy
    exact ⟨t, hok, hseeding.joins hsound hjoins, hlater.trans hjoins.toLater, hsame⟩
  cases c <;> simp only [State.addConstraint, hu]
  case pointsTo pointer pointee => exact hpoint hc.1 hc.2.1
  case superset whole part => exact hjoin hc.1 hc.2
  case load value address => exact hpoint hc.2 hc.1
  case store address value => exact hpoint hc.1 hc.2
  case external pointer => exact hjoin hc hexternal
  case unknown pointer => exact hjoin hc (hpool ▸ hunknown)
  case escapes pointer => exact hjoin hexternal hc
  case call callee site =>
      subst hu
      have hget : ∀ (i : Nat) x, s.calls[i]? = some x →
          (s.calls.push (callee, site))[i]? = some x := by
        intro i x hi
        rw [Array.getElem?_push, if_neg (Nat.ne_of_lt (Array.getElem?_eq_some_iff.1 hi).1), hi]
      refine ⟨_, rfl, { hseeding with calls := fun {i callee' site'} hi => ?_ },
        { hlater with calls := hget }, s.calls.size, Array.getElem?_push_size⟩
      rw [Array.getElem?_push] at hi
      split at hi
      · rw [Option.some.injEq, Prod.mk.injEq] at hi
        obtain ⟨rfl, rfl⟩ := hi
        exact hc
      · exact hseeding.calls hi

end PointerChannels.Unification.State
