import PointerChannels.Proofs.Pool.History
import Mathlib.Data.Nat.Log

/-!
# Balance of a pool

A rank rises only when two roots of equal rank are merged, and then their classes become one.
So a root of rank `k` has at least `2 ^ k` entities in its class.  Shortening the way to a root
hangs entities below distant ancestors and keeps all ranks, so this says nothing of the
entities below an entity that is no root; what holds there is that ranks rise along the parents
as they are.  Together the two bound every climb by the logarithm of the number of entities.

## Main definitions

* `Pool.ClimbsIn`, `Pool.CompressesIn` — the two loops of a look-up without a bound, with
  the number of their steps.
* `Pool.Populous` — classes are as large as the ranks of their roots promise.
* `Pool.Balanced` — what a pool is whatever its history.

## Main statements

* `Pool.balanced_of_run` — every history leads to a balanced pool.
-/

namespace PointerChannels.Pool

variable {p q : Pool} {a b i j r l s : Nat}

/-! ## The loops of a look-up -/

/-- An entity climbs to a root in a number of steps, each from an entity to its parent. -/
inductive ClimbsIn (p : Pool) : Nat → Nat → Nat → Prop
  | root {r : Nat} : p.isRoot r = true → ClimbsIn p 0 r r
  | step {steps i r : Nat} {c : Cell} : p.cells[i]? = some c → c.parent ≠ i →
      ClimbsIn p steps c.parent r → ClimbsIn p (steps + 1) i r

/-- The way from an entity to a root is shortened in a number of steps, each of which hangs an
entity below the root and goes on to what was its parent. -/
inductive CompressesIn (root : Nat) : Nat → Nat → Array Cell → Array Cell → Prop
  | done {cells : Array Cell} : CompressesIn root 0 root cells cells
  | step {steps i : Nat} {c : Cell} {cells cells' : Array Cell} :
      cells[i]? = some c → i ≠ root →
      CompressesIn root steps c.parent (cells.modify i ({ · with parent := root })) cells' →
      CompressesIn root (steps + 1) i cells cells'

/-- Each step of a climb raises the rank. -/
theorem Climbs.exists_climbsIn (hp : p.Forest) (h : p.Climbs i r) :
    ∃ steps, p.ClimbsIn steps i r ∧ p.rankOf i + steps ≤ p.rankOf r := by
  induction h with
  | root hr => exact ⟨0, .root hr, le_rfl⟩
  | @step i r c hc hparent _ ih =>
      obtain ⟨steps, hsteps, hle⟩ := ih
      have hlt := hp.rank_lt hc hparent
      rw [← rankOf_eq hc] at hlt
      exact ⟨steps + 1, .step hc hparent hsteps, by omega⟩

/-- Shortening a way ends at the root, if it may take as many steps as the rank can rise. -/
theorem Forest.exists_compressesIn (bound : Nat) (hp : p.Forest) (h : p.Climbs i r)
    (hbound : p.rankOf r ≤ p.rankOf i + bound) :
    ∃ steps, CompressesIn r steps i p.cells (compress r bound i p.cells) ∧
      p.rankOf i + steps ≤ p.rankOf r := by
  induction bound generalizing p i with
  | zero =>
      have hir : i = r := by
        by_contra hne
        have := h.rankOf_lt hp hne
        omega
      subst hir
      exact ⟨0, .done, le_rfl⟩
  | succ bound ih =>
      obtain ⟨c, hc⟩ := lt_size_iff.1 h.lt_size
      simp only [compress, hc]
      by_cases hir : i = r
      · subst hir
        rw [if_pos rfl]
        exact ⟨0, .done, le_rfl⟩
      · rw [if_neg hir]
        cases h with
        | root _ => exact absurd rfl hir
        | step hc' hparent hclimb =>
            obtain rfl := Option.some_injective _ (hc.symm.trans hc')
            have hclimbs := Climbs.step hc hparent hclimb
            have hlt := hp.rank_lt hc hparent
            rw [← rankOf_eq hc] at hlt
            -- the rest of the way is climbed in the pool that the first step leaves
            obtain ⟨steps, hsteps, hle⟩ := ih (hp.redirect hclimbs hir)
              (climbs_redirect hclimbs hir hclimb)
              (by rw [rankOf_redirect, rankOf_redirect]; omega)
            rw [rankOf_redirect, rankOf_redirect] at hle
            exact ⟨steps + 1, .step hc hir hsteps, by omega⟩

/-! ## Ranks -/

theorem rankOf_of_size_le (h : p.size ≤ i) : p.rankOf i = 0 := by
  have hnone : p.cells[i]? = none := Array.getElem?_eq_none h
  rw [rankOf, hnone]
  rfl

theorem rankOf_sign {signature : Signature} : (p.sign i signature).rankOf j = p.rankOf j := by
  rw [rankOf, rankOf, cells_sign, map_view fun c => by split <;> rfl]

theorem rankOf_store {set : IndexSet} : (p.store i set).rankOf j = p.rankOf j := by
  rw [rankOf, rankOf, cells_store, map_view fun c => by split <;> rfl]

theorem rankOf_compress (steps : Nat) :
    ({ p with cells := compress r steps i p.cells } : Pool).rankOf j = p.rankOf j := by
  induction steps generalizing p i with
  | zero => rfl
  | succ steps ih =>
      cases hc : p.cells[i]? with
      | none => simp only [compress, hc]
      | some c =>
          simp only [compress, hc]
          split
          · rfl
          · exact (ih (p := p.redirect i r)).trans rankOf_redirect

/-- Only merging changes ranks. -/
theorem Performed.rankOf_eq (h : Performed p none q) (j : Nat) : q.rankOf j = p.rankOf j := by
  cases h with
  | same => rfl
  | pushed kind label origin => exact rankOf_push
  | registered v label _ => exact rankOf_push
  | shared v i _ _ => rfl
  | signed i signature => exact rankOf_sign
  | found i _ => exact rankOf_compress p.cells.size
  | grown r objects _ _ => exact rankOf_store

/-- Merging two roots of one rank raises that of the first, and no other. -/
theorem rankOf_merge (ha : a < p.size) (hne : a ≠ b) (j : Nat) : (p.merge a b).2.rankOf j =
    if j = a ∧ p.rankOf a = p.rankOf b then p.rankOf j + 1 else p.rankOf j := by
  unfold merge
  by_cases hab : p.rankOf a < p.rankOf b
  · rw [if_pos hab, if_neg (by omega)]
    exact rankOf_hang hne j
  rw [if_neg hab]
  by_cases hba : p.rankOf b < p.rankOf a
  · rw [if_pos hba, if_neg (by omega)]
    exact rankOf_hang (Ne.symm hne) j
  rw [if_neg hba]
  have heq : p.rankOf a = p.rankOf b := by omega
  have hraise : ((p.raise a).hang b a).rankOf j = if a = j then p.rankOf j + 1
      else p.rankOf j := by
    rw [rankOf_hang (Ne.symm hne), rankOf_raise ha]
  simp only [heq, and_true, eq_comm (a := j)]
  exact hraise

/-! ## Sizes of classes -/

/-- A class is at least as large as the rank of its root promises. -/
def Populous (p : Pool) : Prop :=
  ∀ r, p.isRoot r = true → 2 ^ p.rankOf r ≤ (p.members r).length

theorem length_members_pos (h : p.isRoot r = true) : 0 < (p.members r).length :=
  List.length_pos_of_mem (mem_members.2 ⟨lt_size_of_isRoot h, rootOf_of_isRoot h⟩)

theorem length_members_le (p : Pool) (r : Nat) : (p.members r).length ≤ p.size := by
  have hle : (p.members r).length ≤ p.indices.length := List.length_filter_le _ _
  rwa [indices, List.length_range] at hle

/-- Classes do not shrink when none are joined. -/
theorem Unmerged.length_members_le (h : Unmerged p q) (r : Nat) :
    (p.members r).length ≤ (q.members r).length := by
  have hsame : q.members r = q.indices.filter (p.rootOf · == r) := by
    simp only [members, h.rootOf_eq]
  rw [hsame]
  exact ((List.range_sublist.2 h.size_le).filter _).length_le

/-- The class of the survivor takes over that of the loser. -/
theorem Joined.length_members_survivor (h : p.Joined q l s) (hne : l ≠ s) :
    (q.members s).length = (p.members s).length + (p.members l).length := by
  have hindices : q.indices = p.indices := by
    rw [indices, indices, h.same.size_eq]
  have hold : (q.members s).filter (p.rootOf · == s) = p.members s := by
    rw [members, members, List.filter_filter, hindices]
    refine List.filter_congr fun e _ => ?_
    simpa [h.rootOf_eq_survivor_iff] using fun he => Or.inl he
  have hnew : (q.members s).filter (fun e => !(p.rootOf e == s)) = p.members l := by
    rw [members, members, List.filter_filter, hindices]
    refine List.filter_congr fun e _ => ?_
    rw [Bool.eq_iff_iff]
    simp only [Bool.and_eq_true, Bool.not_eq_true', beq_eq_false_iff_ne, beq_iff_eq,
      h.rootOf_eq_survivor_iff]
    constructor
    · rintro ⟨hs, hs' | hl⟩
      · exact absurd hs' hs
      · exact hl
    · intro hl
      exact ⟨hl ▸ hne, .inr hl⟩
  rw [← hold, ← hnew]
  exact List.length_eq_length_filter_add _

/-- Every other class stays as it is. -/
theorem Joined.members_eq (h : p.Joined q l s) (hl : r ≠ l) (hs : r ≠ s) :
    q.members r = p.members r := by
  rw [members, members, indices, indices, h.same.size_eq]
  refine List.filter_congr fun e _ => ?_
  rw [h.rootOf_eq]
  split
  · next he => simp [he, Ne.symm hl, Ne.symm hs]
  · rfl

theorem Unmerged.populous (hq : Unmerged p q) (hp : p.Forest) (h : p.Populous)
    (hrank : ∀ j, q.rankOf j = p.rankOf j) : q.Populous := by
  intro r hr
  rw [hrank]
  by_cases hlt : r < p.size
  · have hroot : p.isRoot r = true := by
      rw [hp.isRoot_iff_rootOf hlt, ← hq.rootOf_eq]
      exact rootOf_of_isRoot hr
    exact (h r hroot).trans (hq.length_members_le r)
  · rw [rankOf_of_size_le (not_lt.1 hlt)]
    exact length_members_pos hr

/-- Two classes that become one have room for what the ranks of both promise. -/
theorem Joined.populous (hq : p.Joined q l s) (hp : p.Forest) (h : p.Populous)
    (hl : p.isRoot l = true) (hs : p.isRoot s = true) (hne : l ≠ s)
    (hother : ∀ r, r ≠ l → r ≠ s → q.rankOf r = p.rankOf r)
    (hsurvivor : 2 ^ q.rankOf s ≤ 2 ^ p.rankOf s + 2 ^ p.rankOf l) : q.Populous := by
  intro r hr
  obtain ⟨hroot, hrl⟩ := (hq.isRoot_iff hp hne hs).1 hr
  by_cases hrs : r = s
  · subst hrs
    calc 2 ^ q.rankOf r ≤ 2 ^ p.rankOf r + 2 ^ p.rankOf l := hsurvivor
      _ ≤ (p.members r).length + (p.members l).length := Nat.add_le_add (h r hs) (h l hl)
      _ = (q.members r).length := (hq.length_members_survivor hne).symm
  · rw [hother r hrl hrs, hq.members_eq hrl hrs]
    exact h r hroot

theorem Populous.merge (hp : p.Forest) (h : p.Populous) (ha : p.isRoot a = true)
    (hb : p.isRoot b = true) (hne : a ≠ b) : (p.merge a b).2.Populous := by
  have hrank := rankOf_merge (lt_size_of_isRoot ha) hne
  obtain ⟨l, s, q, hmerge, hpair, hjoined⟩ := hp.merge ha hb hne
  rw [hmerge] at hrank ⊢
  have hother : ∀ r, r ≠ a → q.rankOf r = p.rankOf r := by
    intro r hra
    rw [hrank, if_neg fun htie => hra htie.1]
  rcases hpair with ⟨rfl, rfl⟩ | ⟨rfl, rfl⟩
  · refine hjoined.populous hp h hb ha (Ne.symm hne) (fun r _ hrs => hother r hrs) ?_
    rw [hrank]
    split
    · next htie => rw [← htie.2, pow_succ, Nat.mul_two]
    · exact Nat.le_add_right _ _
  · refine hjoined.populous hp h ha hb hne (fun r hrl _ => hother r hrl) ?_
    rw [hother s (Ne.symm hne)]
    exact Nat.le_add_right _ _

/-! ## Histories -/

theorem populous_new (id : Nat) (capacity : Option Nat) : (Pool.new id capacity).Populous := by
  intro r hr
  have hrank : (Pool.new id capacity).rankOf r = 0 := by
    rw [Pool.new, rankOf_push, rankOf_push]
    exact rankOf_of_size_le (Nat.zero_le r)
  rw [hrank]
  exact length_members_pos hr

/-- **Every operation keeps classes as large as their ranks promise.** -/
theorem Populous.performed (hp : p.Intact) (h : p.Populous) {pair : Option (Nat × Nat)}
    (hq : Performed p pair q) : q.Populous := by
  obtain ⟨-, heffect⟩ := hp.performed hq
  cases heffect with
  | unmerged hunmerged => exact hunmerged.populous hp.forest h hq.rankOf_eq
  | joined ha hb hne _ _ _ =>
      cases hq with
      | merged => exact h.merge hp.forest ha hb hne

theorem populous_of_run {id : Nat} {capacity : Option Nat} {actions : List Action}
    (h : (Pool.new id capacity).run actions = .ok p) : p.Intact ∧ p.Populous := by
  refine foldlM_induction (P := fun p => p.Intact ∧ p.Populous) (fun p q action _ hp hq => ?_)
    ⟨.new id capacity, populous_new id capacity⟩ h
  exact ⟨(hp.1.perform hq).1, hp.2.performed hp.1 (performed_of_perform hq)⟩

/-- The rank of a root is at most the logarithm of the number of entities, and no other entity
has a higher rank than its root. -/
theorem Populous.rankOf_le (hp : p.Forest) (h : p.Populous) (i : Nat) :
    p.rankOf i ≤ Nat.log 2 p.size := by
  by_cases hi : i < p.size
  · have hclimbs := hp.climbs_rootOf hi
    have hpow : 2 ^ p.rankOf (p.rootOf i) ≤ p.size :=
      (h _ hclimbs.isRoot).trans (length_members_le p _)
    exact (hclimbs.rankOf_le hp).trans (Nat.le_log_of_pow_le Nat.one_lt_two hpow)
  · rw [rankOf_of_size_le (not_lt.1 hi)]
    exact Nat.zero_le _

/-- Merging raises no rank by more than one, and numbers of 32 bits have logarithms far
below the largest byte. -/
theorem Populous.rankOf_lt_of_unify (hp : p.Forest) (h : p.Populous)
    (hsize : p.size ≤ UInt32.size) {g g' : Handle} (hq : p.unify g g' = .ok (s, q)) (i : Nat) :
    q.rankOf i < UInt8.size := by
  obtain ⟨ha, -, hne, hmerge⟩ := unify_eq_ok hq
  have hrank := rankOf_merge (lt_size_of_isRoot ha) hne i
  rw [← hmerge] at hrank
  have hraised : q.rankOf i ≤ p.rankOf i + 1 := by
    rw [hrank]
    split <;> omega
  have hlog : Nat.log 2 p.size ≤ 32 :=
    (Nat.log_mono_right hsize).trans (Nat.log_pow Nat.one_lt_two 32).le
  have hle := h.rankOf_le hp i
  calc q.rankOf i ≤ 33 := by omega
    _ < UInt8.size := by decide

/-- A pool whose trees are balanced, and what it costs to use one. -/
structure Balanced (p : Pool) : Prop where
  /-- Parents are entities of the pool. -/
  parent_lt : ∀ (i : Nat) (c : Cell), p.cells[i]? = some c → c.parent < p.size
  /-- Rank rises from an entity that is no root to its parent. -/
  rank_lt : ∀ (i : Nat) (c : Cell), p.cells[i]? = some c → p.isRoot i = false →
    p.rankOf i < p.rankOf c.parent
  /-- A class is at least as large as the rank of its root promises. -/
  two_pow_rank_le : ∀ r, p.isRoot r = true → 2 ^ p.rankOf r ≤ (p.members r).length
  /-- The climb from an entity to its root ends within logarithmically many steps. -/
  climbsIn : ∀ i < p.size, ∃ steps ≤ Nat.log 2 p.size, p.ClimbsIn steps i (p.rootOf i)
  /-- Shortening the way that was climbed ends within as many. -/
  compressesIn : ∀ i < p.size, ∃ steps ≤ Nat.log 2 p.size,
    CompressesIn (p.rootOf i) steps i p.cells (p.find i).2.cells
  /-- If indices have 32 bits, a byte holds every rank that a merge leaves. -/
  rank_fits : p.size ≤ UInt32.size → ∀ g g' survivor q, p.unify g g' = .ok (survivor, q) →
    ∀ i, q.rankOf i < UInt8.size

/-- **The trees of a pool are balanced**, whatever operations were performed on it since it was
made: look-ups take logarithmically many steps, and ranks do not overflow. -/
theorem balanced_of_run {id : Nat} {capacity : Option Nat} {actions : List Action}
    (h : (Pool.new id capacity).run actions = .ok p) : p.Balanced := by
  obtain ⟨hintact, hpopulous⟩ := populous_of_run h
  have hp := hintact.forest
  have hlog := hpopulous.rankOf_le hp
  refine ⟨fun i c hc => hp.parent_lt hc, fun i c hc hroot => ?_, hpopulous,
    fun i hi => ?_, fun i hi => ?_, fun hsize g g' survivor q hq => ?_⟩
  · rw [rankOf_eq hc]
    refine hp.rank_lt hc fun hparent => ?_
    rw [isRoot_iff.2 ⟨c, hc, hparent⟩] at hroot
    exact absurd hroot (by decide)
  · obtain ⟨steps, hsteps, hle⟩ := (hp.climbs_rootOf hi).exists_climbsIn hp
    exact ⟨steps, by have := hlog (p.rootOf i); omega, hsteps⟩
  · have hbound : p.rankOf (p.rootOf i) ≤ p.rankOf i + p.cells.size :=
      (hlog _).trans ((Nat.log_le_self 2 p.size).trans (Nat.le_add_left _ _))
    obtain ⟨steps, hsteps, hle⟩ :=
      hp.exists_compressesIn p.cells.size (hp.climbs_rootOf hi) hbound
    exact ⟨steps, by have := hlog (p.rootOf i); omega, hsteps⟩
  · exact hpopulous.rankOf_lt_of_unify hp hsize hq

/-- Four registers are merged pairwise and the pairs with each other, the longest way is
shortened, and a fifth register is merged with the four. -/
def tournamentActions : List Action :=
  [.createDummy, .createDummy, .createDummy, .createDummy, .unify ⟨0, 2⟩ ⟨0, 3⟩,
    .unify ⟨0, 4⟩ ⟨0, 5⟩, .unify ⟨0, 2⟩ ⟨0, 4⟩, .find ⟨0, 5⟩, .createDummy,
    .unify ⟨0, 6⟩ ⟨0, 2⟩]

theorem balanced_of_run_tournamentActions :
    ∃ p, (Pool.new 0 none).run tournamentActions = .ok p ∧
    p.Balanced ∧ p.rankOf 2 = 2 ∧ p.members 2 = [2, 3, 4, 5, 6] ∧
    p.cells.toList.map Cell.parent = [0, 1, 2, 2, 2, 2, 2] := by
  have hrun : ∃ p, (Pool.new 0 none).run tournamentActions = .ok p ∧ p.rankOf 2 = 2 ∧
      p.members 2 = [2, 3, 4, 5, 6] ∧ p.cells.toList.map Cell.parent = [0, 1, 2, 2, 2, 2, 2] :=
    ⟨_, rfl, rfl, rfl, rfl⟩
  obtain ⟨p, hp, hrank, hmembers, hparents⟩ := hrun
  exact ⟨p, hp, balanced_of_run hp, hrank, hmembers, hparents⟩

end PointerChannels.Pool
