import PointerChannels.Proofs.Cycle.Walk
import PointerChannels.Proofs.Pool.History
import Mathlib.Algebra.BigOperators.Intervals
import Mathlib.Data.Set.Card

/-!
# What the cycle detector collapses

Shown an edge between two classes that it has not searched for yet, the detector merges the
roots on the walks that close a cycle through the edge, all of them and no others; when there
is no such walk it leaves the host alone.  It merges them one after the other, and whatever it
merges are two different roots of the host as it is at that moment.

A session shows the detector many edges, while the host may change in any way in between.
Every search is for a pair of roots that was not searched for before, so there are at most as
many searches as pairs of entities.

## Main definitions

* `Merges` — a sequence of merges, each of two different roots.
* `Collapsed` — the classes of some roots have become one.
* `Detector.Search` — what a search does.
* `Session` — the detectors that edges of changing hosts lead to.

## Main statements

* `Sound.collapse` — merging some roots into one.
* `probe_collapses_walks` — what showing the detector an edge does, in any session.
-/

namespace PointerChannels

namespace Cycle

open CycleHost Relation

variable {σ : Type} [CycleHost σ] [LawfulHost σ] {host host' : σ} {source target : Nat}

/-! ## Merging roots into one -/

/-- Roots are merged into one, left to right.  Each time they are two different roots of
the host as it is then. -/
inductive Merges : σ → Nat → List Nat → Nat → σ → Prop
  /-- There is one root. -/
  | nil (host : σ) (root : Nat) : Merges host root [] root host
  /-- Two roots are merged, and the survivor with the others. -/
  | cons {host merged last : σ} {root member survivor final : Nat} {rest : List Nat} :
      IsRoot host root → IsRoot host member → root ≠ member →
      unifyRoots host root member = .ok (survivor, merged) →
      Merges merged survivor rest final last → Merges host root (member :: rest) final last

/-- The classes of some roots have become the class of `root`, and all
others are as they were. -/
structure Collapsed (host : σ) (merged : Nat → Prop) (root : Nat) (host' : σ) : Prop where
  sound : Sound host'
  size_eq : size host' = size host
  isRoot : IsRoot host' root
  rootOf_eq : ∀ e, merged (rootOf host e) → rootOf host' e = root
  rootOf_other : ∀ e, ¬ merged (rootOf host e) → rootOf host' e = rootOf host e

/-- Merging two different roots of a sound host. -/
theorem Sound.unifyRoots (h : Sound host) {a b : Nat} (ha : IsRoot host a) (hb : IsRoot host b)
    (hne : a ≠ b) : ∃ survivor merged, unifyRoots host a b = .ok (survivor, merged) ∧
      (survivor = a ∨ survivor = b) ∧ Collapsed host (fun x => x = a ∨ x = b) survivor merged ∧
      ∀ x, IsRoot host x → x ≠ a → x ≠ b → IsRoot merged x := by
  obtain ⟨loser, survivor, merged, hok, hfits, hpair, hjoined, hsuccessors⟩ :=
    LawfulHost.unifyRoots_ok h.fits h.forest ha hb hne
  have hsize : (LawfulHost.pool merged).size = (LawfulHost.pool host).size :=
    hjoined.same.size_eq
  have hsound : Sound merged := by
    refine ⟨hfits, hjoined.forest, fun x y hy => ?_⟩
    obtain ⟨z, hz⟩ := hsuccessors x y hy
    rw [hsize]
    exact h.successors_lt z y hz
  have hroots : IsRoot host survivor ∧ survivor ≠ loser := by
    rcases hpair with ⟨rfl, rfl⟩ | ⟨rfl, rfl⟩
    · exact ⟨ha, hne⟩
    · exact ⟨hb, Ne.symm hne⟩
  have hisRoot : ∀ x, IsRoot merged x ↔ IsRoot host x ∧ x ≠ loser := fun x =>
    hjoined.isRoot_iff h.forest (Ne.symm hroots.2) hroots.1
  have hrootOf : ∀ e, rootOf merged e = if rootOf host e = loser then survivor
      else rootOf host e := by
    intro e
    rw [LawfulHost.rootOf_eq, LawfulHost.rootOf_eq]
    exact hjoined.rootOf_eq e
  refine ⟨survivor, merged, hok, hpair.imp And.left And.left, ⟨hsound, ?_, ?_, ?_, ?_⟩, ?_⟩
  · rw [LawfulHost.size_eq, LawfulHost.size_eq, hsize]
  · exact (hisRoot survivor).2 hroots
  · intro e he
    rw [hrootOf]
    rcases hpair with ⟨rfl, rfl⟩ | ⟨rfl, rfl⟩ <;> rcases he with he | he <;> simp [he]
  · intro e he
    rw [not_or] at he
    rw [hrootOf, if_neg]
    rcases hpair with ⟨-, rfl⟩ | ⟨-, rfl⟩
    · exact he.2
    · exact he.1
  · intro x hx hxa hxb
    refine (hisRoot x).2 ⟨hx, ?_⟩
    rcases hpair with ⟨-, rfl⟩ | ⟨-, rfl⟩
    · exact hxb
    · exact hxa

/-- Two classes become one, and that one becomes one with others. -/
theorem Collapsed.cons {merged last : σ} {first member survivor root : Nat} {rest : List Nat}
    (h : Collapsed host (fun x => x = first ∨ x = member) survivor merged)
    (hsurvivor : survivor = first ∨ survivor = member)
    (hlast : Collapsed merged (· ∈ survivor :: rest) root last) :
    Collapsed host (· ∈ first :: member :: rest) root last := by
  refine ⟨hlast.sound, hlast.size_eq.trans h.size_eq, hlast.isRoot, fun e he => ?_,
    fun e he => ?_⟩
  · refine hlast.rootOf_eq e ?_
    by_cases hpair : rootOf host e = first ∨ rootOf host e = member
    · rw [h.rootOf_eq e hpair]
      exact List.mem_cons_self
    · rw [h.rootOf_other e hpair]
      simp only [List.mem_cons] at he ⊢
      exact .inr (by tauto)
  · simp only [List.mem_cons, not_or] at he
    have hkept := h.rootOf_other e (not_or.2 ⟨he.1, he.2.1⟩)
    rw [hlast.rootOf_other e, hkept]
    rw [hkept, List.mem_cons, not_or]
    refine ⟨fun heq => ?_, he.2.2⟩
    rcases hsurvivor with rfl | rfl
    · exact he.1 heq
    · exact he.2.1 heq

/-- **Different roots are merged into one**, whose class is then that of all of them. -/
theorem Sound.collapse {first : Nat} {rest : List Nat} (h : Sound host)
    (hnodup : (first :: rest).Nodup) (hroots : ∀ x ∈ first :: rest, IsRoot host x) :
    ∃ root last, collapse host first rest = .ok (root, last) ∧
      Merges host first rest root last ∧
      Collapsed host (· ∈ first :: rest) root last := by
  induction rest generalizing host first with
  | nil =>
      refine ⟨first, host, rfl, .nil host first, h, rfl, hroots first (by simp),
        fun e he => ?_, fun _ _ => rfl⟩
      exact List.mem_singleton.1 he
  | cons member rest ih =>
      obtain ⟨hfirst, hnodup'⟩ := List.nodup_cons.1 hnodup
      obtain ⟨hmember, hrest⟩ := List.nodup_cons.1 hnodup'
      have hne : first ≠ member := fun he => hfirst (he ▸ List.mem_cons_self)
      have hfirst' := hroots first (by simp)
      have hmember' := hroots member (by simp)
      obtain ⟨survivor, merged, hok, hsurvivor, hcollapsed, hisRoot⟩ :=
        h.unifyRoots hfirst' hmember' hne
      have hoff : ∀ x ∈ rest, x ≠ first ∧ x ≠ member := by
        intro x hx
        exact ⟨fun he => hfirst (he ▸ List.mem_cons_of_mem _ hx), fun he => hmember (he ▸ hx)⟩
      have hnotMem : survivor ∉ rest := by
        intro hmem
        rcases hsurvivor with rfl | rfl
        · exact (hoff _ hmem).1 rfl
        · exact (hoff _ hmem).2 rfl
      obtain ⟨root, last, hok', hmerges, hlast⟩ := ih hcollapsed.sound
        (List.nodup_cons.2 ⟨hnotMem, hrest⟩) (by
          intro x hx
          rcases List.mem_cons.1 hx with rfl | hx
          · exact hcollapsed.isRoot
          · exact hisRoot x (hroots x (by simp [hx])) (hoff x hx).1 (hoff x hx).2)
      refine ⟨root, last, ?_, .cons hfirst' hmember' hne hok hmerges,
        hcollapsed.cons hsurvivor hlast⟩
      rw [collapse, List.foldlM_cons]
      exact bind_eq_ok.2 ⟨(survivor, merged), hok, hok'⟩

/-! ## A search -/

namespace Detector

/-- The detector has searched for the pair, in one order or the other. -/
def Searched (d : Detector) (a b : Nat) : Prop := (Nat.min a b, Nat.max a b) ∈ d.probed

instance (d : Detector) (a b : Nat) : Decidable (d.Searched a b) :=
  inferInstanceAs (Decidable (_ ∈ _))

/-- What a search for two roots does.  It is counted and remembered.  If there is a way from
the target to the source, the roots on the walks that meet the source only at their end become
one class; if there is none, the host stays as it is. -/
structure Search (d : Detector) (host : σ) (source target : Nat) (found : Option Nat)
    (d' : Detector) (host' : σ) : Prop where
  attempts_eq : d'.attempts = d.attempts + 1
  probed_eq : d'.probed = (Nat.min source target, Nat.max source target) :: d.probed
  isSome_iff : found.isSome = true ↔ ReflTransGen (Edge host) target source
  of_none : found = none → host' = host ∧ d'.cycles = d.cycles ∧
    d'.unifications = d.unifications
  of_some : ∀ root, found = some root →
    Collapsed host (OnWalk host source target) root host' ∧
    (∃ first rest, (∀ x, x ∈ first :: rest ↔ OnWalk host source target x) ∧
      Merges host first rest root host') ∧
    d'.cycles = d.cycles + 1 ∧
    d'.unifications + 1 = d.unifications + {x | OnWalk host source target x}.ncard

omit [LawfulHost σ] in
/-- An edge within a class, or between classes that were searched for, is not looked at. -/
theorem probe_of_searched (d : Detector) (h : rootOf host source = rootOf host target ∨
    d.Searched (rootOf host source) (rootOf host target)) :
    d.probe host source target = .ok (none, d, host) := by
  unfold probe
  rw [if_pos]
  exact h.imp_right List.contains_iff_mem.2

/-- **A search collapses the walks that close a cycle.** -/
theorem probe_of_new (d : Detector) (h : Sound host) (hs : source < size host)
    (ht : target < size host) (hne : rootOf host source ≠ rootOf host target)
    (hnew : ¬ d.Searched (rootOf host source) (rootOf host target)) :
    ∃ found d' host', d.probe host source target = .ok (found, d', host') ∧
      d.Search host (rootOf host source) (rootOf host target) found d' host' := by
  have hsource := h.isRoot_rootOf hs
  have htarget := h.isRoot_rootOf ht
  unfold probe
  generalize rootOf host source = a at *
  generalize rootOf host target = b at *
  rw [if_neg (not_or.2 ⟨hne, fun hc => hnew (List.contains_iff_mem.1 hc)⟩)]
  have hmem : ∀ x, x ∈ (members host a b).toList ↔ OnWalk host a b x := fun x =>
    IndexSet.mem_toList.trans (h.mem_members hsource htarget)
  have hnodup : (members host a b).toList.Nodup := IndexSet.nodup_toList _
  simp only [h.inspect_reached htarget, bind, Except.bind]
  split
  · next hnil =>
      rw [hnil] at hmem
      have hnone : ¬ ReflTransGen (Edge host) b a := by
        rw [← exists_onWalk_iff]
        rintro ⟨x, hx⟩
        exact absurd ((hmem x).2 hx) List.not_mem_nil
      exact ⟨none, _, host, rfl, rfl, rfl, by simp [hnone], fun _ => ⟨rfl, rfl, rfl⟩, by simp⟩
  · next first rest hcons =>
      rw [hcons] at hmem hnodup
      obtain ⟨root, last, hok, hmerges, hcollapsed⟩ := h.collapse hnodup fun x hx =>
        h.isRoot_of_onWalk htarget ((hmem x).1 hx)
      simp only [hok]
      refine ⟨some root, _, last, rfl, rfl, rfl, ?_, by simp, fun r hr => ?_⟩
      · rw [← exists_onWalk_iff]
        simp only [Option.isSome_some, true_iff]
        exact ⟨first, (hmem first).1 List.mem_cons_self⟩
      · obtain rfl := Option.some_injective _ hr
        refine ⟨?_, ⟨first, rest, hmem, hmerges⟩, rfl, ?_⟩
        · rwa [show (OnWalk host a b) = (· ∈ first :: rest) from funext fun x =>
            propext (hmem x).symm]
        · have hset : {x | OnWalk host a b x} = ((first :: rest).toFinset : Set Nat) := by
            ext x
            rw [Set.mem_ofPred_eq, ← hmem, Finset.mem_coe, List.mem_toFinset]
          rw [hset, Set.ncard_coe_finset, List.toFinset_card_of_nodup hnodup, List.length_cons]
          exact Nat.add_assoc _ _ _

/-! ## Sessions -/

/-- What the detector remembers: it counts its searches, each for a pair of its own, and an
entity of such a pair is one of the first `n`. -/
structure Tally (n : Nat) (d : Detector) : Prop where
  nodup : d.probed.Nodup
  attempts_eq : d.attempts = d.probed.length
  lt : ∀ pair ∈ d.probed, pair.1 < pair.2 ∧ pair.2 < n

theorem tally_start (n : Nat) : Tally n .start := ⟨List.nodup_nil, rfl, by simp [start]⟩

theorem Tally.search {n : Nat} {d d' : Detector} {found : Option Nat} {a b : Nat}
    (h : Tally n d) (hsearch : d.Search host a b found d' host')
    (hnew : ¬ d.Searched a b) (hne : a ≠ b) (ha : a < n) (hb : b < n) : Tally n d' where
  nodup := by
    rw [hsearch.probed_eq]
    exact List.nodup_cons.2 ⟨hnew, h.nodup⟩
  attempts_eq := by
    rw [hsearch.attempts_eq, hsearch.probed_eq, h.attempts_eq, List.length_cons]
  lt pair hpair := by
    rw [hsearch.probed_eq] at hpair
    rcases List.mem_cons.1 hpair with rfl | hpair
    · simp only [Nat.min_def, Nat.max_def]
      split <;> constructor <;> omega
    · exact h.lt pair hpair

/-- **There are no more searches than pairs.** -/
theorem Tally.attempts_le {n : Nat} {d : Detector} (h : Tally n d) :
    d.attempts ≤ n * (n - 1) / 2 := by
  -- a pair is counted at its larger entity, which has that many smaller ones
  have hsub : d.probed.toFinset.image (fun pair => (⟨pair.2, pair.1⟩ : (_ : Nat) × Nat)) ⊆
      (Finset.range n).sigma Finset.range := by
    intro pair hpair
    obtain ⟨pair, hmem, rfl⟩ := Finset.mem_image.1 hpair
    obtain ⟨hlt, hn⟩ := h.lt pair (List.mem_toFinset.1 hmem)
    exact Finset.mem_sigma.2 ⟨Finset.mem_range.2 hn, Finset.mem_range.2 hlt⟩
  have hinj :
      Function.Injective fun pair : Nat × Nat => (⟨pair.2, pair.1⟩ : (_ : Nat) × Nat) := by
    rintro ⟨a, b⟩ ⟨c, d⟩ heq
    simp only [Sigma.mk.injEq, heq_eq_eq] at heq
    rw [heq.1, heq.2]
  calc d.attempts = d.probed.toFinset.card := by
        rw [h.attempts_eq, List.toFinset_card_of_nodup h.nodup]
    _ = (d.probed.toFinset.image fun pair => (⟨pair.2, pair.1⟩ : (_ : Nat) × Nat)).card :=
        (Finset.card_image_of_injective _ hinj).symm
    _ ≤ ((Finset.range n).sigma Finset.range).card := Finset.card_le_card hsub
    _ = ∑ b ∈ Finset.range n, b := by simp
    _ = n * (n - 1) / 2 := Finset.sum_range_id n

end Detector

open Detector

variable (σ) in
/-- The detectors that can be met: they have been shown edges of sound hosts with at most `n`
entities, and from one edge to the next the host may have changed in any way. -/
inductive Session (n : Nat) : Detector → Prop
  /-- No edge was shown. -/
  | start : Session n .start
  /-- An edge was shown. -/
  | probe {d d' : Detector} {host host' : σ} {source target : Nat} {found : Option Nat} :
      Session n d → Sound host → size host ≤ n → source < size host → target < size host →
      d.probe host source target = .ok (found, d', host') → Session n d'

theorem Session.tally {n : Nat} {d : Detector} (h : Session σ n d) : Tally n d := by
  induction h with
  | start => exact tally_start n
  | @probe d d' host host' source target found _ hhost hn hs ht hprobe ih =>
      by_cases hseen : rootOf host source = rootOf host target ∨
          d.Searched (rootOf host source) (rootOf host target)
      · rw [d.probe_of_searched hseen, Except.ok.injEq, Prod.mk.injEq, Prod.mk.injEq] at hprobe
        exact hprobe.2.1 ▸ ih
      · obtain ⟨hne, hnew⟩ := not_or.1 hseen
        obtain ⟨found', d₁, host₁, hok, hsearch⟩ := d.probe_of_new hhost hs ht hne hnew
        rw [hok, Except.ok.injEq, Prod.mk.injEq, Prod.mk.injEq] at hprobe
        have hlt : ∀ {e}, e < size host → rootOf host e < n := fun he =>
          (hhost.isRoot_rootOf he).lt_size.trans_le hn
        exact hprobe.2.1 ▸ ih.search hsearch hnew hne (hlt hs) (hlt ht)

/-- **What the detector does.**  In any session over `n` entities it has made at most
`n * (n - 1) / 2` searches, each for a pair of its own.  Shown an edge within a class, or
between two that it has searched for, it does nothing.  Otherwise it makes a search, which
collapses exactly the walks that close a cycle. -/
theorem probe_collapses_walks {n : Nat} {d : Detector} (hd : Session σ n d)
    (hhost : Sound host) (hs : source < size host) (ht : target < size host) :
    (d.Tally n ∧ d.attempts ≤ n * (n - 1) / 2) ∧
    (rootOf host source = rootOf host target ∨
        d.Searched (rootOf host source) (rootOf host target) →
      d.probe host source target = .ok (none, d, host)) ∧
    (rootOf host source ≠ rootOf host target →
      ¬ d.Searched (rootOf host source) (rootOf host target) →
      ∃ found d' host', d.probe host source target = .ok (found, d', host') ∧
        d.Search host (rootOf host source) (rootOf host target) found d' host') :=
  ⟨⟨hd.tally, hd.tally.attempts_le⟩, d.probe_of_searched, d.probe_of_new hhost hs ht⟩

end Cycle

/-! ## A pool with edges -/

namespace SubsetGraph

open PointerChannels.Cycle

/-- What a change of one set can add to the others. -/
theorem mem_modify {sets : Array IndexSet} {change : IndexSet → IndexSet} {i x y : Nat}
    (h : y ∈ (sets.modify i change)[x]?.getD .empty) :
    y ∈ sets[x]?.getD .empty ∨ y ∈ change (sets[x]?.getD .empty) := by
  rw [Array.getElem?_modify] at h
  split at h
  · cases hx : sets[x]? with
    | none => simp [hx] at h
    | some set => exact .inr (by simpa [hx] using h)
  · exact .inl h

instance : LawfulHost SubsetGraph where
  pool g := g.pool
  Fits _ := True
  size_eq _ := rfl
  rootOf_eq _ _ := rfl
  inspect_ok _ _ _ _ := rfl
  unifyRoots_ok {g a b} _ hforest ha hb hne := by
    obtain ⟨loser, survivor, pool, hmerge, hpair, hjoined⟩ := hforest.merge ha hb hne
    have hunify := Pool.unify_handle ha hb hne
    rw [hmerge] at hunify
    refine ⟨loser, survivor, _, bind_eq_ok.2 ⟨(survivor, pool), hunify, rfl⟩, trivial, hpair,
      hjoined, fun x y hy => ?_⟩
    rcases mem_modify hy with hy | hy
    · rcases mem_modify hy with hy | hy
      · exact ⟨x, hy⟩
      · exact absurd hy (IndexSet.not_mem_empty y)
    · rcases IndexSet.mem_union.1 hy with hy | hy
      · rcases mem_modify hy with hy | hy
        · exact ⟨x, hy⟩
        · exact absurd hy (IndexSet.not_mem_empty y)
      · exact ⟨_, hy⟩

/-- Successors are checked set by set. -/
theorem sound_of_forall {g : SubsetGraph} (hforest : g.pool.Forest)
    (h : ∀ set ∈ g.successors.toList, ∀ y ∈ set.toList, y < g.pool.size) : Sound g := by
  refine ⟨trivial, hforest, fun x y hy => ?_⟩
  have hy : y ∈ g.successors[x]?.getD .empty := hy
  cases hx : g.successors[x]? with
  | none =>
      rw [hx] at hy
      exact absurd hy (IndexSet.not_mem_empty y)
  | some set =>
      rw [hx] at hy
      exact h set (Array.mem_toList_iff.2 (Array.mem_of_getElem? hx)) y
        (IndexSet.mem_toList.2 hy)

/-- Six registers, two of them in one class. -/
def tangledActions : List Pool.Action :=
  [.createRegister 0 "a", .createRegister 1 "b", .createRegister 2 "c", .createRegister 3 "d",
    .createRegister 4 "e", .createRegister 5 "f", .unify ⟨0, 4⟩ ⟨0, 7⟩]

/-- Edges from `2` to `3`, from `3` to `7`, which is in the class of `4`, and from there back
to `2` and to `3`; and a branch from `3` to `5` and `6` that leads nowhere. -/
def tangled (p : Pool) : SubsetGraph where
  pool := p
  successors :=
    #[.empty, .empty, .ofList [3], .ofList [5, 7], .ofList [2, 3], .ofList [6], .empty, .empty]

/-- The walks from `3` to `2` go through the class of `4` but not along the branch. -/
theorem probe_collapses_walks_tangled : ∃ p, (Pool.new 0 none).run tangledActions = .ok p ∧
    Session SubsetGraph 8 .start ∧ Sound (tangled p) ∧ ∃ d g,
      Detector.start.probe (tangled p) 2 3 = .ok (some 2, d, g) ∧
      Detector.start.Search (tangled p) 2 3 (some 2) d g ∧
      d.attempts = 1 ∧ d.unifications = 2 ∧ g.pool.rootOf 7 = 2 ∧ g.pool.rootOf 5 = 5 := by
  have hrun : (do
      let p ← ((Pool.new 0 none).run tangledActions).toOption
      let run ← (Detector.start.probe (tangled p) 2 3).toOption
      return decide (run.1 = some 2 ∧
        (∀ set ∈ (tangled p).successors.toList, ∀ y ∈ set.toList, y < (tangled p).pool.size) ∧
        (p.size = 8 ∧ p.rootOf 2 = 2 ∧ p.rootOf 3 = 3) ∧ run.2.1.attempts = 1 ∧
        run.2.1.unifications = 2 ∧ run.2.2.pool.rootOf 7 = 2 ∧ run.2.2.pool.rootOf 5 = 5)) =
        some true := by decide +kernel
  simp only [Option.bind_eq_bind, Option.bind_eq_some_iff, toOption_eq_some, Option.pure_def,
    Option.some.injEq, decide_eq_true_eq, Prod.exists] at hrun
  obtain ⟨p, hp, found, d, g, hprobe, rfl, hlt, ⟨hsize, h2, h3⟩, hcounts⟩ := hrun
  have hsound : Sound (tangled p) := sound_of_forall (Pool.run_new hp).1.forest hlt
  have hmem : ∀ {e}, e < 8 → e < CycleHost.size (tangled p) := fun he => he.trans_eq hsize.symm
  obtain ⟨-, -, hnew⟩ := probe_collapses_walks (n := 8) (.start (σ := SubsetGraph)) hsound
    (hmem (show 2 < 8 by decide)) (hmem (show 3 < 8 by decide))
  have h2' : CycleHost.rootOf (tangled p) 2 = 2 := h2
  have h3' : CycleHost.rootOf (tangled p) 3 = 3 := h3
  rw [h2', h3'] at hnew
  obtain ⟨found, d', g', hok, hsearch⟩ := hnew (by decide) (by decide)
  rw [hprobe, Except.ok.injEq, Prod.mk.injEq, Prod.mk.injEq] at hok
  obtain ⟨rfl, rfl, rfl⟩ := hok
  exact ⟨p, hp, .start, hsound, d, g, hprobe, hsearch, hcounts⟩

end SubsetGraph
end PointerChannels
