import PointerChannels.Encoding
import PointerChannels.Proofs.Fold
import Mathlib.Logic.Relation

/-!
# Closing summaries

Rounds carry the channels of callees to their callers.  While a channel is missing somewhere,
every round brings it to one more function, and a channel that is missing somewhere is held
somewhere too.  So one round per function is enough, the last of which sees that nothing
changes, and a closed summary has exactly the channels of the functions that calls lead to.

## Main definitions

* `Closes` — the rounds as a loop without a bound, with their number.

## Main statements

* `closes_in_rounds` — closing ends by itself within one round per function, and says what the
  closed summaries hold.
* `closeSummaries_ok` — closing succeeds, in terms of the holders of each channel.
* `mem_of_closeSummaries` — the same of any closing that succeeded.
-/

namespace PointerChannels.Encoding

/-- One function calls another. -/
def Edge (calls : List (FunctionId × List FunctionId)) (caller callee : FunctionId) : Prop :=
  ∃ callees, (caller, callees) ∈ calls ∧ callee ∈ callees

/-- The functions whose summaries hold a channel. -/
def holders (summaries : Array IndexSet) (x : Channel) : Finset FunctionId :=
  (Finset.range summaries.size).filter fun f => summaries[f]?.any (·.contains x)

variable {calls : List (FunctionId × List FunctionId)} {s t : Array IndexSet} {x : Channel}
  {f caller callee : FunctionId}

theorem mem_holders : f ∈ holders s x ↔ ∃ channels, s[f]? = some channels ∧ x ∈ channels := by
  rw [holders, Finset.mem_filter, Finset.mem_range, Option.any_eq_true]
  simp only [IndexSet.contains_iff]
  constructor
  · exact fun h => h.2
  · rintro ⟨channels, hf, hx⟩
    exact ⟨(Array.getElem?_eq_some_iff.1 hf).1, channels, hf, hx⟩

theorem mem_holders_iff {channels : IndexSet} (h : s[f]? = some channels) :
    f ∈ holders s x ↔ x ∈ channels := by
  rw [mem_holders, h]
  simp

/-- Channels added to one summary. -/
theorem mem_holders_modify {channels : IndexSet} (hcaller : caller < s.size) :
    f ∈ holders (s.modify caller (·.union channels)) x ↔
      f ∈ holders s x ∨ f = caller ∧ x ∈ channels := by
  rw [mem_holders, mem_holders, Array.getElem?_modify]
  split
  · next heq =>
      subst heq
      rw [Array.getElem?_eq_getElem hcaller]
      simp
  · next hne =>
      simp [Ne.symm hne]

/-! ## One call -/

/-- A caller takes over the channels of a callee. -/
theorem absorb_ok (hcaller : caller < s.size) (hcallee : callee < s.size) :
    ∃ new t, absorb caller s callee = .ok (new, t) ∧ t.size = s.size ∧
      (∀ x f, f ∈ holders t x ↔ f ∈ holders s x ∨ f = caller ∧ callee ∈ holders s x) ∧
      (new = false → t = s) := by
  unfold absorb
  split
  · next heq =>
      subst heq
      refine ⟨false, s, rfl, rfl, fun x f => ?_, fun _ => rfl⟩
      constructor
      · exact Or.inl
      · rintro (hf | ⟨rfl, hf⟩) <;> exact hf
  · have htheirs := Array.getElem?_eq_getElem hcallee
    have hours := Array.getElem?_eq_getElem hcaller
    simp only [entryAt_eq_ok.2 htheirs, entryAt_eq_ok.2 hours, bind, Except.bind]
    split
    · next hsubset =>
        refine ⟨false, s, rfl, rfl, fun x f => ?_, fun _ => rfl⟩
        constructor
        · exact Or.inl
        · rintro (hf | ⟨rfl, hf⟩)
          · exact hf
          · exact (mem_holders_iff hours).2
              (IndexSet.subset_iff.1 hsubset x ((mem_holders_iff htheirs).1 hf))
    · refine ⟨true, _, rfl, Array.size_modify, fun x f => ?_, by simp⟩
      rw [mem_holders_modify hcaller, mem_holders_iff htheirs]

/-- A caller that already holds the channels of a callee stays as it is. -/
theorem absorb_settled (hcaller : caller < s.size) (hcallee : callee < s.size)
    (h : ∀ x, callee ∈ holders s x → caller ∈ holders s x) :
    absorb caller s callee = .ok (false, s) := by
  unfold absorb
  split
  · rfl
  · have htheirs := Array.getElem?_eq_getElem hcallee
    have hours := Array.getElem?_eq_getElem hcaller
    have hsubset : s[callee].subset s[caller] = true := by
      rw [IndexSet.subset_iff]
      intro x hx
      exact (mem_holders_iff hours).1 (h x ((mem_holders_iff htheirs).2 hx))
    simp only [entryAt_eq_ok.2 htheirs, entryAt_eq_ok.2 hours, bind, Except.bind]
    rw [if_pos hsubset]
    rfl

/-! ## One round -/

/-- What rounds may do: nothing is lost, and what is new comes from a
function that calls lead to. -/
structure Carries (calls : List (FunctionId × List FunctionId)) (s t : Array IndexSet) :
    Prop where
  size_eq : t.size = s.size
  subset : ∀ x, holders s x ⊆ holders t x
  source : ∀ {x f}, f ∈ holders t x →
    ∃ f', Relation.ReflTransGen (Edge calls) f f' ∧ f' ∈ holders s x

theorem Carries.refl (s : Array IndexSet) : Carries calls s s :=
  ⟨rfl, fun _ => Finset.Subset.refl _, fun hf => ⟨_, .refl, hf⟩⟩

theorem Carries.trans {u : Array IndexSet} (h : Carries calls s t) (h' : Carries calls t u) :
    Carries calls s u := by
  refine ⟨h'.size_eq.trans h.size_eq, fun x => (h.subset x).trans (h'.subset x), ?_⟩
  intro x f hf
  obtain ⟨f', hpath, hf'⟩ := h'.source hf
  obtain ⟨f'', hpath', hf''⟩ := h.source hf'
  exact ⟨f'', hpath.trans hpath', hf''⟩

theorem mem_edges : (caller, callee) ∈ calls.flatMap (fun call => call.2.map (call.1, ·)) ↔
    Edge calls caller callee := by
  simp only [List.mem_flatMap, List.mem_map, Prod.mk.injEq, Edge]
  constructor
  · rintro ⟨⟨_, callees⟩, hmem, _, hcallee, rfl, rfl⟩
    exact ⟨callees, hmem, hcallee⟩
  · rintro ⟨callees, hmem, hcallee⟩
    exact ⟨(caller, callees), hmem, callee, hcallee, rfl, rfl⟩

/-- **A round carries every channel at least one call further**, and changes nothing if it says
so. -/
theorem round_ok (hcalls : ∀ {f f'}, Edge calls f f' → f < s.size ∧ f' < s.size) :
    ∃ changed t, round calls s = .ok (changed, t) ∧ Carries calls s t ∧
      (∀ {x f f'}, Edge calls f f' → f' ∈ holders s x → f ∈ holders t x) ∧
      (changed = false → t = s) := by
  have hfold := foldlM_ok (s := (false, s))
    (l := calls.flatMap fun call => call.2.map (call.1, ·))
    (f := fun t e => do
      let r ← absorb e.1 t.2 e.2
      return (t.1 || r.1, r.2))
    (G := fun t => Carries calls s t.2)
    (R := fun t u => (∀ x, holders t.2 x ⊆ holders u.2 x) ∧
      (u.1 = false → t.1 = false ∧ u.2 = t.2))
    (D := fun e t => ∀ x, e.2 ∈ holders s x → e.1 ∈ holders t.2 x)
    (fun t => ⟨fun _ => Finset.Subset.refl _, fun h => ⟨h, rfl⟩⟩) ?_
    (fun hdone hstep x hx => hstep.1 x (hdone x hx)) ?_ (Carries.refl s)
  · obtain ⟨⟨changed, t⟩, hround, hcarries, ⟨-, hsame⟩, hdone⟩ := hfold
    exact ⟨changed, t, hround, hcarries, fun hedge hx => hdone _ (mem_edges.2 hedge) _ hx,
      fun h => (hsame h).2⟩
  · rintro t u w ⟨htu, hsame⟩ ⟨huw, hsame'⟩
    refine ⟨fun x => (htu x).trans (huw x), fun h => ?_⟩
    obtain ⟨h, heq⟩ := hsame' h
    exact ⟨(hsame h).1, heq.trans (hsame h).2⟩
  · rintro ⟨changed, t⟩ ⟨caller, callee⟩ he hcarries
    have hedge := mem_edges.1 he
    obtain ⟨hcaller, hcallee⟩ := hcalls hedge
    rw [← hcarries.size_eq] at hcaller hcallee
    obtain ⟨new, u, habsorb, hsize, hmem, hsame⟩ := absorb_ok hcaller hcallee
    have hsubset : ∀ x, holders t x ⊆ holders u x := fun x f hf => (hmem x f).2 (.inl hf)
    refine ⟨(changed || new, u), by simp only [habsorb]; rfl, ?_, ⟨hsubset, ?_⟩, ?_⟩
    · refine hcarries.trans ⟨hsize, hsubset, fun {x f} hf => ?_⟩
      rcases (hmem x f).1 hf with hf | ⟨rfl, hf⟩
      · exact ⟨f, .refl, hf⟩
      · exact ⟨callee, .single hedge, hf⟩
    · intro h
      obtain ⟨hchanged, hnew⟩ := Bool.or_eq_false_iff.1 h
      exact ⟨hchanged, hsame hnew⟩
    · exact fun x hx => (hmem x caller).2 (.inr ⟨rfl, hcarries.subset x hx⟩)

/-! ## All rounds -/

/-- Every caller of a holder of the channel holds it. -/
def Settled (calls : List (FunctionId × List FunctionId)) (s : Array IndexSet) (x : Channel) :
    Prop :=
  ∀ f f', Edge calls f f' → f' ∈ holders s x → f ∈ holders s x

theorem Settled.of_path (h : Settled calls s x) {f' : FunctionId}
    (hpath : Relation.ReflTransGen (Edge calls) f f') (hf' : f' ∈ holders s x) :
    f ∈ holders s x := by
  induction hpath using Relation.ReflTransGen.head_induction_on with
  | refl => exact hf'
  | head hedge _ ih => exact h _ _ hedge ih

/-- A settled channel stays where it is. -/
theorem Settled.carry (h : Settled calls s x) (hst : Carries calls s t) :
    Settled calls t x := by
  intro f f' hedge hf'
  obtain ⟨f'', hpath, hf''⟩ := hst.source hf'
  exact hst.subset x (h.of_path (.head hedge hpath) hf'')

/-- A settled state is one that a round leaves as it is. -/
theorem round_settled (hcalls : ∀ {f f'}, Edge calls f f' → f < s.size ∧ f' < s.size)
    (hsettled : ∀ x, Settled calls s x) : round calls s = .ok (false, s) := by
  have hfold := foldlM_ok (s := (false, s))
    (l := calls.flatMap fun call => call.2.map (call.1, ·))
    (f := fun t e => do
      let r ← absorb e.1 t.2 e.2
      return (t.1 || r.1, r.2))
    (G := fun t => t = (false, s)) (R := fun _ _ => True) (D := fun _ _ => True)
    (fun _ => trivial) (fun _ _ => trivial) (fun _ _ => trivial) ?_ rfl
  · obtain ⟨t, hround, rfl, -⟩ := hfold
    exact hround
  · rintro t ⟨caller, callee⟩ he rfl
    have hedge := mem_edges.1 he
    refine ⟨(false, s), ?_, rfl, trivial, trivial⟩
    simp only [absorb_settled (hcalls hedge).1 (hcalls hedge).2 fun x => hsettled x _ _ hedge]
    rfl

theorem not_settled_iff : ¬ Settled calls s x ↔
    ∃ f f', Edge calls f f' ∧ f' ∈ holders s x ∧ f ∉ holders s x := by
  simp only [Settled, not_forall, exists_prop]

/-- A channel that is not settled is held by some function and missed by another. -/
theorem card_holders_of_not_settled
    (hcalls : ∀ {f f'}, Edge calls f f' → f < s.size ∧ f' < s.size) (h : ¬ Settled calls s x) :
    0 < (holders s x).card ∧ (holders s x).card < s.size := by
  obtain ⟨f, f', hedge, hf', hf⟩ := not_settled_iff.1 h
  refine ⟨Finset.card_pos.2 ⟨f', hf'⟩, ?_⟩
  have hlt : (holders s x).card < (Finset.range s.size).card := by
    refine Finset.card_lt_card ⟨Finset.filter_subset _ _, fun hall => hf (hall ?_)⟩
    exact Finset.mem_range.2 (hcalls hedge).1
  rwa [Finset.card_range] at hlt

/-- A channel that is not settled reaches one more function in each round. -/
theorem Carries.card_holders_lt (hst : Carries calls s t)
    (hcarried : ∀ {x f f'}, Edge calls f f' → f' ∈ holders s x → f ∈ holders t x)
    (h : ¬ Settled calls s x) : (holders s x).card < (holders t x).card := by
  obtain ⟨f, f', hedge, hf', hf⟩ := not_settled_iff.1 h
  exact Finset.card_lt_card ⟨hst.subset x, fun hsub => hf (hsub (hcarried hedge hf'))⟩

/-- Summaries are closed in a number of rounds: all but the last change something, and the last
changes nothing. -/
inductive Closes (calls : List (FunctionId × List FunctionId)) :
    Array IndexSet → Nat → Array IndexSet → Prop
  | done {s t : Array IndexSet} : round calls s = .ok (false, t) → Closes calls s 1 t
  | again {s t u : Array IndexSet} {rounds : Nat} : round calls s = .ok (true, t) →
      Closes calls t rounds u → Closes calls s (rounds + 1) u

/-- The bound on the rounds does not show when it is large enough. -/
theorem Closes.closeFor_eq {rounds bound : Nat} (h : Closes calls s rounds t)
    (hbound : rounds ≤ bound) : closeFor calls bound s = .ok (rounds, t) := by
  induction h generalizing bound with
  | done hround =>
      obtain ⟨bound, rfl⟩ := Nat.exists_eq_add_of_le' hbound
      rw [closeFor, hround]
      rfl
  | again hround _ ih =>
      obtain ⟨bound, rfl⟩ := Nat.exists_eq_add_of_le' (Nat.le_of_add_left_le hbound)
      have hclose := ih (Nat.le_of_succ_le_succ hbound)
      rw [closeFor, hround]
      simp only [bind, Except.bind, hclose]
      rfl

/-- **Rounds settle every channel.**  With `due` rounds to go, each channel is settled or
misses at most `due` functions; a round brings it to one of these at least, and one more round
sees that nothing changes. -/
theorem exists_closes (due : Nat)
    (hcalls : ∀ {f f'}, Edge calls f f' → f < s.size ∧ f' < s.size)
    (hdue : ∀ x, Settled calls s x ∨ s.size ≤ due + (holders s x).card) :
    ∃ rounds t, Closes calls s rounds t ∧ rounds ≤ due + 1 ∧ Carries calls s t ∧
      ∀ x, Settled calls t x := by
  induction due generalizing s with
  | zero =>
      have hsettled : ∀ x, Settled calls s x := by
        intro x
        by_contra h
        have hle := (hdue x).resolve_left h
        have hlt := (card_holders_of_not_settled hcalls h).2
        omega
      exact ⟨1, s, .done (round_settled hcalls hsettled), le_rfl, .refl s, hsettled⟩
  | succ due ih =>
      obtain ⟨changed, t, hround, hcarries, hcarried, hsame⟩ := round_ok hcalls
      cases changed with
      | false =>
          obtain rfl := hsame rfl
          exact ⟨1, t, .done hround, by omega, hcarries, fun x f f' => hcarried⟩
      | true =>
          have hdue' : ∀ x, Settled calls t x ∨ t.size ≤ due + (holders t x).card := by
            intro x
            by_cases hsettled : Settled calls s x
            · exact .inl (hsettled.carry hcarries)
            · have hle := (hdue x).resolve_left hsettled
              have hlt := hcarries.card_holders_lt hcarried hsettled
              rw [hcarries.size_eq]
              omega
          obtain ⟨rounds, u, hcloses, hrounds, hcarries', hsettled⟩ :=
            ih (by rw [hcarries.size_eq]; exact hcalls) hdue'
          exact ⟨rounds + 1, u, .again hround hcloses, by omega,
            hcarries.trans hcarries', hsettled⟩

/-- A channel that is not settled has one holder at least, so it misses fewer
functions than there are. -/
theorem exists_closes_within (hcalls : ∀ {f f'}, Edge calls f f' → f < s.size ∧ f' < s.size) :
    ∃ rounds t, Closes calls s rounds t ∧ rounds ≤ max 1 s.size ∧ t.size = s.size ∧
      ∀ x f, f ∈ holders t x ↔
        ∃ f', Relation.ReflTransGen (Edge calls) f f' ∧ f' ∈ holders s x := by
  have hdue : ∀ x, Settled calls s x ∨ s.size ≤ s.size - 1 + (holders s x).card := by
    intro x
    by_cases hsettled : Settled calls s x
    · exact .inl hsettled
    · have hpos := (card_holders_of_not_settled hcalls hsettled).1
      exact .inr (by omega)
  obtain ⟨rounds, t, hcloses, hrounds, hcarries, hsettled⟩ :=
    exists_closes (s.size - 1) hcalls hdue
  refine ⟨rounds, t, hcloses, by omega, hcarries.size_eq, fun x f => ⟨hcarries.source, ?_⟩⟩
  rintro ⟨f', hpath, hf'⟩
  exact (hsettled x).of_path hpath (hcarries.subset x hf')

theorem Closes.closeSummaries_eq {rounds : Nat} (h : Closes calls s rounds t)
    (hrounds : rounds ≤ max 1 s.size) : closeSummaries calls s = .ok (rounds, t) :=
  h.closeFor_eq (by omega)

/-- **A closed summary holds exactly the channels of the functions that calls lead to.** -/
theorem closeSummaries_ok (hcalls : ∀ {f f'}, Edge calls f f' → f < s.size ∧ f' < s.size) :
    ∃ rounds t, closeSummaries calls s = .ok (rounds, t) ∧ t.size = s.size ∧
      ∀ x f, f ∈ holders t x ↔
        ∃ f', Relation.ReflTransGen (Edge calls) f f' ∧ f' ∈ holders s x := by
  obtain ⟨rounds, t, hcloses, hrounds, hclosed⟩ := exists_closes_within hcalls
  exact ⟨rounds, t, hcloses.closeSummaries_eq hrounds, hclosed⟩

/-- **Summaries are closed within one round per function**, however the calls recurse and in
whatever order they come: the rounds end by themselves, and each function is left with the
channels of all functions that calls lead to from it. -/
theorem closes_in_rounds {calls : List (FunctionId × List FunctionId)} {s : Array IndexSet}
    (hcalls : ∀ call ∈ calls, call.1 < s.size ∧ ∀ callee ∈ call.2, callee < s.size) :
    ∃ rounds t, closeSummaries calls s = .ok (rounds, t) ∧ Closes calls s rounds t ∧
      rounds ≤ max 1 s.size ∧ t.size = s.size ∧
      ∀ f channels, t[f]? = some channels → ∀ x, x ∈ channels ↔
        ∃ g initial, Relation.ReflTransGen (Edge calls) f g ∧ s[g]? = some initial ∧
          x ∈ initial := by
  have hedges : ∀ {f f'}, Edge calls f f' → f < s.size ∧ f' < s.size := by
    rintro f f' ⟨callees, hcall, hcallee⟩
    exact ⟨(hcalls _ hcall).1, (hcalls _ hcall).2 f' hcallee⟩
  obtain ⟨rounds, t, hcloses, hrounds, hsize, hclosed⟩ := exists_closes_within hedges
  refine ⟨rounds, t, hcloses.closeSummaries_eq hrounds, hcloses, hrounds, hsize, ?_⟩
  intro f channels hf x
  rw [← mem_holders_iff hf, hclosed]
  simp only [mem_holders, exists_and_left]

/-- Four functions call each other in a ring, against the order in which the calls come. -/
def ringCalls : List (FunctionId × List FunctionId) :=
  [(0, [1, 0]), (1, [2]), (2, [3]), (3, [0])]

/-- Each of the four functions has a channel of its own. -/
def ringSummaries : Array IndexSet :=
  #[.singleton 10, .singleton 11, .singleton 12, .singleton 13]

theorem closes_in_rounds_ring :
    (∀ call ∈ ringCalls, call.1 < ringSummaries.size ∧
      ∀ callee ∈ call.2, callee < ringSummaries.size) ∧
    ∃ t, closeSummaries ringCalls ringSummaries = .ok (4, t) ∧
      Closes ringCalls ringSummaries 4 t ∧
      4 ≤ max 1 ringSummaries.size ∧ t[2]? = some (.ofList [10, 11, 12, 13]) := by
  have hcalls : ∀ call ∈ ringCalls, call.1 < ringSummaries.size ∧
      ∀ callee ∈ call.2, callee < ringSummaries.size := by decide
  have hrun : ∃ t, closeSummaries ringCalls ringSummaries = .ok (4, t) ∧
      t[2]? = some (.ofList [10, 11, 12, 13]) := ⟨_, rfl, rfl⟩
  obtain ⟨t, hclose, hring⟩ := hrun
  obtain ⟨rounds, t', hclose', hcloses, hrounds, -⟩ := closes_in_rounds hcalls
  obtain ⟨rfl, rfl⟩ := Prod.mk.inj (Except.ok.inj (hclose.symm.trans hclose'))
  exact ⟨hcalls, t, hclose, hcloses, hrounds, hring⟩

/-! ## Runs that succeeded -/

/-- A round that succeeds has found every function that is called. -/
theorem callee_lt_of_round {r : Bool × Array IndexSet} (hok : round calls s = .ok r)
    {i j : FunctionId} (hedge : Edge calls i j) : j = i ∨ j < s.size := by
  have hok : (calls.flatMap fun call => call.2.map (call.1, ·)).foldlM
      (fun (t : Bool × Array IndexSet) (e : FunctionId × FunctionId) => do
        let r ← absorb e.1 t.2 e.2
        return (t.1 || r.1, r.2)) (false, s) = .ok r := hok
  have key := foldlM_of_ok
    (G := fun t => t.2.size = s.size) (R := fun _ _ => True)
    (D := fun (e : FunctionId × FunctionId) _ => e.2 = e.1 ∨ e.2 < s.size) (fun _ => trivial)
    (fun _ _ => trivial) (fun hdone _ => hdone) ?round rfl hok
  · exact key.2.2 (i, j) (mem_edges.2 hedge)
  case round =>
    rintro t u e - hsize hu
    obtain ⟨r, hr, hu⟩ := bind_eq_ok.1 hu
    obtain rfl := pure_eq_ok.1 hu
    unfold absorb at hr
    split at hr
    · next heq =>
        obtain rfl := Except.ok.inj hr
        exact ⟨hsize, trivial, .inl heq⟩
    · simp only [bind_eq_ok, entryAt_eq_ok] at hr
      obtain ⟨theirs, htheirs, ours, -, hr⟩ := hr
      have hlt : e.2 < s.size := hsize ▸ (Array.getElem?_eq_some_iff.1 htheirs).1
      split at hr
      · obtain rfl := pure_eq_ok.1 hr
        exact ⟨hsize, trivial, .inr hlt⟩
      · obtain rfl := pure_eq_ok.1 hr
        exact ⟨Array.size_modify.trans hsize, trivial, .inr hlt⟩

/-- Summaries that were closed belong to all functions that are called. -/
theorem edge_lt_of_closeSummaries {rounds : Nat}
    (hcallers : ∀ {i j}, Edge calls i j → i < s.size)
    (hok : closeSummaries calls s = .ok (rounds, t)) {i j : FunctionId}
    (hedge : Edge calls i j) : i < s.size ∧ j < s.size := by
  rw [closeSummaries, closeFor, bind_eq_ok] at hok
  obtain ⟨r, hr, -⟩ := hok
  refine ⟨hcallers hedge, ?_⟩
  rcases callee_lt_of_round hr hedge with rfl | hj
  · exact hcallers hedge
  · exact hj

/-- **What closed summaries hold**, when closing them went through. -/
theorem mem_of_closeSummaries {rounds : Nat} (hcallers : ∀ {i j}, Edge calls i j → i < s.size)
    (hok : closeSummaries calls s = .ok (rounds, t)) : t.size = s.size ∧
      ∀ x f, f ∈ holders t x ↔
        ∃ f', Relation.ReflTransGen (Edge calls) f f' ∧ f' ∈ holders s x := by
  obtain ⟨rounds₀, t₀, hok₀, hclosed⟩ :=
    closeSummaries_ok fun hedge => edge_lt_of_closeSummaries hcallers hok hedge
  obtain ⟨-, rfl⟩ := Prod.mk.inj (Except.ok.inj (hok.symm.trans hok₀))
  exact hclosed

end PointerChannels.Encoding
