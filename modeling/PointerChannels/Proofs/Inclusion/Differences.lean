import PointerChannels.Proofs.Inclusion.Least
import PointerChannels.Proofs.Pool.History

/-!
# What difference propagation leaves out

Difference propagation looks at a pointee when it is new to its root.  At the start of a run
nothing is new, so the pointees that the pool holds already flow along edges but are never
looked at by the loads, stores and calls of their root, unless the root is merged with another.
Over a pool that points nowhere nothing is lost; over a filled pool the answer may be smaller
than without difference propagation.

`Differences` says what remains true and gives the exact condition under which nothing
is lost: the least family that meets the constraints but for the pointees the pool
holds must be a solution.

## Main definitions

* `Reached` — a pool that operations and earlier runs lead to.
* `Unaffected` — difference propagation does not change the answer.
* `Differences` — how the answers with and without difference propagation compare.
-/

namespace PointerChannels.Inclusion

variable {p out : Pool} {constraints : List Constraint} {settings : Settings}
  {order : SetOrder} {stats : Stats} {T : Family}

/-! ## Pools a run may begin in -/

/-- A pool that operations and runs lead to, in any order. -/
inductive Reached : Pool → Prop
  /-- A new pool. -/
  | new (id : Nat) (capacity : Option Nat) : Reached (Pool.new id capacity)
  /-- An operation was performed. -/
  | perform {p q : Pool} {action : Pool.Action} :
      Reached p → p.perform action = .ok q → Reached q
  /-- Constraints were solved. -/
  | solve {p out : Pool} {settings : Settings} {order : SetOrder}
      {constraints : List Constraint} {stats : Stats} :
      Reached p → p.Closed → (∀ c ∈ constraints, c.Over p) →
      Inclusion.solve settings order p constraints = .ok (out, stats) → Reached out

theorem above_univ (p : Pool) : Family.Above (fun _ => Set.univ) p where
  le _ _ _ := trivial
  uniform _ := rfl

theorem outcome_of_solve (hp : p.Ready) (hc : ∀ c ∈ constraints, c.Over p)
    (hok : solve settings order p constraints = .ok (out, stats)) :
    Outcome settings p constraints out := by
  obtain ⟨out', stats', hok', hout, -⟩ :=
    solve_outcome settings order hp hc (above_univ p) ((solution_univ p constraints).beyond _)
  rw [hok, Except.ok.injEq, Prod.mk.injEq] at hok'
  rw [hok'.1]
  exact hout

/-- What a run has found lies within every family that meets what the
run is sure to look at. -/
theorem family_le_of_solve_above (hp : p.Ready) (hc : ∀ c ∈ constraints, c.Over p)
    (hok : solve settings order p constraints = .ok (out, stats)) (habove : T.Above p)
    (hT : SolutionBeyond p constraints (settings.spared p) T) : out.family ≤ T := by
  obtain ⟨out', stats', hok', -, hle⟩ := solve_outcome settings order hp hc habove hT
  rw [hok, Except.ok.injEq, Prod.mk.injEq] at hok'
  rw [hok'.1]
  exact hle

/-- **Operations and runs keep a pool intact**, so that another run may begin in it. -/
theorem Reached.intact (h : Reached p) : p.Intact := by
  induction h with
  | new id capacity => exact .new id capacity
  | perform _ hq ih => exact (ih.perform hq).1
  | solve _ hclosed hc hok ih => exact (outcome_of_solve ⟨hclosed, ih⟩ hc hok).ready.toIntact

theorem Reached.ready (h : Reached p) (hclosed : p.Closed) : p.Ready := ⟨hclosed, h.intact⟩

theorem reached_of_run {id : Nat} {capacity : Option Nat} {actions : List Pool.Action}
    (h : (Pool.new id capacity).run actions = .ok p) : Reached p :=
  foldlM_prefix (I := fun _ q => Reached q) (k := []) (fun _ _ _ _ hs ht => hs.perform ht)
    (.new id capacity) h

/-! ## With and without difference propagation -/

/-- Difference propagation does not change what the entities point to, whatever the rest of the
strategy. -/
def Unaffected (p : Pool) (constraints : List Constraint) : Prop :=
  ∀ (cycles : Bool) (discipline : Discipline) (order order' : SetOrder) (on off : Pool)
    (onStats offStats : Stats),
    solve ⟨cycles, discipline, true⟩ order p constraints = .ok (on, onStats) →
    solve ⟨cycles, discipline, false⟩ order' p constraints = .ok (off, offStats) →
    on.family = off.family

/-- How the answers with and without difference propagation compare. -/
structure Differences (p : Pool) (constraints : List Constraint) : Prop where
  /-- Both runs succeed.  Without difference propagation the answer is the least solution over
  what the pool holds.  With it the answer is a part of that, meets every constraint but for
  the pointees that the pool holds, and is the whole exactly when it meets every constraint. -/
  compare : ∀ (cycles : Bool) (discipline : Discipline) (order order' : SetOrder),
    ∃ on onStats off offStats,
      solve ⟨cycles, discipline, true⟩ order p constraints = .ok (on, onStats) ∧
      solve ⟨cycles, discipline, false⟩ order' p constraints = .ok (off, offStats) ∧
      IsLeast {T | T.Above p ∧ Solution p constraints T} off.family ∧
      on.family ∈ {T | T.Above p ∧ SolutionBeyond p constraints p.family T} ∧
      on.family ≤ off.family ∧
      (on.family = off.family ↔ Solution p constraints on.family)
  /-- Unless cycles are collapsed, the answer with difference propagation is the least family
  that meets every constraint but for the pointees that the pool holds. -/
  least : ∀ (discipline : Discipline) (order : SetOrder), ∃ on stats,
    solve ⟨false, discipline, true⟩ order p constraints = .ok (on, stats) ∧
    IsLeast {T | T.Above p ∧ SolutionBeyond p constraints p.family T} on.family
  /-- Nothing is lost exactly when that least family meets every constraint. -/
  unaffected_iff : Unaffected p constraints ↔
    ∃ T, IsLeast {T | T.Above p ∧ SolutionBeyond p constraints p.family T} T ∧
      Solution p constraints T
  /-- Nothing is lost when nothing that is loaded from, stored through or called points
  anywhere at the start. -/
  unaffected_of_empty : (∀ e, Through constraints e → p.family e = ∅) →
    Unaffected p constraints

section Compare

variable (hp : p.Ready) (hc : ∀ c ∈ constraints, c.Over p)

include hp hc

/-- Without difference propagation a run computes the least solution
over what the pool holds. -/
theorem isLeast_of_solve (hd : settings.differences = false)
    (hok : solve settings order p constraints = .ok (out, stats)) :
    IsLeast {T | T.Above p ∧ Solution p constraints T} out.family := by
  have hout := outcome_of_solve hp hc hok
  have hsolution := hout.solution
  rw [Settings.missed_eq_bot hd, solutionBeyond_bot] at hsolution
  refine ⟨⟨hout.above, hsolution⟩, fun T hT => ?_⟩
  exact family_le_of_solve_above hp hc hok hT.1 (hT.2.beyond _)

theorem beyond_of_solve (hok : solve settings order p constraints = .ok (out, stats)) :
    out.family ∈ {T | T.Above p ∧ SolutionBeyond p constraints p.family T} := by
  have hout := outcome_of_solve hp hc hok
  exact ⟨hout.above, hout.solution.mono fun e _ => Settings.missed_le e⟩

/-- With difference propagation alone a run never looks at what the pool holds. -/
theorem isLeast_beyond_of_solve (hcycles : settings.cycles = false)
    (hd : settings.differences = true)
    (hok : solve settings order p constraints = .ok (out, stats)) :
    IsLeast {T | T.Above p ∧ SolutionBeyond p constraints p.family T} out.family := by
  refine ⟨beyond_of_solve hp hc hok, fun T hT => family_le_of_solve_above hp hc hok hT.1 ?_⟩
  rw [Settings.spared_eq_family hcycles hd]
  exact hT.2

theorem exists_solve (settings : Settings) (order : SetOrder) :
    ∃ out stats, solve settings order p constraints = .ok (out, stats) := by
  obtain ⟨out, stats, hok, -⟩ :=
    solve_outcome settings order hp hc (above_univ p) ((solution_univ p constraints).beyond _)
  exact ⟨out, stats, hok⟩

/-- When the least family beyond what the pool holds is a solution, every run finds it. -/
theorem unaffected_of_solution
    (hT : IsLeast {T | T.Above p ∧ SolutionBeyond p constraints p.family T} T)
    (hsolution : Solution p constraints T) : Unaffected p constraints := by
  intro cycles discipline order order' on off onStats offStats hon hoff
  have hleast := isLeast_of_solve hp hc rfl hoff
  apply le_antisymm
  · exact family_le_of_solve_above hp hc hon hleast.1.1 (hleast.1.2.beyond _)
  · calc off.family ≤ T := hleast.2 ⟨hT.1.1, hsolution⟩
      _ ≤ on.family := hT.2 (beyond_of_solve hp hc hon)

end Compare

/-- **Difference propagation over a filled pool**: the answer is a part of the answer
without it, and both are equal exactly when the constraints, but for what the pool holds
already, ask for all. -/
theorem solve_differences (p : Pool) (hp : p.Ready) (constraints : List Constraint)
    (hc : ∀ c ∈ constraints, c.Over p) : Differences p constraints := by
  have hiff : Unaffected p constraints ↔
      ∃ T, IsLeast {T | T.Above p ∧ SolutionBeyond p constraints p.family T} T ∧
        Solution p constraints T := by
    constructor
    · intro h
      obtain ⟨on, onStats, hon⟩ := exists_solve hp hc ⟨false, .fifo, true⟩ .ascending
      obtain ⟨off, offStats, hoff⟩ := exists_solve hp hc ⟨false, .fifo, false⟩ .ascending
      refine ⟨on.family, isLeast_beyond_of_solve hp hc rfl rfl hon, ?_⟩
      rw [h false .fifo .ascending .ascending on off onStats offStats hon hoff]
      exact (isLeast_of_solve hp hc rfl hoff).1.2
    · rintro ⟨T, hT, hsolution⟩
      exact unaffected_of_solution hp hc hT hsolution
  refine ⟨fun cycles discipline order order' => ?_, fun discipline order => ?_, hiff,
    fun hempty => ?_⟩
  · obtain ⟨on, onStats, hon⟩ := exists_solve hp hc ⟨cycles, discipline, true⟩ order
    obtain ⟨off, offStats, hoff⟩ := exists_solve hp hc ⟨cycles, discipline, false⟩ order'
    have hleast := isLeast_of_solve hp hc rfl hoff
    have hle : on.family ≤ off.family :=
      family_le_of_solve_above hp hc hon hleast.1.1 (hleast.1.2.beyond _)
    refine ⟨on, onStats, off, offStats, hon, hoff, hleast, beyond_of_solve hp hc hon, hle, ?_⟩
    constructor
    · intro heq
      rw [heq]
      exact hleast.1.2
    · intro hsolution
      exact le_antisymm hle (hleast.2 ⟨(outcome_of_solve hp hc hon).above, hsolution⟩)
  · obtain ⟨on, stats, hon⟩ := exists_solve hp hc ⟨false, discipline, true⟩ order
    exact ⟨on, stats, hon, isLeast_beyond_of_solve hp hc rfl rfl hon⟩
  · obtain ⟨on, stats, hon⟩ := exists_solve hp hc ⟨false, .fifo, true⟩ .ascending
    have hleast := isLeast_beyond_of_solve hp hc rfl rfl hon
    refine hiff.2 ⟨on.family, hleast, solutionBeyond_bot.1 (hleast.1.2.mono fun e he => ?_)⟩
    rw [hempty e he]
    exact Set.empty_subset _

/-- A register that points to an object, which holds the address of another. -/
def filledActions : List Pool.Action :=
  [.createRegister 0 "p", .createRegister 1 "v", .create .allocaObject "a" .synthetic,
    .create .allocaObject "b" .synthetic, .addPointee ⟨0, 2⟩ ⟨0, 4⟩, .addPointee ⟨0, 4⟩ ⟨0, 5⟩]

/-- What the register points to is loaded. -/
def loadConstraints : List Constraint := [.load ⟨0, 3⟩ ⟨0, 2⟩]

/-- The load sees nothing with difference propagation and the address without it. -/
theorem solve_differences_ne : ∃ p on onStats off offStats,
    (Pool.new 0 none).run filledActions = .ok p ∧
    solve ⟨false, .fifo, true⟩ .ascending p loadConstraints = .ok (on, onStats) ∧
    solve ⟨false, .fifo, false⟩ .ascending p loadConstraints = .ok (off, offStats) ∧
    on.pointsTo 3 = .empty ∧ off.pointsTo 3 = .ofList [5] :=
  ⟨_, _, _, _, _, rfl, rfl, rfl, rfl, rfl⟩

theorem solve_differences_filledActions : ∃ p, (Pool.new 0 none).run filledActions = .ok p ∧
    p.Ready ∧ (∀ c ∈ loadConstraints, c.Over p) ∧ Differences p loadConstraints := by
  have hrun : ∃ p, (Pool.new 0 none).run filledActions = .ok p ∧ p.Closed ∧
      ∀ c ∈ loadConstraints, c.Over p := ⟨_, rfl, by decide, by decide⟩
  obtain ⟨p, hp, hclosed, hover⟩ := hrun
  have hready := (reached_of_run hp).ready hclosed
  exact ⟨p, hp, hready, hover, solve_differences p hready loadConstraints hover⟩

end PointerChannels.Inclusion
