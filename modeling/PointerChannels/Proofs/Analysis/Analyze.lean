import PointerChannels.Analysis
import PointerChannels.Proofs.Analysis.Exact
import PointerChannels.Proofs.Inclusion.Least
import PointerChannels.Proofs.Unification.Soundness

/-!
# The points-to analysis of a program

An analysis that ends answers with a graph that represents a solution of the program's
constraints, the least one in the precise mode.  So its targets respect the program in either
mode, and are the least that do in the precise one.

## Main statements

* `Analysis.represents_of_analyze` — the graph represents a solution.
* `Analysis.analyze_targets` — the targets respect the program, and are the
  least in the precise mode.
-/

namespace PointerChannels.Analysis

open Generation

variable {config : Config.Analysis} {program : Program} {result : Result}
  {order : Inclusion.SetOrder}

theorem generated_eq_ok {d : Draft} (h : generated config program = .ok d) :
    generate program config.maxEntities = .ok d := by
  unfold generated at h
  split at h
  · next draft hdraft => rw [hdraft, Except.ok.inj h]
  · exact absurd h (by simp)

/-- What a solver leaves, in whichever order it takes the members of sets: a solution over the
same entities, and with the inclusion solver the least one. -/
theorem solve_solution {solver : Solver} {p out : Pool} {constraints : List Constraint}
    {stats : Solver.Stats} (hp : p.Fresh) (hc : ∀ c ∈ constraints, c.Over p)
    (h : solver.solve p constraints order = .ok (out, stats)) :
    Pool.SameEntities p out ∧ out.Forest ∧ Solution p constraints out.family ∧
      (∀ e, ∀ o ∈ out.family e, p.IsObject o) ∧
      ∀ settings, solver = .inclusion settings →
        ∀ F, Solution p constraints F → out.family ≤ F := by
  cases solver with
  | unification =>
      obtain ⟨⟨pool, s⟩, hs, heq⟩ := map_eq_ok.1 h
      obtain ⟨rfl, -⟩ := Prod.mk.inj heq
      obtain ⟨out', s', hs', hsame, hforest, hsolution, hobject⟩ := Unification.solve_ok hp hc
      obtain ⟨rfl, -⟩ := Prod.mk.inj (Except.ok.inj (hs.symm.trans hs'))
      exact ⟨hsame, hforest, hsolution, hobject, fun _ h => absurd h (by simp)⟩
  | inclusion settings =>
      obtain ⟨⟨pool, s⟩, hs, heq⟩ := map_eq_ok.1 h
      obtain ⟨rfl, -⟩ := Prod.mk.inj heq
      obtain ⟨out', s', hs', hsame, hforest, hsolution, hobject, -⟩ :=
        Inclusion.solve_within settings order hp hc (Inclusion.solution_univ p constraints)
      obtain ⟨rfl, -⟩ := Prod.mk.inj (Except.ok.inj (hs.symm.trans hs'))
      exact ⟨hsame, hforest, hsolution, hobject,
        fun _ _ F hF => Inclusion.family_le_of_solve hp hc hF hs⟩

/-- The graph of an analysis depicts what a solver leaves of the program's constraints. -/
theorem depicts_of_analyze (hok : analyze config program order = .ok result) :
    ∃ (d : Draft) (out : Pool) (stats : Solver.Stats) (node : Nat → Nat), Generated program d ∧
      (solverFor config result.stats.mode).solve d.pool d.constraints order =
      .ok (out, stats) ∧
      result.graph.Depicts d.pool out.family node := by
  simp only [analyze, bind_eq_ok, liftM_eq_ok, pure_eq_ok, Prod.exists] at hok
  obtain ⟨-, -, d, hd, out, stats, hsolve, g, hg, -, -, rfl⟩ := hok
  have hd := generate_ok (generated_eq_ok hd)
  have htidy := hd.tidy.pool
  obtain ⟨hsame, -, -, hobject, -⟩ := solve_solution htidy.fresh hd.tidy.constraintsOver hsolve
  obtain ⟨node, hdepicts⟩ := Graph.depicts_of_ofPool (htidy.guarded.congr hsame)
    (fun e x hx => hsame.isObject_iff.2 (hobject e x hx)) hg
  exact ⟨d, out, stats, node, hd, hsolve, hdepicts.congr hsame⟩

/-- The graph of an analysis represents a solution of the program's constraints, and in the
precise mode the least one. -/
theorem represents_of_analyze (hp : program.Coherent)
    (hok : analyze config program order = .ok result) :
    ∃ (d : Draft) (T : Family) (node : Nat → Nat), Generated program d ∧
      result.graph.Represents d.pool T node ∧ Solution d.pool d.constraints T ∧
      (∀ e, ∀ o ∈ T e, d.pool.IsObject o) ∧
      (result.stats.mode = .precise → ∀ F, Solution d.pool d.constraints F → T ≤ F) := by
  obtain ⟨d, out, stats, node, hd, hsolve, hdepicts⟩ := depicts_of_analyze hok
  obtain ⟨-, -, hsolution, hobject, hleast⟩ :=
    solve_solution hd.tidy.pool.fresh hd.tidy.constraintsOver hsolve
  refine ⟨d, out.family, node, hd, hdepicts.represents (hd.nodup_origins hp),
    hsolution, hobject, ?_⟩
  intro hmode
  exact hleast config.inclusion (congrArg (solverFor config) hmode)

/-- **An analysis respects the program.**  For every program built by commands, all settings
for which the analysis ends and every order of sets, the targets in its graph obey every rule
of the program; in the precise mode they are the least that do. -/
theorem analyze_targets {commands : List Command}
    (hbuild : Program.build? commands = .ok program)
    (hok : analyze config program order = .ok result) :
    result.graph.targets.Respects program result.graph ∧
      (result.stats.mode = .precise →
        IsLeast {S : Targets | S.Respects program result.graph} result.graph.targets) := by
  have hp := Program.coherent_of_build? hbuild
  obtain ⟨d, T, node, hd, hg, hT, hobject, hleast⟩ := represents_of_analyze hp hok
  have hrespects := respects_of_solution hd hg hT hobject
  refine ⟨hrespects, fun hmode => ⟨hrespects, ?_⟩⟩
  intro S hS
  exact targets_le hd.tidy hg hS (hleast hmode _ (solution_entities hp hd hg hS))

/-- A walk over a slot: its address goes round a phi and an element pointer, and a call stores
it into the slot itself. -/
def walkCommands : List Command :=
  [.declareFunction "keep" [.pointer, .pointer], .store 0 1 2, .declareFunction "walk" [],
    .alloca 1 "slot", .phi 1 [4] .pointer, .elementPointer 1 5, .addPhiInput 5 6,
    .call 1 0 [6, 5] []]

theorem analyze_targets_walkCommands : ∃ program result,
    Program.build? walkCommands = .ok program ∧ analyze .default program = .ok result ∧
    result.stats.mode = .precise ∧ result.graph.targets.Respects program result.graph ∧
    IsLeast {S : Targets | S.Respects program result.graph} result.graph.targets := by
  have hrun : (do
      let program ← (Program.build? walkCommands).toOption
      let result ← (analyze .default program).toOption
      return decide (result.stats.mode = .precise)) = some true := by decide +kernel
  simp only [Option.bind_eq_bind, Option.bind_eq_some_iff, toOption_eq_some, Option.pure_def,
    Option.some.injEq, decide_eq_true_eq] at hrun
  obtain ⟨program, hbuild, result, hok, hmode⟩ := hrun
  have htargets := analyze_targets hbuild hok
  exact ⟨program, result, hbuild, hok, hmode, htargets.1, htargets.2 hmode⟩

end PointerChannels.Analysis
