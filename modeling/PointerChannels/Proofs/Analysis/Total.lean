import PointerChannels.Proofs.Analysis.Analyze
import PointerChannels.Proofs.Generation.Total
import PointerChannels.Proofs.Graph.SameView

/-!
# An analysis stops only at its budget

Once the constraints of a program are generated nothing can stop its analysis: both solvers end
on every pool that generation leaves, and the graph of what they leave is always built.

## Main statements

* `Analysis.analyze_order` — its outcome is the same in every order of sets, counters apart.
* `Analysis.analyze_total` — an analysis ends, or its budget is too small.
-/

namespace PointerChannels

variable {program : Program}

/-- What a solver leaves of a tidy pool has a graph. -/
theorem Pool.Tidy.legible {p out : Pool} (hp : p.Tidy program)
    (hsame : Pool.SameEntities p out) (hforest : out.Forest) : out.Legible where
  forest := hforest
  register_lt hv := by
    obtain ⟨w, hm⟩ := (hp.traced (hsame.register?_eq ▸ hv)).made
    exact hsame.size_eq ▸ hm.lt_size

namespace Analysis

open Generation

variable {config : Config.Analysis} (order : Inclusion.SetOrder)

/-- Every solver ends. -/
theorem solve_total (solver : Solver) {p : Pool} {constraints : List Constraint} (hp : p.Fresh)
    (hc : ∀ c ∈ constraints, c.Over p) :
    ∃ out stats, solver.solve p constraints order = .ok (out, stats) := by
  cases solver with
  | unification =>
      obtain ⟨out, stats, hok, -⟩ := Unification.solve_ok hp hc
      exact ⟨out, .unification stats, map_eq_ok.2 ⟨_, hok, rfl⟩⟩
  | inclusion settings =>
      obtain ⟨out, stats, hok, -⟩ :=
        Inclusion.solve_within settings order hp hc (Inclusion.solution_univ p constraints)
      exact ⟨out, .inclusion stats, map_eq_ok.2 ⟨_, hok, rfl⟩⟩

/-- What is generated can be solved, and the outcome has a graph, which can be counted. -/
theorem exists_graph (solver : Solver) {d : Draft} (hd : Generated program d) :
    ∃ out stats g counts, solver.solve d.pool d.constraints order = .ok (out, stats) ∧
      Graph.ofPool 0 out program = .ok g ∧ g.counted = .ok counts := by
  have htidy := hd.tidy.pool
  have hover := hd.tidy.constraintsOver
  obtain ⟨out, stats, hsolve⟩ := solve_total order solver htidy.fresh hover
  obtain ⟨hsame, hforest, -, hobject, -⟩ := solve_solution htidy.fresh hover hsolve
  have hguarded := htidy.guarded.congr hsame
  have hobject : ∀ e, ∀ x ∈ out.pointsTo e, out.IsObject x :=
    fun e x hx => hsame.isObject_iff.2 (hobject e x hx)
  have hlegible := htidy.legible hsame hforest
  obtain ⟨g, hg⟩ := Graph.ofPool_ok 0 hguarded hlegible
    (fun hv => htidy.known (hsame.register?_eq ▸ hv)) hobject
  obtain ⟨node, hdepicts⟩ := Graph.depicts_of_ofPool hguarded hobject hg
  have hexternal : Graph.external < g.size := hdepicts.external ▸
    Graph.lt_size_of_kindOf?
      (hdepicts.kindOf?_eq (hsame.isObject_iff.2 htidy.fresh.external_object))
  have hwalk := hdepicts.closed.walkFrom_ok (List.forall_mem_singleton.2 hexternal)
  exact ⟨out, stats, g, g.stats, hsolve, hg, bind_eq_ok.2 ⟨_, hwalk, rfl⟩⟩

/-- Once the constraints are generated, the analysis ends. -/
theorem analyze_of_generate {d : Draft} (hvalid : config.validate = .ok ())
    (hd : generate program config.maxEntities = .ok d) :
    ∃ result, analyze config program order = .ok result ∧
      result.stats.entities = d.pool.size := by
  have hchecked : checked config = .ok () := by rw [checked, hvalid]
  have hgenerated : generated config program = .ok d := by rw [generated, hd]
  obtain ⟨out, stats, g, counts, hsolve, hg, hcounts⟩ :=
    exists_graph order (solverFor config (config.resolveMode d.pool.size)) (generate_ok hd)
  simp only [analyze, bind_eq_ok, liftM_eq_ok, pure_eq_ok, Prod.exists]
  exact ⟨_, ⟨(), hchecked, d, hgenerated, out, stats, hsolve, g, hg, counts, hcounts, rfl⟩, rfl⟩

/-- An analysis whose constraints do not fit into the budget does not take place. -/
theorem analyze_of_exhausted {limit : Nat} (hvalid : config.validate = .ok ())
    (hd : generate program config.maxEntities = .error (.error ⟨limit⟩)) :
    analyze config program order = .error (.error (.exhausted limit)) := by
  have hchecked : checked config = .ok () := by rw [checked, hvalid]
  have hgenerated : generated config program = .error (.error (.exhausted limit)) := by
    rw [generated, hd]
    rfl
  rw [analyze, hchecked, hgenerated]
  rfl

/-- In another order of sets a solver leaves the same family, over the same entities. -/
theorem solve_order {solver : Solver} {p out : Pool} {constraints : List Constraint}
    {stats : Solver.Stats} {order : Inclusion.SetOrder} (hp : p.Fresh)
    (hc : ∀ c ∈ constraints, c.Over p)
    (h : solver.solve p constraints order = .ok (out, stats)) (order' : Inclusion.SetOrder) :
    ∃ out' stats', solver.solve p constraints order' = .ok (out', stats') ∧
      Pool.SameEntities p out' ∧ out'.Forest ∧ out'.family = out.family := by
  obtain ⟨out', stats', h'⟩ := solve_total order' solver hp hc
  obtain ⟨-, -, hsolution, -, hleast⟩ := solve_solution hp hc h
  obtain ⟨hsame, hforest, hsolution', -, hleast'⟩ := solve_solution hp hc h'
  refine ⟨out', stats', h', hsame, hforest, ?_⟩
  cases solver with
  | unification =>
      have heq := Except.ok.inj (h'.symm.trans h)
      rw [(Prod.mk.inj heq).1]
  | inclusion settings =>
      exact (hleast' settings rfl _ hsolution).antisymm (hleast settings rfl _ hsolution')

/-- The same account of an analysis with other counters of the solver. -/
def Stats.recounted (stats : Stats) (counters : Solver.Stats) : Stats :=
  { stats with solver := counters }

/-- **The order of sets plays no part in an analysis**, the counters of the solver apart. -/
theorem analyze_order {order : Inclusion.SetOrder} {result : Result}
    (hok : analyze config program order = .ok result) (order' : Inclusion.SetOrder) :
    ∃ counters, analyze config program order' =
      .ok { result with stats := result.stats.recounted counters } := by
  simp only [analyze, bind_eq_ok, liftM_eq_ok, pure_eq_ok, Prod.exists] at hok ⊢
  obtain ⟨_, hchecked, d, hgenerated, out, stats, hsolve, g, hg, counts, hcounts, rfl⟩ := hok
  have hd := generate_ok (generated_eq_ok hgenerated)
  have htidy := hd.tidy.pool
  have hover := hd.tidy.constraintsOver
  obtain ⟨hsame, hforest, -⟩ := solve_solution htidy.fresh hover hsolve
  obtain ⟨out', stats', hsolve', hsame', hforest', hfamily⟩ :=
    solve_order htidy.fresh hover hsolve order'
  have hgraph : Graph.ofPool 0 out' program = Graph.ofPool 0 out program :=
    Graph.ofPool_congr 0 (htidy.guarded.congr hsame) (htidy.legible hsame hforest)
      (htidy.legible hsame' hforest') ((hsame.symm.trans hsame').sameView hfamily)
  exact ⟨stats', (), hchecked, d, hgenerated, out', stats', hsolve', g,
    hgraph.trans hg, counts, hcounts, rfl⟩

/-- **An analysis stops only at its budget.** -/
theorem analyze_total (hp : program.Coherent) (hshaped : program.Shaped)
    (hresolved : program.Resolved) (hvalid : config.validate = .ok ()) :
    (∃ result, analyze config program order = .ok result) ∨
      ∃ limit, config.maxEntities = some limit ∧
        analyze config program order = .error (.error (.exhausted limit)) := by
  rcases generate_faultless hp hshaped hresolved config.maxEntities with
    ⟨d, hd⟩ | ⟨limit, hlimit, hd⟩
  · obtain ⟨result, hok, -⟩ := analyze_of_generate order hvalid hd
    exact .inl ⟨result, hok⟩
  · exact .inr ⟨limit, hlimit, analyze_of_exhausted order hvalid hd⟩

end Analysis
end PointerChannels
