import PointerChannels.Proofs.Analysis.Analyze
import PointerChannels.Proofs.Disclosure
import PointerChannels.Proofs.Visit

/-!
# Memory that escapes

Escaped memory is searched for from external memory alone, edge by edge.  Whatever the solver,
the search finds what external memory points to and nothing more, and misses nothing that
unknown memory leads to: the solvers have already closed external memory under its own loads
and stores, and nothing is held where only unknown memory points.

## Main definitions

* `Graph.Reaches` — one node leads to another.
* `Graph.Disclosed` — the law of a disclosed family, of the nodes of a graph.

## Main statements

* `Analysis.disclosed_of_solve` — what either solver leaves of a program's
  constraints is disclosed.
* `Analysis.analyze_unknown_escapes` — what unknown memory leads to has escaped.
* `Analysis.analyze_escape_closed` — escape is closed in one step.
-/

namespace PointerChannels

open Generation

variable {program : Program} {d : Draft}

/-! ## The constraints of a program -/

theorem Generation.Grounded.kindOf_operand {p : Pool} {c : Constraint}
    (h : Grounded program p c) (hp : p.Tidy program) {r : Handle} (hr : r ∈ c.operands) :
    p.kindOf r.index = .register := by
  cases h with
  | copyLoad hcopied hsource =>
      rcases List.mem_pair.1 hr with rfl | rfl
      · exact hcopied.1.kindOf
      · exact hp.kindOf_register hsource
  | copyStore hcopied htarget =>
      rcases List.mem_pair.1 hr with rfl | rfl
      · exact hp.kindOf_register htarget
      · exact hcopied.1.kindOf
  | said _ hstates =>
      cases hstates with
      | object hv | external hv | unknown hv | escapes hv =>
          exact List.mem_singleton.1 hr ▸ hp.kindOf_register hv
      | flow hv hw | load hw hv | store hw hv =>
          rcases List.mem_pair.1 hr with rfl | rfl
          · exact hp.kindOf_register hw
          · exact hp.kindOf_register hv
      | call hcallee harguments hresults =>
          rcases List.mem_cons.1 hr with rfl | hr
          · exact hp.kindOf_register hcallee
          rcases List.mem_append.1 (mem_present.1 hr) with hr | hr
          · exact hp.kindOf_registers harguments hr
          · exact hp.kindOf_registers hresults hr

/-- The constraints of a program are about registers, and what they make
unknown they make external. -/
theorem Generation.Generated.plain (h : Generated program d) : Plain d.pool d.constraints := by
  have htidy := h.tidy.pool
  constructor
  case kind_unknown => exact (Pool.made_unknown htidy.two_le htidy.place).kindOf
  case kind_external => exact (Pool.made_external htidy.two_le htidy.place).kindOf
  case operand =>
    intro c hc r hr
    exact (h.tidy.grounded c hc).kindOf_operand htidy hr
  case pointee =>
    intro r o hc
    cases h.tidy.grounded _ hc with
    | said hsay hstates =>
        cases hstates with
        | object _ _ hm _ =>
            rw [hm.kindOf]
            exact hsay.object.2.1
  case signature =>
    intro o signature hs r hr
    obtain ⟨f, -, -, hparams, hresults⟩ := htidy.signed hs
    rcases List.mem_append.1 hr with hr | hr
    · exact htidy.kindOf_registers hparams hr
    · exact htidy.kindOf_registers hresults hr
  case external =>
    intro r hc
    cases h.tidy.grounded _ hc with
    | said hsay hstates =>
        cases hstates with
        | unknown hv =>
            cases h.covers _ hsay.external_of_unknown with
            | stated hmem hstates =>
                cases hstates with
                | external hv' => exact hv.unique hv' ▸ hmem

/-! ## Graphs -/

namespace Graph

variable {g : Graph} {p : Pool} {T : Family} {node : Nat → Nat} {n m : Nat}

/-- One node leads to another, by any number of edges. -/
def Reaches (g : Graph) : Nat → Nat → Prop :=
  Relation.ReflTransGen fun n m => m ∈ g.targetsOf n

/-- Nothing is held by unknown memory alone, and external memory points to all it leads to. -/
structure Disclosed (g : Graph) : Prop where
  accompanied : ∀ {n}, unknown ∈ g.targetsOf n → n = unknown ∨ external ∈ g.targetsOf n
  shared : ∀ {m}, m ∈ g.targetsOf unknown → m = unknown ∨ m ∈ g.targetsOf external
  closed : ∀ {n m}, n ∈ g.targetsOf external → m ∈ g.targetsOf n → m ∈ g.targetsOf external

namespace Disclosed

variable (h : g.Disclosed)

include h

/-- What external memory leads to in any number of steps it points to. -/
theorem mem_external_of_reaches (hm : m ∈ g.targetsOf external) (hpath : g.Reaches m n) :
    n ∈ g.targetsOf external := by
  induction hpath with
  | refl => exact hm
  | tail _ hstep ih => exact h.closed ih hstep

/-- What unknown memory leads to in any number of steps external memory points to. -/
theorem mem_external_of_unknown (hpath : g.Reaches unknown n) :
    n = unknown ∨ n ∈ g.targetsOf external := by
  induction hpath with
  | refl => exact .inl rfl
  | tail _ hstep ih =>
      rcases ih with rfl | hmem
      · exact h.shared hstep
      · exact .inr (h.closed hmem hstep)

end Disclosed

/-- What a node leads to by one or more edges. -/
theorem Closed.mem_reachableFrom (hg : g.Closed) {k : Nat} :
    n ∈ g.reachableFrom (g.targetsOf k).toList ↔ ∃ m ∈ g.targetsOf k, g.Reaches m n := by
  rw [reachableFrom, mem_visit_iff (hg k) hg]
  rfl

theorem Closed.mem_escaped (hg : g.Closed) :
    n ∈ g.escaped ↔ (∃ m ∈ g.targetsOf external, g.Reaches m n) ∧
      (g.kindOf? n).any (!·.isSentinel) = true := by
  rw [escaped, IndexSet.mem_ofList, List.mem_filter, hg.mem_reachableFrom]

namespace Depicts

variable (hg : g.Depicts p T node)

variable (hp : p.Tidy program)

include hg hp

theorem mem_external : m ∈ g.targetsOf Graph.external ↔ ∃ x ∈ T Pool.external, node x = m :=
  hg.external ▸ hg.targets hp.fresh.external_object

theorem mem_unknown : m ∈ g.targetsOf Graph.unknown ↔ ∃ x ∈ T Pool.unknown, node x = m :=
  hg.unknown ▸ hg.targets hp.fresh.unknown_object

/-- A node that points anywhere points where its entity does. -/
theorem exists_entity (h : m ∈ g.targetsOf n) :
    ∃ e, (e = Pool.unknown → n = Graph.unknown) ∧
      ∀ {m}, m ∈ g.targetsOf n ↔ ∃ x ∈ T e, node x = m := by
  rcases hg.pointing h with ⟨o, ho, rfl⟩ | ⟨v, e, he, hv⟩
  · exact ⟨o, fun hu => hu ▸ hg.unknown, hg.targets ho⟩
  · obtain ⟨r, hr, htargets⟩ := hg.register he
    obtain rfl := Option.some_injective _ (hv.symm.trans hr)
    refine ⟨e, fun hu => ?_, htargets⟩
    obtain ⟨w, hw⟩ := (hp.traced he).made
    have hunknown := Pool.made_unknown hp.two_le hp.place
    exact absurd ((hu ▸ hw).unique hunknown).1 (by simp)

theorem disclosed (hobject : ∀ e, ∀ o ∈ T e, p.IsObject o) (hT : T.Disclosed) :
    g.Disclosed := by
  have hunknown := hp.fresh.unknown_object
  constructor
  case accompanied =>
    intro n hn
    obtain ⟨e, he, htargets⟩ := hg.exists_entity hp hn
    obtain ⟨x, hx, hnode⟩ := htargets.1 hn
    obtain rfl := hg.injective (hobject e x hx) hunknown (hnode.trans hg.unknown.symm)
    rcases hT.accompanied hx with hu | hx
    · exact .inl (he hu)
    · exact .inr (htargets.2 ⟨_, hx, hg.external⟩)
  case shared =>
    intro m hm
    obtain ⟨x, hx, rfl⟩ := (hg.mem_unknown hp).1 hm
    rcases hT.shared hx with rfl | hx
    · exact .inl hg.unknown
    · exact .inr ((hg.mem_external hp).2 ⟨x, hx, rfl⟩)
  case closed =>
    intro n m hn hm
    obtain ⟨x, hx, rfl⟩ := (hg.mem_external hp).1 hn
    obtain ⟨y, hy, rfl⟩ := (hg.targets (hobject _ x hx)).1 hm
    exact (hg.mem_external hp).2 ⟨y, hT.closed hx hy, rfl⟩

/-- The sentinels are the nodes of unknown and of external memory. -/
theorem any_not_isSentinel {o : Nat} (ho : p.IsObject o) :
    (g.kindOf? (node o)).any (!·.isSentinel) = true ↔
      node o ≠ Graph.unknown ∧ node o ≠ Graph.external := by
  obtain ⟨origin, hm⟩ := Pool.exists_made ho.1
  rw [hg.kindOf?_eq ho, Option.any_some, Kind.isSentinel_ofEntity, Bool.not_eq_true']
  constructor
  · intro hsentinel
    refine ⟨fun hn => ?_, fun hn => ?_⟩
    · obtain rfl := hg.injective ho hp.fresh.unknown_object (hn.trans hg.unknown.symm)
      rw [(Pool.made_unknown hp.two_le hp.place).kindOf] at hsentinel
      exact absurd hsentinel (by decide)
    · obtain rfl := hg.injective ho hp.fresh.external_object (hn.trans hg.external.symm)
      rw [(Pool.made_external hp.two_le hp.place).kindOf] at hsentinel
      exact absurd hsentinel (by decide)
  · rintro ⟨hu, he⟩
    rcases hp.place hm with ⟨-, -, rfl⟩ | ⟨-, -, rfl⟩ | ⟨hsentinel, -⟩
    · exact absurd hg.unknown hu
    · exact absurd hg.external he
    · exact hsentinel

/-- In a disclosed graph, what escapes is what external memory points to. -/
theorem mem_escaped_iff (h : g.Disclosed) : n ∈ g.escaped ↔
    n ∈ g.targetsOf Graph.external ∧ n ≠ Graph.unknown ∧ n ≠ Graph.external := by
  rw [hg.closed.mem_escaped]
  have hreached : (∃ m ∈ g.targetsOf Graph.external, g.Reaches m n) ↔
      n ∈ g.targetsOf Graph.external := by
    constructor
    · rintro ⟨m, hm, hpath⟩
      exact h.mem_external_of_reaches hm hpath
    · intro hn
      exact ⟨n, hn, .refl⟩
  rw [hreached]
  refine and_congr_right fun hn => ?_
  obtain ⟨o, ho, rfl⟩ := hg.pointed hn
  exact hg.any_not_isSentinel hp ho

/-- What external memory points to holds what external memory holds. -/
theorem targetsOf_eq_external (hobject : ∀ e, ∀ o ∈ T e, p.IsObject o) (hT : T.Disclosed)
    (hexternal : T.Sentinel p Pool.external) {o : Nat} (ho : o ∈ T Pool.external)
    (hk : p.kindOf o ≠ .functionObject) :
    g.targetsOf (node o) = g.targetsOf Graph.external := by
  have heq : T o = T Pool.external := (hT.closed ho).antisymm (hexternal.stores o ho hk)
  refine IndexSet.ext_mem fun m => ?_
  rw [hg.targets (hobject _ o ho), hg.mem_external hp, heq]

/-- A function that external memory points to may be called with all that
external memory holds. -/
theorem mem_targetsOf_param {constraints : List Constraint} (hT : Solution p constraints T)
    {f : FunctionDef} {o : Nat} (hf : p.Embodies program f o) (ho : o ∈ T Pool.external)
    {v : ValueId} (hv : v ∈ f.params) (hpointer : program.IsPointer v) :
    ∃ r, g.register? v = some r ∧ ∀ m ∈ g.targetsOf Graph.external, m ∈ g.targetsOf r := by
  obtain ⟨signature, hs, hparams, -⟩ := hf.signed
  obtain ⟨i, hi⟩ := List.mem_iff_getElem?.1 hv
  obtain ⟨param, hparam, hregister⟩ := hparams.exists_register hi hpointer
  have hle :=
    (hT.exposes o ho hf.made.kindOf signature hs).1 param (List.mem_of_getElem? hparam)
  obtain ⟨r, hr, htargets⟩ := hg.register hregister.1
  refine ⟨r, hr, fun m hm => ?_⟩
  obtain ⟨x, hx, rfl⟩ := (hg.mem_external hp).1 hm
  exact htargets.2 ⟨x, hle hx, rfl⟩

omit hp in
/-- The nodes of functions stand in the order of their objects. -/
theorem nodesOfKind_allocator : g.nodesOfKind .allocator = p.functionObjects.map node := by
  have hmem : ∀ {n}, n ∈ p.functionObjects.map node ↔ g.kindOf? n = some .allocator := by
    intro n
    rw [List.mem_map]
    constructor
    · rintro ⟨o, ho, rfl⟩
      obtain ⟨ho, hk⟩ := Pool.mem_functionObjects.1 ho
      exact (hg.isFunction_iff ho).2 hk
    · intro hn
      obtain ⟨o, ho, rfl⟩ := hg.surjective hn rfl
      exact ⟨o, Pool.mem_functionObjects.2 ⟨ho, (hg.isFunction_iff ho).1 hn⟩, rfl⟩
  have hascending : (p.functionObjects.map node).Pairwise (· < ·) := by
    rw [List.pairwise_map]
    refine p.pairwise_functionObjects.imp_of_mem fun {a b} ha hb hlt => ?_
    exact hg.ascending (Pool.mem_functionObjects.1 ha).1 (Pool.mem_functionObjects.1 hb).1 hlt
  refine List.Subset.antisymm_of_sortedLT ?_ ?_ (List.pairwise_lt_range.filter _).sortedLT
    hascending.sortedLT
  · intro n hn
    exact hmem.2 (mem_nodesOfKind.1 hn)
  · intro n hn
    exact mem_nodesOfKind.2 (hmem.1 hn)

end Depicts
end Graph

/-! ## The analysis of a program -/

namespace Analysis

variable {config : Config.Analysis} {result : Result} {order : Inclusion.SetOrder}

/-- **What either solver leaves of a program's constraints is disclosed.** -/
theorem disclosed_of_solve {solver : Solver} {out : Pool} {stats : Solver.Stats}
    (hd : Generated program d)
    (h : solver.solve d.pool d.constraints order = .ok (out, stats)) :
    out.family.Disclosed := by
  have hfresh := hd.tidy.pool.fresh
  have hover := hd.tidy.constraintsOver
  cases solver with
  | unification =>
      obtain ⟨⟨pool, s⟩, hs, heq⟩ := map_eq_ok.1 h
      obtain ⟨rfl, -⟩ := Prod.mk.inj heq
      obtain ⟨out', s', hs', hleast, hpoints⟩ := Unification.solve_congruence hfresh hover
      obtain ⟨rfl, -⟩ := Prod.mk.inj (Except.ok.inj (hs.symm.trans hs'))
      exact hd.plain.disclosed_of_congruence hleast hfresh.external_object hpoints
  | inclusion settings =>
      obtain ⟨-, -, hsolution, -, hleast⟩ := solve_solution hfresh hover h
      exact hd.plain.disclosed_of_least hsolution (hleast settings rfl)

/-- The graph of an analysis, the solution it depicts, and the law. -/
theorem disclosed_of_analyze (hok : analyze config program order = .ok result) :
    ∃ (d : Draft) (T : Family) (node : Nat → Nat), Generated program d ∧
      result.graph.Depicts d.pool T node ∧ Solution d.pool d.constraints T ∧
      (∀ e, ∀ o ∈ T e, d.pool.IsObject o) ∧ T.Disclosed ∧ result.graph.Disclosed := by
  obtain ⟨d, out, stats, node, hd, hsolve, hg⟩ := depicts_of_analyze hok
  obtain ⟨-, -, hsolution, hobject, -⟩ :=
    solve_solution hd.tidy.pool.fresh hd.tidy.constraintsOver hsolve
  have hT := disclosed_of_solve hd hsolve
  exact ⟨d, out.family, node, hd, hg, hsolution, hobject, hT,
    hg.disclosed hd.tidy.pool hobject hT⟩

/-- **What unknown memory leads to has escaped.**  For every program, all settings for which
the analysis ends and every order of sets, a node that points to unknown memory points to
external memory, external memory points to all that unknown memory does, and so every node that
unknown memory leads to, the sentinels apart, has escaped. -/
theorem analyze_unknown_escapes (hok : analyze config program order = .ok result) :
    (∀ n, n ≠ Graph.unknown → Graph.unknown ∈ result.graph.targetsOf n →
      Graph.external ∈ result.graph.targetsOf n) ∧
    (∀ m ∈ result.graph.targetsOf Graph.unknown, m ≠ Graph.unknown →
      m ∈ result.graph.targetsOf Graph.external) ∧
    ∀ n, result.graph.Reaches Graph.unknown n → n ≠ Graph.unknown → n ≠ Graph.external →
      n ∈ result.graph.escaped := by
  obtain ⟨d, T, node, hd, hg, -, -, -, h⟩ := disclosed_of_analyze hok
  refine ⟨fun n hn hmem => (h.accompanied hmem).resolve_left hn,
    fun m hm hu => (h.shared hm).resolve_left hu, fun n hpath hu he => ?_⟩
  have hmem := (h.mem_external_of_unknown hpath).resolve_left hu
  exact (hg.mem_escaped_iff hd.tidy.pool h).2 ⟨hmem, hu, he⟩

/-- A function stores one stack address through a pointer from nowhere and
another into the first. -/
def hiddenCommands : List Command :=
  [.declareFunction "hide" [], .alloca 0 "cell", .alloca 0 "hidden", .blackBox 0 [] [.pointer],
    .store 0 3 1, .store 0 1 2]

theorem analyze_unknown_escapes_hiddenCommands : ∃ program result,
    Program.build? hiddenCommands = .ok program ∧
    analyze { Config.Analysis.default with mode := .fast } program = .ok result ∧
    Graph.unknown ∈ result.graph.targetsOf 3 ∧ Graph.external ∈ result.graph.targetsOf 3 ∧
    4 ∈ result.graph.targetsOf Graph.unknown ∧ 4 ∈ result.graph.escaped := by
  have hrun : (do
      let program ← (Program.build? hiddenCommands).toOption
      let result ← (analyze { Config.Analysis.default with mode := .fast } program).toOption
      return decide (Graph.unknown ∈ result.graph.targetsOf 3 ∧
        4 ∈ result.graph.targetsOf Graph.unknown)) = some true := by decide +kernel
  simp only [Option.bind_eq_bind, Option.bind_eq_some_iff, toOption_eq_some, Option.pure_def,
    Option.some.injEq, decide_eq_true_eq] at hrun
  obtain ⟨program, hbuild, result, hok, hcell, hhidden⟩ := hrun
  obtain ⟨haccompanied, -, hescaped⟩ := analyze_unknown_escapes hok
  exact ⟨program, result, hbuild, hok, hcell, haccompanied 3 (by decide) hcell, hhidden,
    hescaped 4 (.single hhidden) (by decide) (by decide)⟩

/-- **Escape is closed in one step.**  For every program, all settings for which the analysis
ends and every order of sets, what has escaped is what external memory points to, the sentinels
apart; an escaped node other than a function points to what external memory points to and to
nothing else; and the addresses that an escaped function takes may refer to all of it.  The
nodes of functions stand in the order of the functions. -/
theorem analyze_escape_closed (hok : analyze config program order = .ok result) :
    result.graph.escaped = ((result.graph.targetsOf Graph.external).erase Graph.unknown).erase
      Graph.external ∧
    (∀ n ∈ result.graph.escaped, result.graph.kindOf? n ≠ some .allocator →
      result.graph.targetsOf n = result.graph.targetsOf Graph.external) ∧
    List.Forall₂ (fun f n => result.graph.Shows n .allocator (.function f.id) ∧
        (n ∈ result.graph.escaped → ∀ v ∈ f.params, program.IsPointer v →
          ∃ r, result.graph.register? v = some r ∧
            ∀ m ∈ result.graph.targetsOf Graph.external, m ∈ result.graph.targetsOf r))
      program.functions.toList (result.graph.nodesOfKind .allocator) := by
  obtain ⟨d, T, node, hd, hg, hT, hobject, hdisclosed, h⟩ := disclosed_of_analyze hok
  have hp := hd.tidy.pool
  have hescaped : ∀ {n}, n ∈ result.graph.escaped ↔ n ∈ result.graph.targetsOf Graph.external ∧
      n ≠ Graph.unknown ∧ n ≠ Graph.external := hg.mem_escaped_iff hp h
  refine ⟨?_, ?_, ?_⟩
  · refine IndexSet.ext_mem fun n => ?_
    rw [hescaped, IndexSet.mem_erase, IndexSet.mem_erase, and_assoc]
  · intro n hn hk
    obtain ⟨o, ho, rfl⟩ := (hg.mem_external hp).1 (hescaped.1 hn).1
    exact hg.targetsOf_eq_external hp hobject hdisclosed hT.external ho
      fun hf => hk ((hg.isFunction_iff (hobject _ o ho)).2 hf)
  · rw [hg.nodesOfKind_allocator, List.forall₂_map_right_iff]
    refine hd.embodied.imp fun f o hf => ⟨hg.shows hf.made rfl, fun hn v hv hpv => ?_⟩
    have ho : d.pool.IsObject o := ⟨hf.made.lt_size, by rw [hf.made.kindOf]; rfl⟩
    obtain ⟨x, hx, hnode⟩ := (hg.mem_external hp).1 (hescaped.1 hn).1
    obtain rfl := hg.injective (hobject _ x hx) ho hnode
    exact hg.mem_targetsOf_param hp hT hf hx hv hpv

/-- A function that is called from outside stores a stack address through its parameter. -/
def handlerCommands : List Command :=
  [.declareFunction "start" [], .declareFunction "handler" [.pointer], .alloca 1 "slot",
    .store 1 2 3, .exportFunction 1]

theorem analyze_escape_closed_handlerCommands : ∃ program result,
    Program.build? handlerCommands = .ok program ∧ analyze .default program = .ok result ∧
    result.stats.mode = .precise ∧ result.graph.nodesOfKind .allocator = [2, 3] ∧
    result.graph.escaped.toList = [3, 4] ∧
    result.graph.targetsOf 4 = result.graph.targetsOf Graph.external ∧
    ∃ f r, program.functions.toList[1]? = some f ∧ 2 ∈ f.params ∧
      result.graph.Shows 3 .allocator (.function f.id) ∧
      result.graph.register? 2 = some r ∧ 4 ∈ result.graph.targetsOf r := by
  have hrun : (do
      let program ← (Program.build? handlerCommands).toOption
      let result ← (analyze .default program).toOption
      let f ← program.functions.toList[1]?
      return decide (result.stats.mode = .precise ∧
        result.graph.nodesOfKind .allocator = [2, 3] ∧ result.graph.escaped.toList = [3, 4] ∧
        result.graph.kindOf? 4 ≠ some .allocator ∧ 4 ∈ result.graph.targetsOf Graph.external ∧
        2 ∈ f.params ∧ program.values[2]?.map Value.isPointer = some true)) =
          some true := by decide +kernel
  simp only [Option.bind_eq_bind, Option.bind_eq_some_iff, toOption_eq_some, Option.pure_def,
    Option.some.injEq, decide_eq_true_eq] at hrun
  obtain ⟨program, hbuild, result, hok, f, hf, hmode, hnodes, hescaped, hkind, hslot, hparam,
    hpointer⟩ := hrun
  obtain ⟨-, hequal, hfunctions⟩ := analyze_escape_closed hok
  have hmem : ∀ {n}, n ∈ [3, 4] → n ∈ result.graph.escaped := by
    intro n hn
    rwa [← IndexSet.mem_toList, hescaped]
  rw [hnodes] at hfunctions
  obtain ⟨hlt, rfl⟩ := List.getElem?_eq_some_iff.1 hf
  obtain ⟨hshows, hparams⟩ := hfunctions.get hlt (by decide)
  obtain ⟨r, hr, htargets⟩ := hparams (hmem (by decide)) 2 hparam hpointer
  exact ⟨program, result, hbuild, hok, hmode, hnodes, hescaped,
    hequal 4 (hmem (by decide)) hkind, _, r, hf, hparam, hshows, hr, htargets 4 hslot⟩

end Analysis
end PointerChannels
