import PointerChannels.Proofs.Analysis.Total
import PointerChannels.Proofs.Config.Document
import PointerChannels.Proofs.Generation.Budget

/-!
# The entity budget is exact

How many entities a program needs is decided by the walk without a budget.  A budget of at
least that many changes nothing, a smaller one stops the walk, and nothing else does.  So an
analysis runs out of entities exactly if its budget is below the count that the analysis
without a budget reports, and an analysis that succeeds also succeeds with more room.

## Main definitions

* `Generation.Metered` — what a budget does to the walk over a program.

## Main statements

* `Analysis.budget_is_exact` — what a budget does to the analysis of a program.
-/

namespace PointerChannels

namespace Generation

variable {program : Program} {d : Draft} {limit : Nat}

/-- The walk without a budget ended with the draft `d`; this is the walk with room
for `limit` entities. -/
structure Metered (program : Program) (d : Draft) (limit : Nat) : Prop where
  /-- It ends exactly if the entities fit. -/
  ends_iff : (∃ d', generate program (some limit) = .ok d') ↔ d.pool.size ≤ limit
  /-- If it ends, it ends with the same entities, signatures, registers and constraints. -/
  same : ∀ d', generate program (some limit) = .ok d' → d'.pool.cells = d.pool.cells ∧
    d'.pool.registers = d.pool.registers ∧ d'.constraints = d.constraints
  /-- If the entities do not fit, it tells the budget. -/
  exhausted : limit < d.pool.size → generate program (some limit) = .error (.error ⟨limit⟩)

/-- There is always room for the two sentinels. -/
theorem generate_cases (h : generate program none = .ok d) (hlimit : 2 ≤ limit) :
    d.pool.size ≤ limit ∧ generate program (some limit) = .ok (Carries.within (some limit) d) ∨
      limit < d.pool.size ∧ generate program (some limit) = .error (.error ⟨limit⟩) := by
  have hmirrors := generate_mirrors program limit
  rw [h] at hmirrors
  rcases hmirrors.of_ok with ⟨hroom, hok⟩ | hfull
  · exact .inl ⟨hroom.elim (fun htwo => htwo.trans hlimit) id, hok⟩
  · exact .inr hfull

theorem metered (h : generate program none = .ok d) (hlimit : 2 ≤ limit) :
    Metered program d limit := by
  rcases generate_cases h hlimit with ⟨hle, hok⟩ | ⟨hlt, herror⟩
  · refine ⟨⟨fun _ => hle, fun _ => ⟨_, hok⟩⟩, fun d' hd' => ?_,
      fun hlt => absurd hle hlt.not_ge⟩
    rw [hok] at hd'
    obtain rfl := Except.ok.inj hd'
    exact ⟨rfl, rfl, rfl⟩
  · have hnot : ∀ d', generate program (some limit) ≠ .ok d' := by
      intro d' hd'
      rw [herror] at hd'
      exact absurd hd' (by simp)
    refine ⟨⟨fun ⟨d', hd'⟩ => absurd hd' (hnot d'), fun hle => absurd hle hlt.not_ge⟩,
      fun d' hd' => absurd hd' (hnot d'), fun _ => herror⟩

end Generation

namespace Config.Analysis

variable {a : Analysis}

theorem two_le_of_validate (h : a.validate = .ok ()) {limit : Nat}
    (hlimit : a.maxEntities = some limit) : 2 ≤ limit := by
  rw [validate_eq, bind_eq_ok] at h
  obtain ⟨_, hentities, -⟩ := h
  have hadmits := checkField_eq_ok.1 (elim_eq_ok.1 hentities limit hlimit)
  exact of_decide_eq_true (Bool.and_eq_true_iff.1 hadmits).1

/-- Settings in range stay in range without a budget. -/
theorem validate_unlimited (h : a.validate = .ok ()) :
    { a with maxEntities := none }.validate = .ok () := by
  rw [validate_eq, bind_eq_ok] at h
  obtain ⟨-, -, hthreshold⟩ := h
  exact hthreshold

end Config.Analysis

namespace Analysis

open Generation

variable {config : Config.Analysis} {program : Program} {d : Draft} {result : Result}
  {order : Inclusion.SetOrder}

theorem of_analyze_ok (h : analyze config program order = .ok result) :
    config.validate = .ok () ∧ ∃ d, generate program config.maxEntities = .ok d := by
  simp only [analyze, bind_eq_ok] at h
  obtain ⟨_, hchecked, d, hgenerated, -⟩ := h
  refine ⟨?_, d, generated_eq_ok hgenerated⟩
  unfold checked at hchecked
  split at hchecked
  · assumption
  · exact absurd hchecked (by simp)

/-- An analysis succeeds exactly if its settings are in range and the entities of the
program fit into its budget. -/
theorem analyze_ok_iff (h : generate program none = .ok d)
    (hvalid : config.validate = .ok ()) :
    (∃ result, analyze config program order = .ok result) ↔
      ∀ limit, config.maxEntities = some limit → d.pool.size ≤ limit := by
  constructor
  · rintro ⟨result, hok⟩ limit hlimit
    obtain ⟨-, d', hd'⟩ := of_analyze_ok hok
    rw [hlimit] at hd'
    exact (metered h (Config.Analysis.two_le_of_validate hvalid hlimit)).ends_iff.1 ⟨d', hd'⟩
  · intro hroom
    have hends : ∃ d', generate program config.maxEntities = .ok d' := by
      cases hlimit : config.maxEntities with
      | none => exact ⟨d, h⟩
      | some limit =>
          have hmetered := metered h (Config.Analysis.two_le_of_validate hvalid hlimit)
          exact hmetered.ends_iff.2 (hroom limit hlimit)
    obtain ⟨d', hd'⟩ := hends
    obtain ⟨result, hok, -⟩ := analyze_of_generate order hvalid hd'
    exact ⟨result, hok⟩

/-- An analysis runs out of entities exactly if there is a budget and the
entities do not fit into it. -/
theorem analyze_exhausted_iff (h : generate program none = .ok d)
    (hvalid : config.validate = .ok ()) (limit : Nat) :
    analyze config program order = .error (.error (.exhausted limit)) ↔
      config.maxEntities = some limit ∧ limit < d.pool.size := by
  constructor
  · intro hstop
    -- the analysis did not succeed, so there is a budget, and it is what the error tells
    have hfails : ¬ ∃ result, analyze config program order = .ok result := by
      rintro ⟨result, hok⟩
      rw [hstop] at hok
      exact absurd hok (by simp)
    rw [analyze_ok_iff h hvalid] at hfails
    obtain ⟨most, hfails⟩ := not_forall.1 hfails
    obtain ⟨hmost, hlt⟩ := not_forall.1 hfails
    have hmetered := metered h (Config.Analysis.two_le_of_validate hvalid hmost)
    have hstop' :=
      analyze_of_exhausted order hvalid (hmost ▸ hmetered.exhausted (not_le.1 hlt))
    obtain rfl : limit = most := by simpa using hstop.symm.trans hstop'
    exact ⟨hmost, not_le.1 hlt⟩
  · rintro ⟨hlimit, hlt⟩
    have hmetered := metered h (Config.Analysis.two_le_of_validate hvalid hlimit)
    exact analyze_of_exhausted order hvalid (hlimit ▸ hmetered.exhausted hlt)

/-- With more room an analysis still succeeds, in whichever order of sets. -/
theorem analyze_mono {larger : Option Nat} {order' : Inclusion.SetOrder}
    (hvalid : { config with maxEntities := larger }.validate = .ok ())
    (hle : ∀ most ∈ larger, ∃ limit ∈ config.maxEntities, limit ≤ most)
    (hok : analyze config program order = .ok result) :
    ∃ result', analyze { config with maxEntities := larger } program order' = .ok result' := by
  obtain ⟨hvalid', d', hd'⟩ := of_analyze_ok hok
  have hends : ∃ d, generate program none = .ok d := by
    cases hlimit : config.maxEntities with
    | none => exact ⟨d', hlimit ▸ hd'⟩
    | some limit =>
        have hmirrors := generate_mirrors program limit
        rw [← hlimit, hd'] at hmirrors
        exact hmirrors.exists_ok
  obtain ⟨d, hd⟩ := hends
  refine (analyze_ok_iff hd hvalid).2 fun most hmost => ?_
  obtain ⟨limit, hlimit, hlimit_le⟩ := hle most hmost
  exact ((analyze_ok_iff hd hvalid').1 ⟨result, hok⟩ limit hlimit).trans hlimit_le

/-- **The entity budget is exact.**  Let the walk over a program without a budget end.  With
room for at least the two sentinels the walk ends exactly if the entities fit, then with the
same outcome, and else it tells the budget.  For settings in range the analysis without a
budget succeeds, and the analysis runs out of entities exactly if its budget is below the count
that the former reports.  Whatever the program, an analysis that succeeds also succeeds with
more room.  The order in which sets are taken plays no part. -/
theorem budget_is_exact (program : Program) :
    (∀ d, generate program none = .ok d →
      (∀ limit, 2 ≤ limit → Metered program d limit) ∧
      ∀ config : Config.Analysis, config.validate = .ok () → ∀ order,
        ∃ result, analyze { config with maxEntities := none } program order = .ok result ∧
          result.stats.entities = d.pool.size ∧
          ∀ order' limit, analyze config program order' = .error (.error (.exhausted limit)) ↔
            config.maxEntities = some limit ∧ limit < result.stats.entities) ∧
    ∀ (config : Config.Analysis) (larger : Option Nat) (order order' : Inclusion.SetOrder),
      { config with maxEntities := larger }.validate = .ok () →
      (∀ most ∈ larger, ∃ limit ∈ config.maxEntities, limit ≤ most) →
      (∃ result, analyze config program order = .ok result) →
      ∃ result, analyze { config with maxEntities := larger } program order' = .ok result := by
  refine ⟨fun d hd => ⟨fun limit hlimit => metered hd hlimit, fun config hvalid order => ?_⟩,
    fun config larger order order' hvalid hle ⟨result, hok⟩ => analyze_mono hvalid hle hok⟩
  obtain ⟨result, hok, hentities⟩ :=
    analyze_of_generate order (Config.Analysis.validate_unlimited hvalid) hd
  refine ⟨result, hok, hentities, fun order' limit => ?_⟩
  rw [hentities]
  exact analyze_exhausted_iff hd hvalid limit

/-- Twelve entities fit, eleven do not, and with thirteen there is room to spare. -/
theorem budget_is_exact_walkCommands : ∃ program d result,
    Program.build? walkCommands = .ok program ∧ generate program none = .ok d ∧
    Metered program d 12 ∧ d.pool.size = 12 ∧ Metered program d 11 ∧
    analyze .default program = .ok result ∧ result.stats.entities = 12 ∧
    analyze { Config.Analysis.default with maxEntities := some 11 } program =
      .error (.error (.exhausted 11)) ∧
    (∃ fits, analyze { Config.Analysis.default with maxEntities := some 12 } program =
      .ok fits) ∧
    ∃ spare, analyze { Config.Analysis.default with maxEntities := some 13 } program =
      .ok spare := by
  have hrun : (do
      let program ← (Program.build? walkCommands).toOption
      let d ← (generate program none).toOption
      let _ ←
          (analyze { Config.Analysis.default with maxEntities := some 12 } program).toOption
      return d.pool.size) = some 12 := by decide +kernel
  simp only [Option.bind_eq_bind, Option.bind_eq_some_iff, toOption_eq_some, Option.pure_def,
    Option.some.injEq] at hrun
  obtain ⟨program, hbuild, d, hd, fits, hfits, hsize⟩ := hrun
  obtain ⟨hexact, hmono⟩ := budget_is_exact program
  obtain ⟨hmetered, hanalyze⟩ := hexact d hd
  obtain ⟨result, hok, hentities, hexhausted⟩ :=
    hanalyze { Config.Analysis.default with maxEntities := some 11 } (by decide) .ascending
  rw [hsize] at hentities
  refine ⟨program, d, result, hbuild, hd, hmetered 12 (by decide), hsize,
    hmetered 11 (by decide), hok, hentities, (hexhausted .ascending 11).2 ⟨rfl, by omega⟩,
    ⟨fits, hfits⟩, ?_⟩
  refine hmono { Config.Analysis.default with maxEntities := some 12 } (some 13) .ascending
    .ascending (by decide) ?_ ⟨fits, hfits⟩
  rintro most ⟨⟩
  exact ⟨12, rfl, by decide⟩

end Analysis
end PointerChannels
