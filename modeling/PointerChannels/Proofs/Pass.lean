import PointerChannels.Pass
import PointerChannels.Proofs.Analysis.Total
import PointerChannels.Proofs.Encoding.Range

/-!
# The whole pass

On a built program whose values exist, and under a configuration in range, the pass meets no
fault: it is stopped by the entity budget of its analysis, which leaves the program as it is,
or it encodes all of the program.

## Main statements

* `Config.validate_stages` — the settings of both stages are in range.
* `Pass.run_complete` — the pass is stopped by its budget or encodes all of the program.
-/

namespace PointerChannels

/-! ## Settings -/

namespace Config

/-- Presets lie in their ranges, so the settings in force do if an override does. -/
theorem validate_getD {α : Type} {validate : α → Except Error Unit} {override : Option α}
    {preset : α} (hpreset : validate preset = .ok ())
    (h : validateAll validate override.toList = .ok ()) :
    validate (override.getD preset) = .ok () := by
  cases override with
  | none => exact hpreset
  | some a =>
      obtain ⟨⟨⟩, ha, -⟩ := bind_eq_ok.1 h
      exact ha

/-- **The settings of both stages are in range** if the configuration is. -/
theorem validate_stages {config : Config} (h : config.validate = .ok ()) :
    config.analysisConfig.validate = .ok () ∧ config.encoderConfig.validate = .ok () := by
  obtain ⟨⟨⟩, hanalysis, hencoder⟩ := bind_eq_ok.1 h
  exact ⟨validate_getD (by cases config.preset <;> rfl) hanalysis,
    validate_getD (by cases config.preset <;> rfl) hencoder⟩

theorem Encoder.limit_of_validate {e : Encoder} (h : e.validate = .ok ()) :
    0 < e.maxChannels ∧ e.maxChannels ≤ Channel.maxNumber := by
  rw [validate, checkField] at h
  split at h
  · next hadmits =>
      obtain ⟨hleast, hlargest⟩ := Bool.and_eq_true_iff.1 hadmits
      have hle : e.maxChannels ≤ 65536 := of_decide_eq_true hlargest
      exact ⟨of_decide_eq_true hleast, Nat.le_trans hle (by decide)⟩
  · exact absurd h (by simp)

end Config

theorem Channel.Policy.create_ok (kind : PolicyKind) (g : Graph) {limit : Nat}
    (hpos : 0 < limit) (hle : limit ≤ maxNumber) :
    ∃ policy, create kind g limit = .ok policy := by
  cases kind with
  | single => exact ⟨_, rfl⟩
  | perObject => exact ⟨_, rfl⟩
  | bounded =>
      rw [create, if_neg (Nat.ne_of_gt hpos), if_neg (Nat.not_lt.2 hle)]
      exact ⟨_, rfl⟩

/-! ## The pass -/

namespace Pass

variable {config : Config} {program encoded : Program} {order : Inclusion.SetOrder}

theorem analyzed_eq_ok {result : Analysis.Result} :
    analyzed order config program = .ok result ↔
    Analysis.analyze config.analysisConfig program order = .ok result := by
  unfold analyzed
  split <;> simp_all

/-- A pass in place and its parts. -/
theorem perform_eq_ok {report : Report} : perform order config program = .ok report encoded ↔
    checked config = .ok () ∧
    ∃ result policy stats, analyzed order config program = .ok result ∧
      Channel.Policy.create config.encoderConfig.policy result.graph
        config.encoderConfig.maxChannels = .ok policy ∧
      Encoding.encode policy result.graph program = .ok (stats, encoded) ∧
      report = ⟨result.graph, result.stats, stats⟩ := by
  simp only [perform, inPlace_bind_eq_ok, liftM, monadLift, MonadLift.monadLift, inPlace_eq_ok,
    Failure.lift_eq_ok]
  constructor
  · rintro ⟨_, _, ⟨hchecked, rfl⟩, _, _, hget, result, _, ⟨hresult, rfl⟩, policy, _,
      ⟨hpolicy, rfl⟩, _, _, hget', ⟨stats, _⟩, _, ⟨hencode, rfl⟩, _, _, hset, hreport⟩
    obtain ⟨rfl, rfl⟩ := EStateM.Result.ok.inj hget
    obtain ⟨rfl, rfl⟩ := EStateM.Result.ok.inj hget'
    obtain ⟨-, rfl⟩ := EStateM.Result.ok.inj hset
    obtain ⟨rfl, rfl⟩ := EStateM.Result.ok.inj hreport
    exact ⟨hchecked, result, policy, stats, hresult, hpolicy, hencode, rfl⟩
  · rintro ⟨hchecked, result, policy, stats, hresult, hpolicy, hencode, rfl⟩
    exact ⟨(), _, ⟨hchecked, rfl⟩, _, _, rfl, result, _, ⟨hresult, rfl⟩, policy, _,
      ⟨hpolicy, rfl⟩, _, _, rfl, (stats, encoded), _, ⟨hencode, rfl⟩, (), _, rfl, rfl⟩

/-- An analysis that fails leaves the program as it is. -/
theorem perform_of_error (hchecked : checked config = .ok ()) {cause : Failure Error}
    (h : analyzed order config program = .error cause) :
    perform order config program = .error cause program := by
  rw [perform, inPlace_bind_of_ok hchecked, inPlace_get_bind, inPlace_bind_of_error h]

/-- A run is a pass in place. -/
theorem run_eq_ok {out : Output} : run config program order = .ok out ↔
    perform order config program = .ok out.toReport out.program := by
  simp only [run, bind_eq_ok, Failure.settled_eq_ok, pure_eq_ok]
  constructor
  · rintro ⟨⟨report, encoded⟩, h, rfl⟩
    exact h
  · intro h
    exact ⟨(out.toReport, out.program), h, rfl⟩

/-- A run and its parts. -/
theorem run_parts {out : Output} :
    run config program order = .ok out ↔ checked config = .ok () ∧
    ∃ result policy stats encoded, analyzed order config program = .ok result ∧
      Channel.Policy.create config.encoderConfig.policy result.graph
        config.encoderConfig.maxChannels = .ok policy ∧
      Encoding.encode policy result.graph program = .ok (stats, encoded) ∧
      out = ⟨⟨result.graph, result.stats, stats⟩, encoded⟩ := by
  obtain ⟨report, encoded⟩ := out
  rw [run_eq_ok, perform_eq_ok]
  refine and_congr_right fun _ => exists_congr fun result => exists_congr fun policy =>
    exists_congr fun stats => ?_
  simp

theorem run_of_error {cause : Failure Error}
    (h : perform order config program = .error cause encoded) :
    run config program order = .error cause := by
  simp only [run, h, Failure.settled, bind, Except.bind]

/-- **The pass is stopped by its budget or encodes all of the program.**  For every program
built by commands in which all values that operations read, functions return and the program
exports exist, and for every configuration in range, a run meets no fault, in whichever order
it takes the members of sets.  It ends in one of two ways.  Either the analysis needs more
entities than the configuration allows, and then the program is as it was.  Or the run
succeeds, every memory operation has at least one channel and only channels below the
reported count, every other operation has no memory state, and as many operations are
reported as touch memory. -/
theorem run_complete {commands : List Command} (hbuild : Program.build? commands = .ok program)
    (hresolved : program.Resolved) (hvalid : config.validate = .ok ())
    (order : Inclusion.SetOrder) :
    (∃ limit, config.analysisConfig.maxEntities = some limit ∧
      Analysis.analyze config.analysisConfig program order =
        .error (.error (.exhausted limit)) ∧
      perform order config program = .error (.error (.analysis (.exhausted limit))) program ∧
      run config program order = .error (.error (.analysis (.exhausted limit)))) ∨
    ∃ out, perform order config program = .ok out.toReport out.program ∧
      run config program order = .ok out ∧
      out.encoding.operations = program.numMemoryOperations ∧
      (∀ op ∈ program.operations, op.kind.touchesMemory = true → ∃ uses defs,
        out.program.HasState op (.encoded uses defs) ∧ (∃ x, x ∈ uses.union defs) ∧
          ∀ x ∈ uses.union defs, x < out.encoding.channelCount) ∧
      ∀ op ∈ program.operations, op.kind.touchesMemory = false →
        out.program.HasState op .none := by
  have hp := Program.coherent_of_build? hbuild
  have hshaped := Program.shaped_of_build? hbuild
  obtain ⟨hanalysis, hencoder⟩ := Config.validate_stages hvalid
  have hchecked : checked config = .ok () := by rw [checked, hvalid]
  rcases Analysis.analyze_total order hp hshaped hresolved hanalysis with
    ⟨result, hok⟩ | ⟨limit, hlimit, hstop⟩
  · obtain ⟨hpos, hle⟩ := Config.Encoder.limit_of_validate hencoder
    obtain ⟨policy, hpolicy⟩ :=
      Channel.Policy.create_ok config.encoderConfig.policy result.graph hpos hle
    obtain ⟨stats, encoded, hencode, hcomplete⟩ := Encoding.encode_complete hp hshaped
      (Encoding.ready_of_analyze hp hok hpolicy) hpolicy
    have hanalyzed : analyzed order config program = .ok result := analyzed_eq_ok.2 hok
    have hperform : perform order config program =
        .ok ⟨result.graph, result.stats, stats⟩ encoded :=
      perform_eq_ok.2 ⟨hchecked, result, policy, stats, hanalyzed, hpolicy, hencode, rfl⟩
    exact .inr ⟨⟨⟨result.graph, result.stats, stats⟩, encoded⟩, hperform, run_eq_ok.2 hperform,
      hcomplete.operations_eq, hcomplete.memory, hcomplete.other⟩
  · have hanalyzed : analyzed order config program =
        .error (.error (.analysis (.exhausted limit))) := by
      rw [analyzed, hstop]
      rfl
    have hperform := perform_of_error hchecked hanalyzed
    exact .inl ⟨limit, hlimit, hstop, hperform, run_of_error hperform⟩

/-- A call through an integer, a copy between two slots, and a load whose value is returned. -/
def mixedCommands : List Command :=
  [.declareImport "log", .declareFunction "main" [.scalar], .alloca 0 "a", .malloc 0 "b",
    .memcpy 0 3 4, .store 0 3 4, .load 0 3 .pointer, .call 0 2 [5] [.pointer],
    .setResults 0 [5, 6], .exportFunction 0]

/-- Under the default configuration, which sets no budget, all of the program is encoded. -/
theorem run_complete_mixedCommands : ∃ program,
    Program.build? mixedCommands = .ok program ∧ program.Resolved ∧
    Config.default.validate = .ok () ∧ ∃ out,
      perform .ascending .default program = .ok out.toReport out.program ∧
      run .default program = .ok out ∧
      out.encoding.operations = program.numMemoryOperations ∧
      (∀ op ∈ program.operations, op.kind.touchesMemory = true → ∃ uses defs,
        out.program.HasState op (.encoded uses defs) ∧ (∃ x, x ∈ uses.union defs) ∧
          ∀ x ∈ uses.union defs, x < out.encoding.channelCount) ∧
      ∀ op ∈ program.operations, op.kind.touchesMemory = false →
        out.program.HasState op .none := by
  have hrun : (do
      let program ← (Program.build? mixedCommands).toOption
      return decide program.Resolved) = some true := by decide +kernel
  simp only [Option.bind_eq_bind, Option.bind_eq_some_iff, toOption_eq_some, Option.pure_def,
    Option.some.injEq, decide_eq_true_eq] at hrun
  obtain ⟨program, hbuild, hresolved⟩ := hrun
  refine ⟨program, hbuild, hresolved, rfl, ?_⟩
  refine (run_complete hbuild hresolved rfl .ascending).resolve_left ?_
  rintro ⟨limit, hlimit, -⟩
  exact Option.some_ne_none limit hlimit.symm

end Pass
end PointerChannels
