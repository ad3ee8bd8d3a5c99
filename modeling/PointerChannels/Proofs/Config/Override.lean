import PointerChannels.Proofs.Config.Document

/-!
# What a document that leaves fields out means

A stage can be overridden in two ways: by a change to the settings it has so far, or by a
document that gives some of its fields.  A change starts from the settings of the preset.  A
document does not: the fields it leaves out of a stage have the values of the default preset,
whatever preset it names.  The two agree exactly when the document gives every field on which
its preset is not the default.

## Main definitions

* `Analysis.Patch`, `Encoder.Patch` — some fields of a stage.
* `Statement` — what a document says, with the fields it leaves out left out.
* `Statement.build` — the same fields set as changes to the preset.

## Main statements

* `parse_eq` — a text means its statement, completed by the default preset.
* `parse_completes_default` — what the configuration of a document is, and
  when it is the built one.
-/

namespace PointerChannels.Config

open Yaml

/-! ## Some fields of a stage -/

/-- Some fields of the analysis stage. -/
structure Analysis.Patch where
  /-- Which solver. -/
  mode : Option Mode
  /-- Collapse subset cycles. -/
  cycleDetection : Option Bool
  /-- Which end of the worklist is taken. -/
  worklist : Option Inclusion.Discipline
  /-- Let only new pointees flow. -/
  differencePropagation : Option Bool
  /-- How many entities there may be; the bound itself may be absent. -/
  maxEntities : Option (Option Nat)
  /-- The number of entities from which the automatic mode is fast. -/
  autoThreshold : Option Nat
  /-- Write the graph to the log. -/
  dumpDot : Option Bool
deriving DecidableEq, Repr

/-- Some fields of the encoding stage. -/
structure Encoder.Patch where
  /-- How memory nodes share channels. -/
  policy : Option Channel.PolicyKind
  /-- The bound of the bounded policy. -/
  maxChannels : Option Nat
deriving DecidableEq, Repr

namespace Analysis.Patch

/-- Set the fields that are given. -/
def apply (patch : Patch) (a : Analysis) : Analysis where
  mode := patch.mode.getD a.mode
  cycleDetection := patch.cycleDetection.getD a.cycleDetection
  worklist := patch.worklist.getD a.worklist
  differencePropagation := patch.differencePropagation.getD a.differencePropagation
  maxEntities := patch.maxEntities.getD a.maxEntities
  autoThreshold := patch.autoThreshold.getD a.autoThreshold
  dumpDot := patch.dumpDot.getD a.dumpDot

/-- The values that are given lie in their ranges. -/
structure InRange (patch : Patch) : Prop where
  maxEntities : ∀ bound ∈ patch.maxEntities, ∀ n ∈ bound, Field.maxEntities.admits n = true
  autoThreshold : ∀ n ∈ patch.autoThreshold, Field.autoThreshold.admits n = true

/-- Whether every field is given on which a preset is not the default. -/
def settles (patch : Patch) : Preset → Bool
  | .fast => patch.mode.isSome && patch.cycleDetection.isSome && patch.autoThreshold.isSome
  | .balanced => true
  | .thorough => patch.mode.isSome

end Analysis.Patch

namespace Encoder.Patch

/-- Set the fields that are given. -/
def apply (patch : Patch) (e : Encoder) : Encoder where
  policy := patch.policy.getD e.policy
  maxChannels := patch.maxChannels.getD e.maxChannels

/-- The values that are given lie in their ranges. -/
structure InRange (patch : Patch) : Prop where
  maxChannels : ∀ n ∈ patch.maxChannels, Field.maxChannels.admits n = true

/-- Whether every field is given on which a preset is not the default. -/
def settles (patch : Patch) : Preset → Bool
  | .fast => patch.maxChannels.isSome
  | .balanced => true
  | .thorough => patch.policy.isSome && patch.maxChannels.isSome

end Encoder.Patch

/-- A field that is given hides what it is set on. -/
theorem getD_eq_getD_iff {α : Type} {given : Option α} {a b : α} :
    given.getD a = given.getD b ↔ given.isSome = true ∨ a = b := by
  cases given <;> simp

theorem Analysis.Patch.apply_default_iff (patch : Analysis.Patch) (preset : Preset) :
    patch.apply .default = patch.apply (.ofPreset preset) ↔ patch.settles preset = true := by
  cases preset <;>
    simp [apply, settles, getD_eq_getD_iff, Analysis.default, Analysis.ofPreset, and_assoc]

theorem Encoder.Patch.apply_default_iff (patch : Encoder.Patch) (preset : Preset) :
    patch.apply .default = patch.apply (.ofPreset preset) ↔ patch.settles preset = true := by
  cases preset <;> simp [apply, settles, getD_eq_getD_iff, Encoder.default, Encoder.ofPreset]

/-- Values in range over settings in range are in range. -/
theorem getD_in_range {α : Type} {P : α → Prop} {given : Option α} {a : α}
    (h : ∀ x ∈ given, P x) (ha : P a) : P (given.getD a) := by
  cases given with
  | none => exact ha
  | some x => exact h x rfl

theorem Analysis.Patch.InRange.validate {patch : Analysis.Patch} (h : patch.InRange) :
    (patch.apply .default).validate = .ok () := by
  have hentities :
      ∀ n ∈ (patch.apply .default).maxEntities, Field.maxEntities.admits n = true :=
    getD_in_range
      (P := fun bound => ∀ n ∈ bound, Field.maxEntities.admits n = true) h.maxEntities
      fun n hn => nomatch hn
  have hthreshold : Field.autoThreshold.admits (patch.apply .default).autoThreshold = true :=
    getD_in_range (P := fun n => Field.autoThreshold.admits n = true) h.autoThreshold
      (by decide)
  rw [Analysis.validate_eq, bind_eq_ok]
  exact ⟨(), elim_eq_ok.2 fun n hn => checkField_eq_ok.2 (hentities n hn),
    checkField_eq_ok.2 hthreshold⟩

theorem Encoder.Patch.InRange.validate {patch : Encoder.Patch} (h : patch.InRange) :
    (patch.apply .default).validate = .ok () :=
  checkField_eq_ok.2
    (getD_in_range (P := fun n => Field.maxChannels.admits n = true) h.maxChannels (by decide))

/-! ## What a document says -/

/-- The value of a field, if it is given. -/
def Fields.given {α : Type} (fields : Fields) (name : String) (read : Node → Option α) :
    Option (Option α) :=
  match fields.lookup name with
  | some node => (read node).map some
  | none => some none

theorem Fields.read_eq_given {α : Type} {fields : Fields} {name : String}
    {read : Node → Option α} {default : α} :
    fields.read name read default = (fields.given name read).map (·.getD default) := by
  rw [Fields.read, Fields.given]
  cases fields.lookup name with
  | none => rfl
  | some node => simp [Function.comp_def]

/-- The fields of the analysis stage that a node gives. -/
def Analysis.Patch.ofNode? (d : Yaml.Document) (n : Node) : Option Analysis.Patch := do
  let fields ← Fields.ofNode? d n
  guard (fields.once Analysis.fieldNames)
  return {
    mode := ← fields.given "mode" (named? Mode.name Mode.all)
    cycleDetection := ← fields.given "enable_cycle_detection" Node.bool?
    worklist := ← fields.given "worklist" (named? disciplineName [.fifo, .lifo])
    differencePropagation := ← fields.given "difference_propagation" Node.bool?
    maxEntities := ← fields.given "max_entities" (Node.optional? size?)
    autoThreshold := ← fields.given "auto_threshold" size?
    dumpDot := ← fields.given "dump_dot" Node.bool? }

/-- The fields of the encoding stage that a node gives. -/
def Encoder.Patch.ofNode? (d : Yaml.Document) (n : Node) : Option Encoder.Patch := do
  let fields ← Fields.ofNode? d n
  guard (fields.once Encoder.fieldNames)
  return {
    policy := ← fields.given "policy" (named? policyName [.single, .perObject, .bounded])
    maxChannels := ← fields.given "max_channels" size? }

/-- What a document says, with the fields it leaves out left out. -/
structure Statement where
  /-- Its version, if it gives one. -/
  version : Option Nat
  /-- The name of the preset. -/
  preset : String
  /-- The fields of the analysis stage, if it has the stage. -/
  analysis : Option Analysis.Patch
  /-- The fields of the encoding stage, if it has the stage. -/
  encoder : Option Encoder.Patch
deriving DecidableEq, Repr

namespace Statement

/-- What a YAML document says. -/
def ofYaml? (d : Yaml.Document) : Option Statement := do
  let fields ← Fields.ofNode? d d.root
  guard (fields.only Document.fieldNames && fields.once Document.fieldNames)
  return {
    version := ← fields.read "version" (Node.optional? version?) none
    preset := ← (← fields.lookup "preset").text?
    analysis := ← fields.read "analysis" (Node.optional? (Analysis.Patch.ofNode? d)) none
    encoder := ← fields.read "encoder" (Node.optional? (Encoder.Patch.ofNode? d)) none }

/-- What a text says. -/
def ofText? (text : String) : Option Statement := do
  ofYaml? (← Yaml.Document.ofText? text)

/-- The document, with the fields that are left out completed by the default preset. -/
def document (st : Statement) : Document where
  version := st.version
  preset := st.preset
  analysis := st.analysis.map (·.apply .default)
  encoder := st.encoder.map (·.apply .default)

/-- The fields that are given, set as changes to a preset. -/
def build (st : Statement) (preset : Preset) : Config :=
  let c := Config.ofPreset preset
  let c := (st.analysis.map fun patch => c.overrideAnalysis patch.apply).getD c
  (st.encoder.map fun patch => c.overrideEncoder patch.apply).getD c

theorem analysisConfig_build (st : Statement) (preset : Preset) :
    (st.build preset).analysisConfig =
    (st.analysis.map (·.apply (.ofPreset preset))).getD (.ofPreset preset) := by
  unfold build
  cases st.analysis <;> cases st.encoder <;> rfl

theorem encoderConfig_build (st : Statement) (preset : Preset) :
    (st.build preset).encoderConfig =
    (st.encoder.map (·.apply (.ofPreset preset))).getD (.ofPreset preset) := by
  unfold build
  cases st.analysis <;> cases st.encoder <;> rfl

end Statement

theorem Analysis.ofNode?_eq_patch (d : Yaml.Document) (n : Node) :
    Analysis.ofNode? d n = (Analysis.Patch.ofNode? d n).map (·.apply .default) := by
  simp only [Analysis.ofNode?, Analysis.Patch.ofNode?, Fields.read_eq_given,
    Option.bind_eq_bind, Option.map_bind, Option.bind_map, Option.pure_def, Function.comp_def,
    Option.map_some]
  rfl

theorem Encoder.ofNode?_eq_patch (d : Yaml.Document) (n : Node) :
    Encoder.ofNode? d n = (Encoder.Patch.ofNode? d n).map (·.apply .default) := by
  simp only [Encoder.ofNode?, Encoder.Patch.ofNode?, Fields.read_eq_given, Option.bind_eq_bind,
    Option.map_bind, Option.bind_map, Option.pure_def, Function.comp_def, Option.map_some]
  rfl

/-- What may stand for nothing is changed where it stands for something. -/
theorem optional?_map {α β : Type} {read : Node → Option α}
    {read' : Node → Option β} {f : α → β} (h : ∀ n, read' n = (read n).map f) (n : Node) :
    Node.optional? read' n = (Node.optional? read n).map (Option.map f) := by
  unfold Node.optional?
  split
  · split <;> simp [h, Function.comp_def]
  · split
    · split <;> rfl
    · simp [h, Function.comp_def]
  · simp [h, Function.comp_def]

theorem Fields.read_map {α β : Type} {fields : Fields} {name : String} {read : Node → Option α}
    {read' : Node → Option β} {f : α → β} (h : ∀ n, read' n = (read n).map f) (default : α) :
    fields.read name read' (f default) = (fields.read name read default).map f := by
  rw [Fields.read, Fields.read]
  cases fields.lookup name with
  | none => rfl
  | some node => exact h node

theorem Document.ofYaml?_eq_statement (d : Yaml.Document) :
    Document.ofYaml? d = (Statement.ofYaml? d).map Statement.document := by
  have hanalysis :
      ∀ fields : Fields, fields.read "analysis" (Node.optional? (Analysis.ofNode? d)) none =
      (fields.read "analysis" (Node.optional? (Analysis.Patch.ofNode? d)) none).map
        (Option.map (·.apply .default)) := fun fields =>
    Fields.read_map (optional?_map (Analysis.ofNode?_eq_patch d)) none
  have hencoder :
      ∀ fields : Fields, fields.read "encoder" (Node.optional? (Encoder.ofNode? d)) none =
      (fields.read "encoder" (Node.optional? (Encoder.Patch.ofNode? d)) none).map
        (Option.map (·.apply .default)) := fun fields =>
    Fields.read_map (optional?_map (Encoder.ofNode?_eq_patch d)) none
  simp only [Document.ofYaml?, Statement.ofYaml?, hanalysis, hencoder, Option.bind_eq_bind,
    Option.map_bind, Option.bind_map, Option.pure_def, Function.comp_def, Option.map_some]
  rfl

/-- **A text means its statement**, completed by the default preset. -/
theorem parse_eq (text : String) : parse text =
    ((Statement.ofText? text).map fun st => st.document.config).getD (.error .malformed) := by
  have hdocument :
      Document.ofText? text = (Statement.ofText? text).map Statement.document := by
    rw [Document.ofText?, Statement.ofText?]
    cases Yaml.Document.ofText? text with
    | none => rfl
    | some d => exact Document.ofYaml?_eq_statement d
  rw [parse, hdocument]
  cases Statement.ofText? text <;> rfl

theorem Statement.config_document {st : Statement} {preset : Preset}
    (hversion : st.version = some supportedVersion)
    (hpreset : Preset.named st.preset = .ok preset)
    (hanalysis : ∀ patch ∈ st.analysis, patch.InRange)
    (hencoder : ∀ patch ∈ st.encoder, patch.InRange) :
    st.document.config = .ok ⟨preset, st.document.analysis, st.document.encoder⟩ := by
  have hvalid :
      (Config.mk preset st.document.analysis st.document.encoder).validate = .ok () := by
    rw [validate_eq, bind_eq_ok]
    refine ⟨(), elim_eq_ok.2 fun a ha => ?_, elim_eq_ok.2 fun e he => ?_⟩
    · obtain ⟨patch, hpatch, rfl⟩ := Option.map_eq_some_iff.1 ha
      exact (hanalysis patch hpatch).validate
    · obtain ⟨patch, hpatch, rfl⟩ := Option.map_eq_some_iff.1 he
      exact (hencoder patch hpatch).validate
  have hchecked : st.document.checkVersion = .ok () := by
    simp only [Document.checkVersion, document, hversion, if_true]
  have hnamed : Preset.named st.document.preset = .ok preset := hpreset
  simp only [Document.config, hchecked, hnamed, hvalid, bind, Except.bind]
  rfl

/-- Two ways to complete the fields of a stage that may be absent agree if they
do where it is there. -/
theorem getD_map_eq_iff {α β : Type} {given : Option α} {f g : α → β} {b : β} :
    (given.map f).getD b = (given.map g).getD b ↔ ∀ x ∈ given, f x = g x := by
  cases given <;> simp

/-- **A document completes its stages by the default preset.**  A document of the right version
whose values lie in their ranges is read.  A stage it does not have is that of its preset.  The
fields it leaves out of a stage it has are those of the default preset; so the stage is what it
would be with the same fields set as changes to the document's preset exactly if every field is
given on which that preset is not the default. -/
theorem parse_completes_default {text : String} {st : Statement} {preset : Preset}
    (hst : Statement.ofText? text = some st) (hversion : st.version = some supportedVersion)
    (hpreset : Preset.named st.preset = .ok preset)
    (hanalysis : ∀ patch ∈ st.analysis, patch.InRange)
    (hencoder : ∀ patch ∈ st.encoder, patch.InRange) :
    ∃ c, parse text = .ok c ∧ c.preset = preset ∧
      c.analysisConfig = (st.analysis.map (·.apply .default)).getD (.ofPreset preset) ∧
      c.encoderConfig = (st.encoder.map (·.apply .default)).getD (.ofPreset preset) ∧
      (c.analysisConfig = (st.build preset).analysisConfig ↔
        ∀ patch ∈ st.analysis, patch.settles preset = true) ∧
      (c.encoderConfig = (st.build preset).encoderConfig ↔
        ∀ patch ∈ st.encoder, patch.settles preset = true) := by
  refine ⟨⟨preset, st.document.analysis, st.document.encoder⟩, ?_, rfl, rfl, rfl, ?_, ?_⟩
  · rw [parse_eq, hst]
    exact Statement.config_document hversion hpreset hanalysis hencoder
  · rw [Statement.analysisConfig_build]
    exact getD_map_eq_iff.trans (forall₂_congr fun patch _ => patch.apply_default_iff preset)
  · rw [Statement.encoderConfig_build]
    exact getD_map_eq_iff.trans (forall₂_congr fun patch _ => patch.apply_default_iff preset)

/-- The mode is all that sets the analysis stage of the thorough preset apart, and it is given.
The bound of the encoding stage is left out, and is not that of the thorough preset. -/
def partlyThorough : String :=
  "preset: Thorough\nversion: 1\nencoder:\n  policy: single\n" ++
    "analysis:\n  max_entities: 1000\n  mode: fast\n"

theorem parse_completes_default_partlyThorough :
    ∃ st c, Statement.ofText? partlyThorough = some st ∧
    st.version = some supportedVersion ∧ Preset.named st.preset = .ok .thorough ∧
    (∀ patch ∈ st.analysis, patch.InRange) ∧ (∀ patch ∈ st.encoder, patch.InRange) ∧
    parse partlyThorough = .ok c ∧ c.analysisConfig = (st.build .thorough).analysisConfig ∧
    c.encoderConfig = ⟨.single, 64⟩ ∧
    c.encoderConfig ≠ (st.build .thorough).encoderConfig := by
  have hst : Statement.ofText? partlyThorough = some ⟨some 1, "Thorough",
      some ⟨some .fast, none, none, none, some (some 1000), none, none⟩,
      some ⟨some .single, none⟩⟩ := by decide +kernel
  have hanalysis :
      ∀ patch ∈ some (⟨some .fast, none, none, none, some (some 1000), none, none⟩ :
      Analysis.Patch), patch.InRange := by
    rintro _ ⟨⟩
    exact ⟨by decide, by decide⟩
  have hencoder : ∀ patch ∈ some (⟨some .single, none⟩ : Encoder.Patch), patch.InRange := by
    rintro _ ⟨⟩
    exact ⟨by decide⟩
  have hpreset : Preset.named "Thorough" = .ok .thorough := rfl
  obtain ⟨c, hparse, -, -, hc, hanalysis', hencoder'⟩ :=
    parse_completes_default hst rfl hpreset hanalysis hencoder
  exact ⟨_, c, hst, rfl, hpreset, hanalysis, hencoder, hparse, hanalysis'.2 (by decide), hc,
    fun h => absurd (hencoder'.1 h) (by decide)⟩

/-- A document that names the fast preset and gives one field of its encoding stage.  The other
one is not the preset's. -/
theorem parse_forgets_preset : ∃ text st c, Statement.ofText? text = some st ∧
    st.version = some supportedVersion ∧ Preset.named st.preset = .ok .fast ∧
    st.analysis = none ∧
    st.encoder = some ⟨some .perObject, none⟩ ∧ parse text = .ok c ∧
    c.encoderConfig = ⟨.perObject, 64⟩ ∧ (st.build .fast).encoderConfig = ⟨.perObject, 8⟩ := by
  have hst : Statement.ofText? "version: 1\npreset: fast\nencoder:\n  policy: per_object\n" =
      some ⟨some 1, "fast", none, some ⟨some .perObject, none⟩⟩ := by decide +kernel
  refine ⟨_, _, ⟨.fast, none, some ⟨.perObject, 64⟩⟩, hst, rfl, rfl, rfl, rfl, ?_, rfl, rfl⟩
  rw [parse_eq, hst]
  rfl

end PointerChannels.Config
