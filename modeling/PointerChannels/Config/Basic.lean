import PointerChannels.Channel
import PointerChannels.Inclusion

/-!
# Configuration

A configuration is a preset and, for each of the two stages, at most one override that replaces
the preset's settings of that stage.  An override is checked against the ranges of its fields;
the presets lie within them.
-/

namespace PointerChannels.Config

/-! ## Errors -/

/-- A field with a range. -/
inductive Field where
  /-- The entity budget. -/
  | maxEntities
  /-- The size from which the automatic mode is fast. -/
  | autoThreshold
  /-- The bound of the bounded policy. -/
  | maxChannels
deriving DecidableEq, Repr

namespace Field

/-- The field's name in documents. -/
def name : Field → String
  | maxEntities => "max_entities"
  | autoThreshold => "auto_threshold"
  | maxChannels => "max_channels"

/-- The least value allowed. -/
def least : Field → Nat
  | maxEntities => 2
  | autoThreshold => 1
  | maxChannels => 1

/-- The largest value allowed. -/
def largest : Field → Nat
  | maxEntities => 4294967295
  | autoThreshold => 10000000
  | maxChannels => 65536

/-- What to do about a value outside the range. -/
def hint : Field → String
  | maxEntities => "The budget must leave room for the unknown and external memory entities"
  | autoThreshold => "Auto threshold must be reasonable"
  | maxChannels => "Use policy 'single' for one channel or 'per_object' for no cap"

/-- Whether a value lies in the field's range. -/
def admits (field : Field) (value : Nat) : Bool :=
  field.least ≤ value && value ≤ field.largest

end Field

/-- The version of documents that can be read. -/
def supportedVersion : Nat := 1

/-- What is wrong with a configuration or its document. -/
inductive Error where
  /-- A field's value lies outside its range. -/
  | range (field : Field) (value : Nat)
  /-- The document has no version. -/
  | missingVersion
  /-- The document has a version that cannot be read. -/
  | unsupportedVersion (found : Nat)
  /-- There is no preset of the name. -/
  | unknownPreset (name : String)
  /-- The file cannot be read as text. -/
  | unreadable
  /-- The text is not a document of the expected shape. -/
  | malformed
deriving DecidableEq, Repr

/-- The wording of an error. -/
def Error.message : Error → String
  | range field value =>
    "Invalid range for field '" ++ field.name ++ s!"': {value} not in {field.least}..=" ++
      s!"{field.largest}. " ++ field.hint
  | missingVersion =>
    "Missing 'version' field in configuration file. Add 'version: 1' to the top of your YAML file."
  | unsupportedVersion found =>
    s!"Unsupported configuration version {found}. Supported versions: {supportedVersion}"
  | unknownPreset name =>
    "Unknown preset '" ++ name ++ "'. Valid presets: fast, balanced, thorough"
  | unreadable => "IO error"
  | malformed => "YAML parsing error"

/-! ## Presets and stages -/

/-- A choice of settings for both stages. -/
inductive Preset where
  /-- For large inputs. -/
  | fast
  /-- The default. -/
  | balanced
  /-- For the most precise answer. -/
  | thorough
deriving DecidableEq, Repr

namespace Preset

/-- The name of a preset. -/
def name : Preset → String
  | fast => "fast"
  | balanced => "balanced"
  | thorough => "thorough"

/-- All presets. -/
def all : List Preset := [fast, balanced, thorough]

/-- The preset of a name, whatever its case.  Only the letters `A` to `Z` have to be folded: no
other character folds to a letter of a preset's name. -/
def named (text : String) : Except Error Preset :=
  match all.find? fun preset => preset.name.toList = text.toList.map Char.toLower with
  | some preset => .ok preset
  | none => .error (.unknownPreset text)

end Preset

/-- Which solver the analysis uses. -/
inductive Mode where
  /-- The fast one. -/
  | fast
  /-- The precise one. -/
  | precise
  /-- The precise one below a number of entities, else the fast one. -/
  | auto
deriving DecidableEq, Repr

/-- The name of a mode. -/
def Mode.name : Mode → String
  | fast => "fast"
  | precise => "precise"
  | auto => "auto"

/-- All modes. -/
def Mode.all : List Mode := [.fast, .precise, .auto]

/-- Settings of the analysis stage. -/
structure Analysis where
  /-- Which solver. -/
  mode : Mode
  /-- Collapse subset cycles. -/
  cycleDetection : Bool
  /-- Which end of the worklist is taken. -/
  worklist : Inclusion.Discipline
  /-- Let only new pointees flow. -/
  differencePropagation : Bool
  /-- How many entities there may be, sentinels included. -/
  maxEntities : Option Nat
  /-- The number of entities from which the automatic mode is fast. -/
  autoThreshold : Nat
  /-- Write the graph to the log. -/
  dumpDot : Bool
deriving DecidableEq, Repr

/-- Settings of the encoding stage. -/
structure Encoder where
  /-- How memory nodes share channels. -/
  policy : Channel.PolicyKind
  /-- The bound of the bounded policy. -/
  maxChannels : Nat
deriving DecidableEq, Repr

/-- The names of disciplines in documents. -/
def disciplineName : Inclusion.Discipline → String
  | .fifo => "fifo"
  | .lifo => "lifo"

/-- The names of disciplines in descriptions. -/
def disciplineTitle : Inclusion.Discipline → String
  | .fifo => "Fifo"
  | .lifo => "Lifo"

/-- The names of policies in documents. -/
def policyName : Channel.PolicyKind → String
  | .single => "single"
  | .perObject => "per_object"
  | .bounded => "bounded"

/-- The names of policies in descriptions. -/
def policyTitle : Channel.PolicyKind → String
  | .single => "Single"
  | .perObject => "PerObject"
  | .bounded => "Bounded"

/-- Whether a value may stand in a field. -/
def checkField (field : Field) (value : Nat) : Except Error Unit :=
  if field.admits value then .ok () else .error (.range field value)

namespace Analysis

/-- The name of the stage's settings. -/
def title : String := "AnalysisConfig"

/-- The settings of a preset. -/
def ofPreset : Preset → Analysis
  | .fast => ⟨.fast, false, .fifo, true, none, 5000, false⟩
  | .balanced => ⟨.auto, true, .fifo, true, none, 100000, false⟩
  | .thorough => ⟨.precise, true, .fifo, true, none, 100000, false⟩

/-- The settings of the default preset. -/
def default : Analysis := ofPreset .balanced

/-- Whether every field lies in its range. -/
def validate (a : Analysis) : Except Error Unit := do
  match a.maxEntities with
  | some limit => checkField .maxEntities limit
  | none => pure ()
  checkField .autoThreshold a.autoThreshold

/-- The solver for a number of entities; never the automatic mode. -/
def resolveMode (a : Analysis) (entities : Nat) : Mode :=
  match a.mode with
  | .auto => if entities < a.autoThreshold then .precise else .fast
  | mode => mode

/-- The strategy of the precise solver. -/
def inclusion (a : Analysis) : Inclusion.Settings :=
  ⟨a.cycleDetection, a.worklist, a.differencePropagation⟩

end Analysis

namespace Encoder

/-- The name of the stage's settings. -/
def title : String := "EncoderConfig"

/-- The settings of a preset. -/
def ofPreset : Preset → Encoder
  | .fast => ⟨.bounded, 8⟩
  | .balanced => ⟨.bounded, 64⟩
  | .thorough => ⟨.perObject, 65536⟩

/-- The settings of the default preset. -/
def default : Encoder := ofPreset .balanced

/-- Whether every field lies in its range. -/
def validate (e : Encoder) : Except Error Unit := checkField .maxChannels e.maxChannels

end Encoder

/-- Whether all of several settings lie in their ranges; the first that
does not is reported. -/
def validateAll {α : Type} (validate : α → Except Error Unit) (configs : List α) :
    Except Error Unit :=
  configs.forM validate

end Config

/-- A preset with overrides. -/
structure Config where
  /-- The preset. -/
  preset : Config.Preset
  /-- The settings of the analysis stage, if not the preset's. -/
  analysis : Option Config.Analysis
  /-- The settings of the encoding stage, if not the preset's. -/
  encoder : Option Config.Encoder
deriving DecidableEq, Repr

namespace Config

/-- A preset without overrides. -/
def ofPreset (preset : Preset) : Config := ⟨preset, none, none⟩

/-- The default preset without overrides. -/
def default : Config := ofPreset .balanced

/-- The settings of the analysis stage. -/
def analysisConfig (c : Config) : Analysis := c.analysis.getD (.ofPreset c.preset)

/-- The settings of the encoding stage. -/
def encoderConfig (c : Config) : Encoder := c.encoder.getD (.ofPreset c.preset)

/-- Override the analysis stage, starting from its settings so far. -/
def overrideAnalysis (c : Config) (change : Analysis → Analysis) : Config :=
  { c with analysis := some (change c.analysisConfig) }

/-- Override the encoding stage, starting from its settings so far. -/
def overrideEncoder (c : Config) (change : Encoder → Encoder) : Config :=
  { c with encoder := some (change c.encoderConfig) }

/-- Whether any stage is overridden. -/
def hasOverrides (c : Config) : Bool := c.analysis.isSome || c.encoder.isSome

/-- Whether every override lies in its ranges. -/
def validate (c : Config) : Except Error Unit := do
  validateAll Analysis.validate c.analysis.toList
  validateAll Encoder.validate c.encoder.toList

/-- The configuration on one line. -/
def describe (c : Config) : String :=
  let a := c.analysisConfig
  let e := c.encoderConfig
  "preset=" ++ c.preset.name ++ " mode=" ++ a.mode.name ++
    s!" cycle_detection={a.cycleDetection}" ++ " worklist=" ++ disciplineTitle a.worklist ++
    " channels=" ++ policyTitle e.policy ++ s!"/{e.maxChannels}" ++
    (if c.hasOverrides then " (overridden)" else "")

end Config
end PointerChannels
