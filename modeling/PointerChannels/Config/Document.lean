import PointerChannels.Config.Basic
import PointerChannels.Yaml.Document

/-!
# Configuration documents

A configuration is kept as a YAML document: a version, the name of a preset and, for each stage
that is overridden, a mapping of its fields.

`Config.print` writes every field of an override.  `Config.parse` reads back what it writes and
more: fields may come in any order, a field left out has the value of the default preset, and
fields of a stage that are not known are passed over.  At the top only the four known fields
may stand.  No known field may stand twice.
-/

namespace PointerChannels.Config

/-- What a document says. -/
structure Document where
  /-- Its version, if it gives one. -/
  version : Option Nat
  /-- The name of the preset. -/
  preset : String
  /-- The settings of the analysis stage, if it gives them. -/
  analysis : Option Analysis
  /-- The settings of the encoding stage, if it gives them. -/
  encoder : Option Encoder
deriving DecidableEq, Repr

/-! ## Writing -/

/-- A line with a field and its value. -/
def fieldLine (name value : String) : String := name ++ ": " ++ value ++ "\n"

/-- A line with a field of a stage and its value. -/
def stageLine (name value : String) : String := "  " ++ fieldLine name value

/-- The text of a truth value. -/
def boolText : Bool → String
  | true => "true"
  | false => "false"

/-- The text of a number that may be missing. -/
def optionalText : Option Nat → String
  | some n => toString n
  | none => "null"

/-- The lines of the analysis stage. -/
def Analysis.print (a : Analysis) : String :=
  "analysis:\n" ++
    stageLine "mode" a.mode.name ++
    stageLine "enable_cycle_detection" (boolText a.cycleDetection) ++
    stageLine "worklist" (disciplineName a.worklist) ++
    stageLine "difference_propagation" (boolText a.differencePropagation) ++
    stageLine "max_entities" (optionalText a.maxEntities) ++
    stageLine "auto_threshold" (toString a.autoThreshold) ++
    stageLine "dump_dot" (boolText a.dumpDot)

/-- The lines of the encoding stage. -/
def Encoder.print (e : Encoder) : String :=
  "encoder:\n" ++
    stageLine "policy" (policyName e.policy) ++
    stageLine "max_channels" (toString e.maxChannels)

/-- The document of a configuration. -/
def print (c : Config) : String :=
  fieldLine "version" (toString supportedVersion) ++
    fieldLine "preset" c.preset.name ++
    (c.analysis.map Analysis.print).getD "" ++
    (c.encoder.map Encoder.print).getD ""

/-! ## Reading -/

/-- The fields of a mapping, by name. -/
abbrev Fields := List (String × Yaml.Node)

/-- The fields of a node of a document: a mapping with scalar keys, or an empty plain
scalar, which has none. -/
def Fields.ofNode? (d : Yaml.Document) : Yaml.Node → Option Fields
  | .mapping entries =>
    entries.mapM fun (key, value) => (d.follow key).text?.map (·, d.follow value)
  | .scalar .plain _ "" => some []
  | _ => none

namespace Fields

/-- Whether none of the names stands twice. -/
def once (fields : Fields) (names : List String) : Bool :=
  names.all fun name => fields.countP (·.1 = name) ≤ 1

/-- Whether only the given names stand. -/
def only (fields : Fields) (names : List String) : Bool :=
  fields.all fun field => names.contains field.1

/-- The value of a field, or a default if it is left out. -/
def read {α : Type} (fields : Fields) (name : String) (read : Yaml.Node → Option α)
    (default : α) : Option α :=
  match fields.lookup name with
  | some node => read node
  | none => some default

end Fields

/-- The value whose name a scalar chooses. -/
def named? {α : Type} (name : α → String) (all : List α) (n : Yaml.Node) : Option α :=
  match n.choice? with
  | some choice => all.find? (name · = choice)
  | none => none

/-- The number of a size field, below `2 ^ 64`. -/
def size? (n : Yaml.Node) : Option Nat := n.natural? (Nat.pow 2 64)

/-- The number of a version, below `2 ^ 32`. -/
def version? (n : Yaml.Node) : Option Nat := n.natural? (Nat.pow 2 32)

/-- The names of the fields of the analysis stage. -/
def Analysis.fieldNames : List String :=
  ["mode", "enable_cycle_detection", "worklist", "difference_propagation", "max_entities",
    "auto_threshold", "dump_dot"]

/-- The settings of the analysis stage that a node gives. -/
def Analysis.ofNode? (d : Yaml.Document) (n : Yaml.Node) : Option Analysis := do
  let fields ← Fields.ofNode? d n
  guard (fields.once fieldNames)
  let base := Analysis.default
  return {
    mode := ← fields.read "mode" (named? Mode.name Mode.all) base.mode
    cycleDetection := ← fields.read "enable_cycle_detection" Yaml.Node.bool?
      base.cycleDetection
    worklist := ← fields.read "worklist" (named? disciplineName [.fifo, .lifo]) base.worklist
    differencePropagation :=
      ← fields.read "difference_propagation" Yaml.Node.bool? base.differencePropagation
    maxEntities := ← fields.read "max_entities" (Yaml.Node.optional? size?) base.maxEntities
    autoThreshold := ← fields.read "auto_threshold" size? base.autoThreshold
    dumpDot := ← fields.read "dump_dot" Yaml.Node.bool? base.dumpDot }

/-- The names of the fields of the encoding stage. -/
def Encoder.fieldNames : List String := ["policy", "max_channels"]

/-- The settings of the encoding stage that a node gives. -/
def Encoder.ofNode? (d : Yaml.Document) (n : Yaml.Node) : Option Encoder := do
  let fields ← Fields.ofNode? d n
  guard (fields.once fieldNames)
  let base := Encoder.default
  return {
    policy := ← fields.read "policy"
      (named? policyName [.single, .perObject, .bounded]) base.policy
    maxChannels := ← fields.read "max_channels" size? base.maxChannels }

namespace Document

/-- The names of the fields of a document. -/
def fieldNames : List String := ["version", "preset", "analysis", "encoder"]

/-- What a YAML document says. -/
def ofYaml? (d : Yaml.Document) : Option Document := do
  let fields ← Fields.ofNode? d d.root
  guard (fields.only fieldNames && fields.once fieldNames)
  return {
    version := ← fields.read "version" (Yaml.Node.optional? version?) none
    preset := ← (← fields.lookup "preset").text?
    analysis := ← fields.read "analysis" (Yaml.Node.optional? (Analysis.ofNode? d)) none
    encoder := ← fields.read "encoder" (Yaml.Node.optional? (Encoder.ofNode? d)) none }

/-- The document that a text holds. -/
def ofText? (text : String) : Option Document := do
  ofYaml? (← Yaml.Document.ofText? text)

/-- Whether the document has the version that can be read. -/
def checkVersion (d : Document) : Except Error Unit :=
  match d.version with
  | none => .error .missingVersion
  | some version =>
    if version = supportedVersion then .ok () else .error (.unsupportedVersion version)

/-- The configuration that a document gives, if its version, its preset and
its fields are right. -/
def config (d : Document) : Except Error Config := do
  d.checkVersion
  let preset ← Preset.named d.preset
  let config : Config := ⟨preset, d.analysis, d.encoder⟩
  config.validate
  return config

end Document

/-- The configuration that a text gives. -/
def parse (text : String) : Except Error Config :=
  match Document.ofText? text with
  | some d => d.config
  | none => .error .malformed

/-- The configuration that a file gives; there may be no file, or none that is text. -/
def ofFile (content : Option ByteArray) : Except Error Config :=
  match content.bind String.fromUTF8? with
  | some text => parse text
  | none => .error .unreadable

end PointerChannels.Config
