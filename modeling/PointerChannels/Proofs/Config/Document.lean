import PointerChannels.Config.Document
import PointerChannels.Proofs.Fold
import PointerChannels.Proofs.Yaml.Outline

/-!
# Configurations written and read back

The document of a configuration is an outline: its version and its preset are fields, and each
stage that is overridden is a group.  So it is read back field by field, and what is left of
reading is the check of the ranges.  These lie within the width of the numbers of a document,
so nothing that passes the check is lost on the way.

## Main definitions

* `Config.outline` — the outline of a configuration.
* `Config.fields` — what the outline says.
* `Config.Sized` — the numbers of the overrides fit their width.
* `RangeCheck` — a check that fails only over a value outside its range.

## Main statements

* `print_eq` — the document is the outline, written.
* `parse_print` — reading what has been written only checks the ranges.
* `parse_print_iff` — writing and reading are inverse on valid configurations.
-/

namespace PointerChannels

/-! ## Numbers -/

namespace Yaml

theorem digitsFrom_ten {cs : List Char} (hcs : ∀ c ∈ cs, c.isDigit = true) (n : Nat) :
    digitsFrom 10 n cs = some (Nat.ofDigitChars 10 cs n) := by
  induction cs generalizing n with
  | nil => rfl
  | cons c cs ih =>
      obtain ⟨hc, hcs⟩ := List.forall_mem_cons.1 hcs
      have hdigit : digit? 10 c = some (c.toNat - '0'.toNat) := by
        have hle : c.toNat ≤ 57 := by
          simp only [Char.isDigit, Bool.and_eq_true, decide_eq_true_eq,
            UInt32.le_iff_toNat_le] at hc
          exact hc.2
        have hlt : c.toNat - 48 < 10 := by omega
        simp [digit?, hc, hlt]
      rw [digitsFrom, hdigit]
      simp only [ih hcs, Nat.ofDigitChars, List.foldl_cons, Nat.mul_comm]

/-- The first digit of a number is a zero only if the number is. -/
theorem head?_toDigits {n : Nat} (hn : 0 < n) : (Nat.toDigits 10 n).head? ≠ some '0' := by
  induction n using Nat.strongRecOn with
  | _ n ih =>
      rw [Nat.toDigits_eq_if (by decide)]
      split
      · next hlt =>
          have hall : ∀ m < 10, 0 < m → [m.digitChar].head? ≠ some '0' := by decide
          exact hall n hlt hn
      · next hge =>
          have hdiv : 0 < n / 10 := by omega
          obtain ⟨c, cs, hcs⟩ :=
            List.exists_cons_of_ne_nil (Nat.toDigits_ne_nil (n := n / 10) (b := 10))
          have hhead := ih (n / 10) (by omega) hdiv
          rw [hcs] at hhead ⊢
          exact hhead

namespace Node

theorem naturalText?_digits {c : Char} {cs : List Char} (hc : c.isDigit = true)
    (hzero : c ≠ '0') : naturalText? (c :: cs) = digits? 10 (c :: cs) := by
  have hplus : c ≠ '+' := by
    rintro rfl
    exact absurd hc (by decide)
  simp [naturalText?, unsigned?, decimal?, hplus, hzero]

/-- A number that has been written is read back. -/
theorem naturalText?_toString (n : Nat) : naturalText? (toString n).toList = some n := by
  rw [Nat.toString_eq_ofList_toDigits, String.toList_ofList]
  rcases Nat.eq_zero_or_pos n with rfl | hn
  · rfl
  have hdigits : ∀ c ∈ Nat.toDigits 10 n, c.isDigit = true :=
    fun c hc => Nat.isDigit_of_mem_toDigits (by decide) (by decide) hc
  have hhead := head?_toDigits hn
  have hvalue : digits? 10 (Nat.toDigits 10 n) = some n := by
    rw [digits?, if_neg (by simp), digitsFrom_ten hdigits, Nat.ofDigitChars_ten_toDigits]
  obtain ⟨c, cs, hcs⟩ := List.exists_cons_of_ne_nil (Nat.toDigits_ne_nil (n := n) (b := 10))
  rw [hcs] at hdigits hhead hvalue ⊢
  rw [naturalText?_digits (hdigits c (by simp)) (by simpa using hhead), hvalue]

/-- No word for nothing is a number. -/
theorem isNullText_toString (n : Nat) : isNullText (toString n) = false := by
  have hnull :
      ∀ text ∈ ["", "~", "null", "Null", "NULL"], naturalText? text.toList = none := by
    decide
  have hmem : toString n ∉ ["", "~", "null", "Null", "NULL"] := by
    intro hmem
    exact absurd ((hnull _ hmem).symm.trans (naturalText?_toString n)) (by simp)
  simpa [isNullText, isNullWord] using hmem

end Node

theorem isWord_toString (n : Nat) : IsWord (toString n) := by
  rw [Nat.toString_eq_ofList_toDigits, IsWord, String.toList_ofList]
  refine ⟨Nat.toDigits_ne_nil, List.all_eq_true.2 fun c hc => ?_⟩
  have hdigit := Nat.isDigit_of_mem_toDigits (by decide) (by decide) hc
  simp [isWordChar, Char.isAlphanum, hdigit]

/-- A text is the texts of its parts. -/
theorem Line.text_append (ls ls' : List Line) : text (ls ++ ls') = text ls ++ text ls' := by
  induction ls with
  | nil => rfl
  | cons l ls ih => simp [text, ih]

end Yaml

namespace Config

open Yaml

/-! ## Outlines of configurations -/

theorem isWord_boolText (b : Bool) : IsWord (boolText b) := by cases b <;> decide

theorem isWord_optionalText (n : Option Nat) : IsWord (optionalText n) := by
  cases n with
  | none => decide
  | some n => exact isWord_toString n

theorem isWord_mode (m : Mode) : IsWord m.name := by cases m <;> decide

theorem isWord_discipline (d : Inclusion.Discipline) : IsWord (disciplineName d) := by
  cases d <;> decide

theorem isWord_policy (p : Channel.PolicyKind) : IsWord (policyName p) := by cases p <;> decide

theorem isWord_preset (p : Preset) : IsWord p.name := by cases p <;> decide

/-- The outline of the analysis stage. -/
def Analysis.item (a : Analysis) : Item :=
  .group (.of "analysis" (by decide))
    ⟨.of "mode" (by decide), .of a.mode.name (isWord_mode _)⟩
    [⟨.of "enable_cycle_detection" (by decide),
        .of (boolText a.cycleDetection) (isWord_boolText _)⟩,
      ⟨.of "worklist" (by decide), .of (disciplineName a.worklist) (isWord_discipline _)⟩,
      ⟨.of "difference_propagation" (by decide),
        .of (boolText a.differencePropagation) (isWord_boolText _)⟩,
      ⟨.of "max_entities" (by decide),
        .of (optionalText a.maxEntities) (isWord_optionalText _)⟩,
      ⟨.of "auto_threshold" (by decide), .of (toString a.autoThreshold) (isWord_toString _)⟩,
      ⟨.of "dump_dot" (by decide), .of (boolText a.dumpDot) (isWord_boolText _)⟩]

/-- The outline of the encoding stage. -/
def Encoder.item (e : Encoder) : Item :=
  .group (.of "encoder" (by decide))
    ⟨.of "policy" (by decide), .of (policyName e.policy) (isWord_policy _)⟩
    [⟨.of "max_channels" (by decide), .of (toString e.maxChannels) (isWord_toString _)⟩]

/-- The outline of a configuration. -/
def outline (c : Config) : List Item :=
  .field ⟨.of "version" (by decide), .of (toString supportedVersion) (isWord_toString _)⟩ ::
    .field ⟨.of "preset" (by decide), .of c.preset.name (isWord_preset _)⟩ ::
      ((c.analysis.map Analysis.item).toList ++ (c.encoder.map Encoder.item).toList)

theorem text_field (f : Yaml.Field) (ls : List Line) :
    Line.text (f.line 0 :: ls) = (fieldLine f.key.text f.value.text).toList ++
      Line.text ls := by
  simp [Line.text, Field.line, Line.valueChars, fieldLine, Word.text]

theorem text_stageField (f : Yaml.Field) (ls : List Line) :
    Line.text (f.line 2 :: ls) = (stageLine f.key.text f.value.text).toList ++
      Line.text ls := by
  simp [Line.text, Field.line, Line.valueChars, stageLine, fieldLine, Word.text,
    List.replicate]

theorem text_header (key : Key) (ls : List Line) :
    Line.text (⟨0, key, none⟩ :: ls) = (key.text ++ ":\n").toList ++ Line.text ls := by
  simp [Line.text, Line.valueChars, Word.text]

theorem text_group (key : Key) (first : Yaml.Field) (rest : List Yaml.Field) :
    Line.text (Item.group key first rest).lines = (key.text ++ ":\n").toList ++
      (first :: rest).flatMap fun f => (stageLine f.key.text f.value.text).toList := by
  have hfields : ∀ fs : List Yaml.Field, Line.text (fs.map (Field.line 2)) =
      fs.flatMap fun f => (stageLine f.key.text f.value.text).toList := by
    intro fs
    induction fs with
    | nil => rfl
    | cons f fs ih => rw [List.map_cons, text_stageField, ih, List.flatMap_cons]
  rw [Item.lines, text_header, hfields]

theorem text_analysis (a : Analysis) : Line.text a.item.lines = a.print.toList := by
  rw [Analysis.item, text_group]
  unfold Analysis.print
  simp only [List.flatMap_cons, List.flatMap_nil, Key.toWord_of, Word.text_of,
    String.toList_append, List.append_assoc, List.append_nil]
  rfl

theorem text_encoder (e : Encoder) : Line.text e.item.lines = e.print.toList := by
  rw [Encoder.item, text_group]
  unfold Encoder.print
  simp only [List.flatMap_cons, List.flatMap_nil, Key.toWord_of, Word.text_of,
    String.toList_append, List.append_assoc, List.append_nil]
  rfl

/-- The document of a configuration is its outline, written. -/
theorem print_eq (c : Config) :
    c.print = String.ofList (Line.text (c.outline.flatMap Item.lines)) := by
  have hstages : Line.text (((c.analysis.map Analysis.item).toList ++
      (c.encoder.map Encoder.item).toList).flatMap Item.lines) =
      ((c.analysis.map Analysis.print).getD "").toList ++
        ((c.encoder.map Encoder.print).getD "").toList := by
    cases c.analysis <;> cases c.encoder <;>
      simp [Line.text_append, text_analysis, text_encoder, Line.text]
  rw [← String.toList_inj, String.toList_ofList, outline, List.flatMap_cons, List.flatMap_cons,
    Line.text_append, Line.text_append, hstages]
  have hend : Line.text [] = [] := rfl
  simp only [Item.lines, text_field, hend, Key.toWord_of, Word.text_of, print,
    String.toList_append, List.append_assoc, List.append_nil]

/-! ## Reading fields -/

variable {d : Yaml.Document}

/-- The fields of a mapping whose keys are plain scalars and whose values are no aliases. -/
theorem Fields.ofNode?_mapping {fields : Fields} (h : ∀ f ∈ fields, d.follow f.2 = f.2) :
    Fields.ofNode? d (.mapping (fields.map fun f => (.scalar .plain none f.1, f.2))) =
      some fields := by
  induction fields with
  | nil => rfl
  | cons f fields ih =>
      obtain ⟨hf, hfields⟩ := List.forall_mem_cons.1 h
      have hrest := ih hfields
      simp only [Fields.ofNode?] at hrest ⊢
      have hkey : d.follow (.scalar .plain none f.1) = .scalar .plain none f.1 := rfl
      rw [List.map_cons, List.mapM_cons, hrest]
      simp [hkey, Node.text?, hf]

theorem Fields.ofNode?_group (key : Key) (first : Yaml.Field) (rest : List Yaml.Field) :
    Fields.ofNode? d (Item.group key first rest).entry.2 =
      some ((first :: rest).map fun f => (f.key.text, .scalar .plain none f.value.text)) := by
  rw [← Fields.ofNode?_mapping (d := d), List.map_map]
  · rfl
  · simp [Yaml.Document.follow]

section

variable {fields : Fields} (h : (fields.map Prod.fst).Nodup)

include h

theorem Fields.once_of_nodup (names : List String) : fields.once names = true := by
  rw [Fields.once, List.all_eq_true]
  intro name _
  have hcount := List.nodup_iff_count_le_one.1 h name
  rw [List.count, List.countP_map] at hcount
  simpa [Function.comp_def, beq_eq_decide] using hcount

/-- A field that stands somewhere is found. -/
theorem Fields.read_eq {α : Type} {name : String} {n : Node} {read : Node → Option α}
    {default x : α} {i : Nat} (hget : fields[i]? = some (name, n)) (hvalue : read n = some x) :
    fields.read name read default = some x := by
  rw [Fields.read, (lookup_iff h).2 (List.mem_of_getElem? hget)]
  exact hvalue

end

theorem named?_mode (m : Mode) :
    named? Mode.name Mode.all (.scalar .plain none m.name) = some m := by
  cases m <;> rfl

theorem named?_discipline (d : Inclusion.Discipline) :
    named? disciplineName [.fifo, .lifo] (.scalar .plain none (disciplineName d)) =
      some d := by
  cases d <;> rfl

theorem named?_policy (p : Channel.PolicyKind) :
    named? policyName [.single, .perObject, .bounded] (.scalar .plain none (policyName p)) =
      some p := by
  cases p <;> rfl

theorem bool?_boolText (b : Bool) : (Node.scalar .plain none (boolText b)).bool? = some b := by
  cases b <;> rfl

theorem size?_toString {n : Nat} (hn : n < Nat.pow 2 64) :
    size? (.scalar .plain none (toString n)) = some n := by
  simp only [size?, Node.natural?, Node.valueText?, Node.naturalText?_toString,
    Option.filter_some]
  rw [if_pos (decide_eq_true hn)]

theorem optional?_optionalText {n : Option Nat} (hn : ∀ m ∈ n, m < Nat.pow 2 64) :
    Node.optional? size? (.scalar .plain none (optionalText n)) = some n := by
  cases n with
  | none => rfl
  | some n =>
      have hsize := size?_toString (hn n rfl)
      simp only [optionalText, Node.optional?, Node.isNullText_toString, hsize]
      rfl

/-- The fields fit the width of their numbers. -/
def Analysis.Sized (a : Analysis) : Prop :=
  (∀ n ∈ a.maxEntities, n < Nat.pow 2 64) ∧ a.autoThreshold < Nat.pow 2 64

/-- The fields fit the width of their numbers. -/
def Encoder.Sized (e : Encoder) : Prop := e.maxChannels < Nat.pow 2 64

/-- The fields of all overrides fit the width of their numbers. -/
def Sized (c : Config) : Prop := (∀ a ∈ c.analysis, a.Sized) ∧ ∀ e ∈ c.encoder, e.Sized

/-- What the outline of the analysis stage says. -/
def Analysis.fields (a : Analysis) : Fields :=
  [("mode", .scalar .plain none a.mode.name),
    ("enable_cycle_detection", .scalar .plain none (boolText a.cycleDetection)),
    ("worklist", .scalar .plain none (disciplineName a.worklist)),
    ("difference_propagation", .scalar .plain none (boolText a.differencePropagation)),
    ("max_entities", .scalar .plain none (optionalText a.maxEntities)),
    ("auto_threshold", .scalar .plain none (toString a.autoThreshold)),
    ("dump_dot", .scalar .plain none (boolText a.dumpDot))]

theorem Analysis.ofNode?_item {a : Analysis} (ha : a.Sized) :
    Analysis.ofNode? d a.item.entry.2 = some a := by
  have hfields : Fields.ofNode? d a.item.entry.2 = some a.fields := by
    simp [Analysis.item, Analysis.fields, Fields.ofNode?_group]
  have hnames : Analysis.fieldNames.Nodup := by decide
  have hnodup : (a.fields.map Prod.fst).Nodup := hnames
  rw [Analysis.ofNode?, hfields]
  simp only [Option.bind_eq_bind, Option.bind_some, Fields.once_of_nodup hnodup, guard_true,
    Option.pure_def, Fields.read_eq hnodup (i := 0) rfl (named?_mode _),
    Fields.read_eq hnodup (i := 1) rfl (bool?_boolText _),
    Fields.read_eq hnodup (i := 2) rfl (named?_discipline _),
    Fields.read_eq hnodup (i := 3) rfl (bool?_boolText _),
    Fields.read_eq hnodup (i := 4) rfl (optional?_optionalText ha.1),
    Fields.read_eq hnodup (i := 5) rfl (size?_toString ha.2),
    Fields.read_eq hnodup (i := 6) rfl (bool?_boolText _)]

/-- What the outline of the encoding stage says. -/
def Encoder.fields (e : Encoder) : Fields :=
  [("policy", .scalar .plain none (policyName e.policy)),
    ("max_channels", .scalar .plain none (toString e.maxChannels))]

theorem Encoder.ofNode?_item {e : Encoder} (he : e.Sized) :
    Encoder.ofNode? d e.item.entry.2 = some e := by
  have hfields : Fields.ofNode? d e.item.entry.2 = some e.fields := by
    simp [Encoder.item, Encoder.fields, Fields.ofNode?_group]
  have hnames : Encoder.fieldNames.Nodup := by decide
  have hnodup : (e.fields.map Prod.fst).Nodup := hnames
  rw [Encoder.ofNode?, hfields]
  simp only [Option.bind_eq_bind, Option.bind_some, Fields.once_of_nodup hnodup, guard_true,
    Option.pure_def, Fields.read_eq hnodup (i := 0) rfl (named?_policy _),
    Fields.read_eq hnodup (i := 1) rfl (size?_toString he)]

/-! ## Reading documents -/

/-- What the outline of a configuration says. -/
def fields (c : Config) : Fields :=
  ("version", .scalar .plain none (toString supportedVersion)) ::
    ("preset", .scalar .plain none c.preset.name) ::
      ((c.analysis.map fun a => ("analysis", a.item.entry.2)).toList ++
        (c.encoder.map fun e => ("encoder", e.item.entry.2)).toList)

theorem nodup_fields (c : Config) : (c.fields.map Prod.fst).Nodup := by
  cases ha : c.analysis <;> cases he : c.encoder <;> simp [fields, ha, he]

theorem only_fields (c : Config) : c.fields.only Document.fieldNames = true := by
  cases ha : c.analysis <;> cases he : c.encoder <;>
    simp [fields, Fields.only, Document.fieldNames, ha, he]

/-- The fields of an outline are found in the mapping it is read as. -/
theorem ofNode?_outline (c : Config) :
    Fields.ofNode? d (.mapping (c.outline.map Item.entry)) = some c.fields := by
  have hentries :
      c.outline.map Item.entry = c.fields.map fun f => (.scalar .plain none f.1, f.2) := by
    cases ha : c.analysis <;> cases he : c.encoder <;>
      simp [outline, fields, ha, he, Item.entry, Field.entry, Analysis.item, Encoder.item]
  rw [hentries]
  refine Fields.ofNode?_mapping ?_
  cases ha : c.analysis <;> cases he : c.encoder <;>
    simp [fields, ha, he, Yaml.Document.follow, Item.entry, Analysis.item, Encoder.item]

/-- A stage that may be left out is read back. -/
theorem Fields.read_stage {α : Type} {fields : Fields} (h : (fields.map Prod.fst).Nodup)
    {name : String} {read : Node → Option (Option α)} {stage : Option α} (node : α → Node)
    (hmem : ∀ x ∈ stage, (name, node x) ∈ fields)
    (habsent : stage = none → name ∉ fields.map Prod.fst)
    (hread : ∀ x ∈ stage, read (node x) = some (some x)) :
    fields.read name read none = some stage := by
  cases stage with
  | none =>
      have hlookup : fields.lookup name = none := by
        refine List.lookup_eq_none_iff.2 fun f hf => ?_
        have hne : f.1 ≠ name := fun heq => habsent rfl (heq ▸ List.mem_map_of_mem hf)
        simpa using hne.symm
      rw [Fields.read, hlookup]
  | some x =>
      rw [Fields.read, (lookup_iff h).2 (hmem x rfl)]
      exact hread x rfl

theorem read_analysis {c : Config} (hc : c.Sized) :
    c.fields.read "analysis" (Node.optional? (Analysis.ofNode? d)) none = some c.analysis := by
  refine Fields.read_stage c.nodup_fields (fun a => a.item.entry.2) (fun a ha => ?_) ?_ ?_
  · simp [fields, Option.mem_def.1 ha]
  · intro habsent
    cases he : c.encoder <;> simp [fields, habsent, he]
  · intro a ha
    have hoptional : Node.optional? (Analysis.ofNode? d) a.item.entry.2 =
        (Analysis.ofNode? d a.item.entry.2).map some := rfl
    rw [hoptional, Analysis.ofNode?_item (hc.1 a ha), Option.map_some]

theorem read_encoder {c : Config} (hc : c.Sized) :
    c.fields.read "encoder" (Node.optional? (Encoder.ofNode? d)) none = some c.encoder := by
  refine Fields.read_stage c.nodup_fields (fun e => e.item.entry.2) (fun e he => ?_) ?_ ?_
  · simp [fields, Option.mem_def.1 he]
  · intro habsent
    cases ha : c.analysis <;> simp [fields, habsent, ha]
  · intro e he
    have hoptional : Node.optional? (Encoder.ofNode? d) e.item.entry.2 =
        (Encoder.ofNode? d e.item.entry.2).map some := rfl
    rw [hoptional, Encoder.ofNode?_item (hc.2 e he), Option.map_some]

/-- The outline of a configuration says what the configuration is. -/
theorem ofYaml?_outline {c : Config} (hc : c.Sized) :
    Document.ofYaml? ⟨.mapping (c.outline.map Item.entry), []⟩ =
      some ⟨some supportedVersion, c.preset.name, c.analysis, c.encoder⟩ := by
  have hnodup := c.nodup_fields
  have hversion : Node.optional? version? (.scalar .plain none (toString supportedVersion)) =
      some (some supportedVersion) := by decide
  have hpreset : c.fields.lookup "preset" = some (.scalar .plain none c.preset.name) :=
    (lookup_iff hnodup).2 (List.mem_of_getElem? (i := 1) rfl)
  rw [Document.ofYaml?, ofNode?_outline]
  simp only [Option.bind_eq_bind, Option.bind_some, only_fields, Fields.once_of_nodup hnodup,
    Bool.and_self, guard_true, Option.pure_def, Fields.read_eq hnodup (i := 0) rfl hversion,
    hpreset, Node.text?, read_analysis hc, read_encoder hc]

theorem Preset.named_name (p : Preset) : Preset.named p.name = .ok p := by cases p <;> rfl

/-- Reading what has been written only checks the ranges. -/
theorem parse_print {c : Config} (hc : c.Sized) :
    parse c.print = c.validate.map fun _ => c := by
  have hitems : c.outline ≠ [] := List.cons_ne_nil _ _
  have hdocument : Document.ofText? c.print =
      some ⟨some supportedVersion, c.preset.name, c.analysis, c.encoder⟩ := by
    rw [Document.ofText?, print_eq, Document.ofText?_outline hitems]
    exact ofYaml?_outline hc
  rw [parse, hdocument]
  simp only [Document.config, Document.checkVersion, Preset.named_name, if_true]
  change (c.validate >>= fun _ => pure c) = _
  cases c.validate <;> rfl

/-! ## Ranges -/

theorem checkField_eq_ok {field : Field} {value : Nat} :
    checkField field value = .ok () ↔ field.admits value = true := by
  rw [checkField]
  split <;> simp_all

/-- A value in its range fits the width of numbers. -/
theorem lt_of_checkField {field : Field} {value : Nat} (h : checkField field value = .ok ()) :
    value < Nat.pow 2 64 := by
  have hlargest : field.largest < Nat.pow 2 64 := by cases field <;> decide
  have hadmits := checkField_eq_ok.1 h
  simp only [Field.admits, Bool.and_eq_true, decide_eq_true_eq] at hadmits
  exact hadmits.2.trans_lt hlargest

theorem elim_eq_ok {α : Type} {check : α → Except Error Unit} {value : Option α} :
    value.elim (.ok ()) check = .ok () ↔ ∀ x ∈ value, check x = .ok () := by
  cases value <;> simp

theorem Analysis.validate_eq (a : Analysis) : a.validate =
    (a.maxEntities.elim (.ok ()) (checkField .maxEntities) >>= fun _ =>
      checkField .autoThreshold a.autoThreshold) := by
  rw [Analysis.validate]
  cases a.maxEntities <;> rfl

theorem validateAll_toList {α : Type} (validate : α → Except Error Unit) (stage : Option α) :
    validateAll validate stage.toList = stage.elim (.ok ()) validate := by
  cases stage with
  | none => rfl
  | some x =>
      change (validate x >>= fun _ => pure ()) = validate x
      cases validate x <;> rfl

theorem validate_eq (c : Config) : c.validate =
    (c.analysis.elim (.ok ()) Analysis.validate >>= fun _ =>
      c.encoder.elim (.ok ()) Encoder.validate) := by
  rw [validate, validateAll_toList, validateAll_toList]

/-- The ranges lie within the width of numbers. -/
theorem sized_of_validate {c : Config} (h : c.validate = .ok ()) : c.Sized := by
  rw [validate_eq, bind_eq_ok] at h
  obtain ⟨_, hanalysis, hencoder⟩ := h
  refine ⟨fun a ha => ?_, fun e he => lt_of_checkField (elim_eq_ok.1 hencoder e he)⟩
  have hvalid := elim_eq_ok.1 hanalysis a ha
  rw [Analysis.validate_eq, bind_eq_ok] at hvalid
  obtain ⟨_, hentities, hthreshold⟩ := hvalid
  exact ⟨fun n hn => lt_of_checkField (elim_eq_ok.1 hentities n hn),
    lt_of_checkField hthreshold⟩

/-- A check that fails only over a value outside its range. -/
def RangeCheck (check : Except Error Unit) : Prop :=
  ∀ e, check = .error e → ∃ field value, Field.admits field value = false ∧
    e = .range field value

namespace RangeCheck

theorem checkField (field : Field) (value : Nat) : RangeCheck (checkField field value) := by
  intro e h
  rw [Config.checkField] at h
  split at h
  · cases h
  · next hvalue =>
      cases h
      exact ⟨field, value, by simpa using hvalue, rfl⟩

theorem bind {x y : Except Error Unit} (hx : RangeCheck x) (hy : RangeCheck y) :
    RangeCheck (x >>= fun _ => y) := by
  intro e h
  cases x with
  | error e' => exact hx e h
  | ok _ => exact hy e h

theorem elim {α : Type} {check : α → Except Error Unit} (h : ∀ x, RangeCheck (check x))
    (value : Option α) : RangeCheck (value.elim (.ok ()) check) := by
  cases value with
  | none => exact fun e he => nomatch he
  | some x => exact h x

theorem validate (c : Config) : RangeCheck c.validate := by
  rw [validate_eq]
  refine bind (elim (fun a => ?_) _) (elim (fun e => checkField _ _) _)
  rw [Analysis.validate_eq]
  exact bind (elim (fun n => checkField _ n) _) (checkField _ _)

end RangeCheck

/-! ## The round trip -/

/-- What a text gives lies in the ranges. -/
theorem validate_of_parse {text : String} {c : Config} (h : parse text = .ok c) :
    c.validate = .ok () := by
  rw [parse] at h
  split at h
  · simp only [Document.config, bind_eq_ok, pure_eq_ok] at h
    obtain ⟨_, _, _, _, _, hvalidate, rfl⟩ := h
    exact hvalidate
  · cases h

/-- **Writing and reading are inverse on valid configurations.**  A configuration that is
written and read back is itself if all its fields lie in their ranges, and is refused for the
field that its own check names if not.  What any text gives lies in the ranges, so it
survives the round trip. -/
theorem parse_print_iff :
    (∀ c : Config, c.Sized → (parse c.print = .ok c ↔ c.validate = .ok ()) ∧
      ∀ e, c.validate = .error e → parse c.print = .error e ∧
        ∃ field value, Field.admits field value = false ∧ e = .range field value) ∧
      ∀ text c, parse text = .ok c → c.validate = .ok () ∧ parse c.print = .ok c := by
  refine ⟨fun c hc => ⟨?_, fun e he => ⟨?_, RangeCheck.validate c e he⟩⟩,
    fun text c hparse => ?_⟩
  · rw [parse_print hc]
    cases c.validate <;> simp [Except.map]
  · rw [parse_print hc, he]
    rfl
  · have hvalid := validate_of_parse hparse
    rw [parse_print (sized_of_validate hvalid), hvalid]
    exact ⟨rfl, rfl⟩

/-- Every field overridden, each number with its largest value. -/
def widest : Config :=
  ⟨.thorough, some ⟨.auto, false, .lifo, false, some 4294967295, 10000000, true⟩,
    some ⟨.perObject, 65536⟩⟩

/-- A budget that fits the width of numbers but not its range. -/
def overdrawn : Config :=
  ⟨.fast, some { Analysis.default with maxEntities := some 18446744073709551615 }, none⟩

/-- A document with a comment, its fields in another order, and other
spellings of its values. -/
def handwritten : String :=
  "# by hand\npreset: FAST\nversion: +0x1\nencoder: {policy: !single }\n"

theorem parse_print_iff_widest :
    parse widest.print = .ok widest ∧
      parse overdrawn.print = .error (.range .maxEntities 18446744073709551615) ∧
      parse handwritten = .ok ⟨.fast, none, some ⟨.single, 64⟩⟩ ∧
      parse (print ⟨.fast, none, some ⟨.single, 64⟩⟩) = .ok ⟨.fast, none,
        some ⟨.single, 64⟩⟩ := by
  have hwidest : widest.Sized := by simp [widest, Sized, Analysis.Sized, Encoder.Sized]
  have hoverdrawn : overdrawn.Sized := by
    simp [overdrawn, Sized, Analysis.Sized, Analysis.default, Analysis.ofPreset]
  have hread : (parse handwritten).toOption = some ⟨.fast, none, some ⟨.single, 64⟩⟩ := by
    decide +kernel
  have hparse := toOption_eq_some.1 hread
  exact ⟨(parse_print_iff.1 widest hwidest).1.2 rfl,
    ((parse_print_iff.1 overdrawn hoverdrawn).2 _ rfl).1, hparse,
    (parse_print_iff.2 handwritten _ hparse).2⟩

end Config
end PointerChannels
