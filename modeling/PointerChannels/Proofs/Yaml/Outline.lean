import PointerChannels.Proofs.Yaml.Line
import PointerChannels.Yaml.Document

/-!
# Outlines

An outline is a list of items: fields, each a key with a word, and groups, each a key with
fields of its own on the lines below it.  Written down, an outline is read back as it is: as a
mapping of its keys, in which a group is a mapping of its own.

## Main definitions

* `Field`, `Item` — a field; an item of an outline.
* `Item.lines`, `Item.entry` — how an item is written, and how it is read.

## Main statements

* `Document.ofText?_outline` — an outline that has been written is read back.
-/

namespace PointerChannels.Yaml

/-- A key with a word. -/
structure Field where
  /-- The key. -/
  key : Key
  /-- The word. -/
  value : Word

namespace Field

/-- The line of a field. -/
def line (indent : Nat) (f : Field) : Line := ⟨indent, f.key, some f.value⟩

/-- The tokens of a field. -/
def tokens (f : Field) : List Token :=
  [.key, .scalar .plain f.key.text, .value, .scalar .plain f.value.text]

@[simp] theorem indent_line (indent : Nat) (f : Field) : (f.line indent).indent = indent := rfl

@[simp] theorem tokens_line (indent : Nat) (f : Field) :
    (f.line indent).tokens = f.tokens := rfl

/-- What a field says. -/
def entry (f : Field) : Node × Node :=
  (.scalar .plain none f.key.text, .scalar .plain none f.value.text)

end Field

/-- An item of an outline. -/
inductive Item where
  /-- A field. -/
  | field (f : Field)
  /-- A key with at least one field. -/
  | group (key : Key) (first : Field) (rest : List Field)

namespace Item

/-- The lines of an item. -/
def lines : Item → List Line
  | field f => [f.line 0]
  | group key first rest => ⟨0, key, none⟩ :: (first :: rest).map (·.line 2)

/-- The tokens of an item. -/
def tokens : Item → List Token
  | field f => f.tokens
  | group key first rest =>
    .key :: .scalar .plain key.text :: .value :: .blockStart .mapping ::
      ((first :: rest).flatMap Field.tokens ++ [.blockEnd])

/-- What an item says. -/
def entry : Item → Node × Node
  | field f => f.entry
  | group key first rest =>
    (.scalar .plain none key.text, .mapping ((first :: rest).map Field.entry))

end Item

/-! ## Tokens of outlines -/

open Layout Line

/-- Lines that are not indented, if there are any. -/
def Flush (ls : List Line) : Prop := ∀ l ∈ ls.head?, l.indent = 0

theorem flush_items (items : List Item) : Flush (items.flatMap Item.lines) := by
  cases items with
  | nil => simp [Flush]
  | cons item items => cases item <;> simp [Flush, Item.lines]

/-- The first line of an outline starts its mapping. -/
theorem tokensFrom_start {ls : List Line} (hls : Flush ls) (hne : ls ≠ []) :
    tokensFrom 0 [] ls = .blockStart .mapping :: tokensFrom 1 [0] ls := by
  cases ls with
  | nil => exact absurd rfl hne
  | cons l ls =>
      have hindent : l.indent = 0 := hls l rfl
      simp [tokensFrom, opening, enclosing, unwind, hindent]

/-- The fields of a group end with the next item. -/
theorem tokensFrom_end {ls : List Line} (hls : Flush ls) :
    tokensFrom 3 [1, 0] ls = .blockEnd :: tokensFrom 1 [0] ls := by
  cases ls with
  | nil => rfl
  | cons l ls =>
      have hindent : l.indent = 0 := hls l rfl
      simp [tokensFrom, opening, enclosing, unwind, hindent]

theorem tokensFrom_fields (fs : List Field) {ls : List Line} (hls : Flush ls) :
    tokensFrom 3 [1, 0] (fs.map (·.line 2) ++ ls) =
      fs.flatMap Field.tokens ++ .blockEnd :: tokensFrom 1 [0] ls := by
  induction fs with
  | nil => exact tokensFrom_end hls
  | cons f fs ih => simp [tokensFrom, opening, enclosing, unwind, ih]

theorem tokensFrom_items (items : List Item) :
    tokensFrom 1 [0] (items.flatMap Item.lines) = items.flatMap Item.tokens ++
      [.blockEnd] := by
  induction items with
  | nil => rfl
  | cons item items ih =>
      cases item with
      | field f =>
          simp [Item.lines, Item.tokens, tokensFrom, opening, enclosing, unwind, ih]
      | group key first rest =>
          have hheader :
              (⟨0, key, none⟩ : Line).tokens = [.key, .scalar .plain key.text, .value] := rfl
          have hrest := tokensFrom_fields rest (flush_items items)
          simp [Item.lines, Item.tokens, tokensFrom, opening, enclosing, unwind,
            hheader, hrest, ih]

/-- No line of an outline is taken in by the one before it. -/
theorem isChain_fields (fs : List Field) {ls : List Line} (hls : Flush ls)
    (hchain : ls.IsChain Ends) : (fs.map (·.line 2) ++ ls).IsChain Ends := by
  induction fs with
  | nil => exact hchain
  | cons f fs ih =>
      refine List.isChain_cons.2 ⟨fun l hl _ => ?_, ih⟩
      cases fs with
      | nil => exact (hls l hl).trans_le (Nat.zero_le _)
      | cons g gs =>
          obtain rfl : g.line 2 = l := by simpa using hl
          exact Nat.le_refl 2

theorem isChain_items (items : List Item) : (items.flatMap Item.lines).IsChain Ends := by
  induction items with
  | nil => exact .nil
  | cons item items ih =>
      have hflush := flush_items items
      rw [List.flatMap_cons]
      cases item with
      | field f => exact List.isChain_cons.2 ⟨fun l hl _ => (hflush l hl).le, ih⟩
      | group key first rest =>
          refine List.isChain_cons.2 ⟨fun l _ hvalue => absurd hvalue (by simp), ?_⟩
          exact isChain_fields (first :: rest) hflush ih

/-! ## Nodes of outlines -/

variable {r : Remainder} {ts : List Token}

theorem node_scalar (b : Nat) (level : Bool) (text : String) :
    node (b + 2) level { r with tokens := .scalar .plain text :: ts } =
      some (.scalar .plain none text, { r with tokens := ts }) := by
  simp [node, content, Remainder.properties?, Remainder.start, Remainder.keep]

/-- The entry of a key, given the node of its value. -/
theorem blockEntries_key (b : Nat) (text : String) {value : Node} {ts' : List Token}
    (hnext : ts.head?.any endsBlockPart = false)
    (hvalue : node (b + 2) true { r with tokens := ts } =
      some (value, { r with tokens := ts' })) :
    blockEntries (b + 5) { r with tokens := .key :: .scalar .plain text :: .value :: ts } =
      (blockEntries (b + 4) { r with tokens := ts' }).map fun found =>
        ((.scalar .plain none text, value) :: found.1, found.2) := by
  rw [blockEntries]
  simp [nodeUnless, valueUnless, Remainder.next, endsBlockPart, node_scalar, hnext, hvalue,
    Option.map_eq_bind]

theorem blockEntries_end (b : Nat) :
    blockEntries (b + 1) { r with tokens := .blockEnd :: ts } =
      some ([], { r with tokens := ts }) := by
  simp [blockEntries]

theorem blockEntries_field (b : Nat) (f : Field) :
    blockEntries (b + 5) { r with tokens := f.tokens ++ ts } =
      (blockEntries (b + 4) { r with tokens := ts }).map fun found =>
        (f.entry :: found.1, found.2) :=
  blockEntries_key b f.key.text rfl (node_scalar b true f.value.text)

-- every entry takes some of the bound, and fewer than it has tokens
theorem blockEntries_fields (fs : List Field) {b : Nat}
    (hb : (fs.flatMap Field.tokens).length + 5 ≤ b) :
    blockEntries b { r with tokens := fs.flatMap Field.tokens ++ .blockEnd :: ts } =
      some (fs.map Field.entry, { r with tokens := ts }) := by
  induction fs generalizing b with
  | nil =>
      obtain ⟨b, rfl⟩ : ∃ k, b = k + 1 := ⟨b - 1, by omega⟩
      exact blockEntries_end b
  | cons f fs ih =>
      rw [List.flatMap_cons, List.length_append] at hb
      have hlength : f.tokens.length = 4 := rfl
      obtain ⟨b, rfl⟩ : ∃ k, b = k + 5 := ⟨b - 5, by omega⟩
      rw [List.flatMap_cons, List.append_assoc, blockEntries_field, ih (by omega)]
      rfl

/-- A mapping, given its entries. -/
theorem node_mapping {b : Nat} {level : Bool} {entries : List (Node × Node)} {r' : Remainder}
    (h : blockEntries b { r with tokens := ts } = some (entries, r')) :
    node (b + 2) level { r with tokens := .blockStart .mapping :: ts } =
      some (.mapping entries, r') := by
  simp [node, content, Remainder.properties?, Remainder.start, Remainder.keep, h]

theorem blockEntries_items (items : List Item) {b : Nat}
    (hb : (items.flatMap Item.tokens).length + 5 ≤ b) :
    blockEntries b { r with tokens := items.flatMap Item.tokens ++ .blockEnd :: ts } =
      some (items.map Item.entry, { r with tokens := ts }) := by
  induction items generalizing b with
  | nil =>
      obtain ⟨b, rfl⟩ : ∃ k, b = k + 1 := ⟨b - 1, by omega⟩
      exact blockEntries_end b
  | cons item items ih =>
      rw [List.flatMap_cons, List.length_append] at hb
      obtain ⟨b, rfl⟩ : ∃ k, b = k + 5 := ⟨b - 5, by omega⟩
      rw [List.flatMap_cons, List.append_assoc]
      cases item with
      | field f =>
          have hlength : (Item.field f).tokens.length = 4 := rfl
          rw [Item.tokens, blockEntries_field, ih (by omega)]
          rfl
      | group key first rest =>
          simp only [Item.tokens, List.length_cons, List.length_append, List.length_nil] at hb
          have hfields :
              blockEntries b { r with tokens := (first :: rest).flatMap Field.tokens ++
              .blockEnd :: (items.flatMap Item.tokens ++ .blockEnd :: ts) } = _ :=
            blockEntries_fields (first :: rest) (by omega)
          have hentry := blockEntries_key b key.text rfl (node_mapping hfields)
          rw [ih (by omega)] at hentry
          simpa [Item.tokens, Item.entry] using hentry

theorem ofTokens?_items (items : List Item) :
    Document.ofTokens? (.blockStart .mapping :: (items.flatMap Item.tokens ++ [.blockEnd])) =
      some ⟨.mapping (items.map Item.entry), []⟩ := by
  have hentries :
      ∀ r : Remainder, blockEntries (5 * ((items.flatMap Item.tokens).length + 2) + 3)
      { r with tokens := items.flatMap Item.tokens ++ [.blockEnd] } =
        some (items.map Item.entry, { r with tokens := [] }) :=
    fun r => blockEntries_items items (by omega)
  have hlength : (.blockStart .mapping :: (items.flatMap Item.tokens ++ [.blockEnd])).length =
      (items.flatMap Item.tokens).length + 2 := by simp
  simp only [Document.ofTokens?, List.head?_cons, Option.any_some, startsExplicit,
    Bool.false_eq_true, if_false, Bool.false_and, Option.bind_eq_bind, Option.bind_some,
    hlength, List.nil_append]
  rw [node_mapping (hentries ⟨[], defaultHandles, [], 0, []⟩)]
  rfl

/-- **An outline that has been written is read back.** -/
theorem Document.ofText?_outline {items : List Item} (hitems : items ≠ []) :
    Document.ofText? (String.ofList (Line.text (items.flatMap Item.lines))) =
      some ⟨.mapping (items.map Item.entry), []⟩ := by
  obtain ⟨hprintable, hbreaks⟩ := Line.readable_text (items.flatMap Item.lines)
  have hne : items.flatMap Item.lines ≠ [] := by
    obtain ⟨item, rest, rfl⟩ := List.exists_cons_of_ne_nil hitems
    cases item <;> simp [Item.lines]
  rw [ofText?, String.toList_ofList, hprintable, hbreaks, tokens?_text (isChain_items items),
    tokensFrom_start (flush_items items) hne, tokensFrom_items]
  exact ofTokens?_items items

end PointerChannels.Yaml
