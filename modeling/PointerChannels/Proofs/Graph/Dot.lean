import PointerChannels.Graph.Text
import PointerChannels.Proofs.Graph.History

/-!
# Reading a dump back

A label is written into a dump as it is, but for a backslash before each backslash and each
quotation mark.  So it may hold line ends, quotation marks and whole lines of dot, and still
ends at the first quotation mark without a backslash of its own.  A reader that goes by this
gets back all that has been written: the dump is a list of lines, each node has one record in
it, and what a dump tells of a node stands in that record and in the edges after it.

## Main definitions

* `Dump.Line`, `Dump.text` — the lines of a dump, written.
* `Dump.read` — the lines that a text holds.
* `Dump.Sketch` — what a dump tells of a node.
* `Dump.decode` — what a text tells of all nodes, by index.

## Main statements

* `Dump.read_text` — lines are read as they have been written.
* `dumpOrder_perm`, `dumpOrder_sorted` — the order of the records.
* `dot_is_decodable` — what stands in a dump, and that it can be read back.
-/

namespace PointerChannels.Graph

namespace Dump

/-! ## Lines -/

/-- A line of a dump. -/
inductive Line where
  /-- The record of a node. -/
  | record (index : Nat) (label shape : String)
  /-- An edge between two nodes. -/
  | edge (source target : Nat)
deriving DecidableEq, Repr

/-- The characters of a line. -/
def Line.chars : Line → List Char
  | record index label shape =>
    "  ".toList ++
      ((toString index).toList ++ (" [label = \"".toList ++ (escapeLabel label.toList ++
      '"' :: (", shape = \"".toList ++ (escapeLabel shape.toList ++ '"' :: "];\n".toList)))))
  | edge source target =>
    "  ".toList ++ ((toString source).toList ++ (" -> ".toList ++ ((toString target).toList ++
      ";\n".toList)))

/-- What stands before the lines. -/
def opening : List Char := "digraph PointsToGraph \x7b\n".toList

/-- What stands after the lines. -/
def closing : List Char := "\x7d\n".toList

/-- The dump that holds some lines. -/
def text (lines : List Line) : String :=
  String.ofList (opening ++ (lines.flatMap Line.chars ++ closing))

/-! ## Reading -/

/-- What follows after the expected characters. -/
def expect : List Char → List Char → Option (List Char)
  | [], cs => some cs
  | _ :: _, [] => none
  | e :: es, c :: cs => if e = c then expect es cs else none

/-- A number, and what follows after its digits. -/
def number? (cs : List Char) : Option (Nat × List Char) :=
  if (cs.takeWhile Char.isDigit).isEmpty then none
  else some (Nat.ofDigitChars 10 (cs.takeWhile Char.isDigit) 0, cs.dropWhile Char.isDigit)

/-- A text up to its closing quotation mark, and what follows after that; the first character
is taken as it is where the one before has been a backslash. -/
def quoted? : Bool → List Char → Option (List Char × List Char)
  | _, [] => none
  | true, c :: rest => (quoted? false rest).map fun r => (c :: r.1, r.2)
  | false, c :: rest =>
    if c = '"' then some ([], rest)
    else if c = '\\' then quoted? true rest
    else (quoted? false rest).map fun r => (c :: r.1, r.2)

/-- A line, and what follows after it. -/
def line? (cs : List Char) : Option (Line × List Char) := do
  let cs ← expect "  ".toList cs
  let index ← number? cs
  match expect " [label = \"".toList index.2 with
  | some cs =>
    let label ← quoted? false cs
    let cs ← expect ", shape = \"".toList label.2
    let shape ← quoted? false cs
    let cs ← expect "];\n".toList shape.2
    return (.record index.1 (String.ofList label.1) (String.ofList shape.1), cs)
  | none =>
    let cs ← expect " -> ".toList index.2
    let target ← number? cs
    let cs ← expect ";\n".toList target.2
    return (.edge index.1 target.1, cs)

/-- The lines before the end of a dump, fewer than `bound`. -/
def lines? : Nat → List Char → Option (List Line)
  | 0, _ => none
  | bound + 1, cs =>
    match expect closing cs with
    | some rest => if rest.isEmpty then some [] else none
    | none => do
      let line ← line? cs
      let lines ← lines? bound line.2
      return line.1 :: lines

/-- The lines that a text holds.  Every line takes a character at least. -/
def read (text : String) : Option (List Line) := do
  let cs ← expect opening text.toList
  lines? cs.length cs

theorem expect_append (es cs : List Char) : expect es (es ++ cs) = some cs := by
  induction es with
  | nil => rfl
  | cons e es ih => rw [List.cons_append, expect, if_pos rfl, ih]

/-- A number ends where something else than a digit begins. -/
theorem number?_toString (n : Nat) {c : Char} (hc : c.isDigit = false) (cs : List Char) :
    number? ((toString n).toList ++ c :: cs) = some (n, c :: cs) := by
  have hdigits : ∀ d ∈ (toString n).toList, d.isDigit = true := by
    rw [Nat.toString_eq_ofList_toDigits, String.toList_ofList]
    exact fun d hd => Nat.isDigit_of_mem_toDigits (by decide) (by decide) hd
  have htake :
      ((toString n).toList ++ c :: cs).takeWhile Char.isDigit = (toString n).toList := by
    rw [List.takeWhile_append_of_pos hdigits, List.takeWhile_cons, hc,
      if_neg Bool.false_ne_true, List.append_nil]
  have hdrop : ((toString n).toList ++ c :: cs).dropWhile Char.isDigit = c :: cs := by
    rw [List.dropWhile_append_of_pos hdigits, List.dropWhile_cons, hc,
      if_neg Bool.false_ne_true]
  rw [number?, htake, hdrop, Nat.toString_eq_ofList_toDigits, String.toList_ofList,
    Nat.ofDigitChars_ten_toDigits, if_neg]
  simp [Nat.toDigits_ne_nil]

/-- **A label ends at its closing quotation mark**, whatever it holds. -/
theorem quoted?_escapeLabel (label rest : List Char) :
    quoted? false (escapeLabel label ++ '"' :: rest) = some (label, rest) := by
  induction label with
  | nil => rfl
  | cons c label ih =>
      rw [escapeLabel]
      by_cases hc : c = '\\' ∨ c = '"'
      · -- the character after a backslash is read whatever it is
        rw [if_pos hc, List.cons_append, List.cons_append, quoted?,
          if_neg (by decide), if_pos rfl, quoted?, ih, Option.map_some]
      · obtain ⟨hslash, hquote⟩ := not_or.1 hc
        rw [if_neg hc, List.cons_append, quoted?, if_neg hquote, if_neg hslash, ih,
          Option.map_some]

theorem line?_chars (line : Line) (rest : List Char) :
    line? (line.chars ++ rest) = some (line, rest) := by
  cases line with
  | record index label shape =>
      have hindex : ∀ cs, number? ((toString index).toList ++ (" [label = \"".toList ++ cs)) =
          some (index, " [label = \"".toList ++ cs) := fun cs =>
        number?_toString index (by decide) _
      simp only [Line.chars, line?, List.append_assoc, List.cons_append, expect_append, hindex,
        quoted?_escapeLabel, Option.bind_eq_bind, Option.bind_some, String.ofList_toList,
        Option.pure_def]
  | edge source target =>
      have hsource : ∀ cs, number? ((toString source).toList ++ (" -> ".toList ++ cs)) =
          some (source, " -> ".toList ++ cs) := fun cs => number?_toString source (by decide) _
      have htarget : ∀ cs, number? ((toString target).toList ++ (";\n".toList ++ cs)) =
          some (target, ";\n".toList ++ cs) := fun cs => number?_toString target (by decide) _
      have hrecord : ∀ cs, expect " [label = \"".toList (" -> ".toList ++ cs) = none :=
        fun _ => rfl
      simp only [Line.chars, line?, List.append_assoc, expect_append, hsource,
        hrecord, htarget, Option.bind_eq_bind, Option.bind_some, Option.pure_def]

theorem lines?_chars (lines : List Line) {bound : Nat} (h : lines.length < bound) :
    lines? bound (lines.flatMap Line.chars ++ closing) = some lines := by
  induction lines generalizing bound with
  | nil =>
      obtain ⟨bound, rfl⟩ := Nat.exists_eq_add_one_of_ne_zero (Nat.ne_of_gt h)
      rfl
  | cons line lines ih =>
      obtain ⟨bound, rfl⟩ :=
        Nat.exists_eq_add_one_of_ne_zero (Nat.ne_of_gt (Nat.zero_lt_of_lt h))
      have hopen : ∀ cs, expect closing (line.chars ++ cs) = none := by
        intro cs
        cases line <;> rfl
      have hrest := ih (Nat.lt_of_succ_lt_succ h)
      rw [List.flatMap_cons, List.append_assoc, lines?, hopen]
      simp only [line?_chars, hrest, Option.bind_eq_bind, Option.bind_some, Option.pure_def]

theorem length_le_flatMap_chars (lines : List Line) :
    lines.length ≤ (lines.flatMap Line.chars).length := by
  induction lines with
  | nil => exact Nat.le_refl 0
  | cons line lines ih =>
      have hline : 1 ≤ line.chars.length := by cases line <;> exact Nat.succ_pos _
      rw [List.flatMap_cons, List.length_append, List.length_cons]
      omega

/-- **Lines are read as they have been written.** -/
theorem read_text (lines : List Line) : read (text lines) = some lines := by
  rw [read, text, String.toList_ofList, expect_append, Option.bind_eq_bind, Option.bind_some]
  refine lines?_chars lines ?_
  have hlen := length_le_flatMap_chars lines
  have hclosing : closing.length = 2 := rfl
  rw [List.length_append]
  omega

/-! ## Nodes -/

/-- What a dump tells of a node. -/
structure Sketch where
  /-- Its name. -/
  label : String
  /-- Its shape. -/
  shape : String
  /-- The nodes it may point to, in the order of their lines. -/
  targets : List Nat
deriving DecidableEq, Repr

/-- The node that a line tells of. -/
def Line.owner : Line → Nat
  | record index _ _ => index
  | edge source _ => source

/-- The target of the line's edge. -/
def Line.target? : Line → Option Nat
  | record _ _ _ => none
  | edge _ target => some target

/-- The lines of a node: its record, and its edges after it. -/
def Sketch.lines (index : Nat) (s : Sketch) : List Line :=
  .record index s.label s.shape :: s.targets.map (.edge index)

/-- What the lines of a node tell. -/
def sketch? : List Line → Option Sketch
  | .record _ label shape :: edges => some ⟨label, shape, edges.filterMap Line.target?⟩
  | _ => none

/-- What a text tells of a node. -/
def decode (text : String) (i : Nat) : Option Sketch := do
  let lines ← read text
  sketch? (lines.filter (·.owner == i))

theorem owner_of_mem_lines {i : Nat} {s : Sketch} {line : Line} (h : line ∈ s.lines i) :
    line.owner = i := by
  obtain rfl | h := List.mem_cons.1 h
  · rfl
  · obtain ⟨t, -, rfl⟩ := List.mem_map.1 h
    rfl

theorem sketch?_lines (i : Nat) (s : Sketch) : sketch? (s.lines i) = some s := by
  rw [Sketch.lines, sketch?, List.filterMap_map]
  exact congrArg (fun targets => some (Sketch.mk s.label s.shape targets))
    (List.filterMap_some)

/-- The lines of one node among those of many. -/
theorem filter_owner_flatMap {entry : Nat → List Line}
    (howner : ∀ j, ∀ line ∈ entry j, line.owner = j) {order : List Nat} (hnodup : order.Nodup)
    {i : Nat} (hi : i ∈ order ∨ entry i = []) :
    (order.flatMap entry).filter (·.owner == i) = entry i := by
  have hown : (entry i).filter (·.owner == i) = entry i :=
    List.filter_eq_self.2 fun line hline => beq_iff_eq.2 (howner i line hline)
  have hother : ∀ j, j ≠ i → (entry j).filter (·.owner == i) = [] := fun j hj =>
    List.filter_eq_nil_iff.2 fun line hline heq =>
      hj ((howner j line hline).symm.trans (beq_iff_eq.1 heq))
  induction order with
  | nil => exact (hi.resolve_left List.not_mem_nil).symm
  | cons j order ih =>
      obtain ⟨hj, hnodup⟩ := List.nodup_cons.1 hnodup
      rw [List.flatMap_cons, List.filter_append]
      by_cases heq : j = i
      · -- the node has no lines further on
        subst heq
        have hrest : (order.flatMap entry).filter (·.owner == j) = [] := by
          rw [List.filter_flatMap]
          exact List.flatMap_eq_nil_iff.2 fun k hk => hother k fun hkj => hj (hkj ▸ hk)
        rw [hown, hrest, List.append_nil]
      · rw [hother j heq, List.nil_append]
        exact ih hnodup (hi.imp_left fun hi => (List.mem_cons.1 hi).resolve_left (Ne.symm heq))

end Dump

/-! ## The order of records -/

section Order

variable {g : Graph} {i j : Nat} {kind : Kind}

/-- Node `i` comes before node `j` in a dump: by kind, and by number among nodes of a kind. -/
def DumpsBefore (g : Graph) (i j : Nat) : Prop :=
  ∃ a b, g.kindOf? i = some a ∧ g.kindOf? j = some b ∧
    (a.dumpGroup < b.dumpGroup ∨ a = b ∧ i < j)

theorem DumpsBefore.ne (h : g.DumpsBefore i j) : i ≠ j := by
  rintro rfl
  obtain ⟨a, b, ha, hb, hlt | ⟨-, hlt⟩⟩ := h
  · obtain rfl : a = b := Option.some.inj (ha.symm.trans hb)
    exact Nat.lt_irrefl _ hlt
  · exact Nat.lt_irrefl _ hlt

theorem mem_dumpOrder : i ∈ g.dumpOrder ↔ i < g.size := by
  rw [dumpOrder, List.mem_flatMap]
  constructor
  · rintro ⟨kind, -, hi⟩
    exact lt_size_of_kindOf? (mem_nodesOfKind.1 hi)
  · intro h
    obtain ⟨kind, hkind⟩ := exists_kindOf? h
    exact ⟨kind, by cases kind <;> decide, mem_nodesOfKind.2 hkind⟩

/-- Records are sorted by kind, and by number within a kind. -/
theorem dumpOrder_sorted (g : Graph) : g.dumpOrder.Pairwise g.DumpsBefore := by
  rw [dumpOrder, List.pairwise_flatMap]
  constructor
  · intro kind _
    have hlt : (g.nodesOfKind kind).Pairwise (· < ·) := List.pairwise_lt_range.filter _
    refine hlt.imp_of_mem fun hi hj hlt => ?_
    exact ⟨kind, kind, mem_nodesOfKind.1 hi, mem_nodesOfKind.1 hj, .inr ⟨rfl, hlt⟩⟩
  · have hgroups : Kind.all.Pairwise (·.dumpGroup < ·.dumpGroup) := by decide
    refine hgroups.imp fun hlt i hi j hj => ?_
    exact ⟨_, _, mem_nodesOfKind.1 hi, mem_nodesOfKind.1 hj, .inl hlt⟩

theorem nodup_dumpOrder (g : Graph) : g.dumpOrder.Nodup :=
  g.dumpOrder_sorted.imp DumpsBefore.ne

/-- Every node has one record. -/
theorem dumpOrder_perm (g : Graph) : g.dumpOrder.Perm (List.range g.size) :=
  (List.perm_ext_iff_of_nodup g.nodup_dumpOrder List.nodup_range).2 fun i => by
    rw [mem_dumpOrder, List.mem_range]

end Order

/-! ## The dump of a graph -/

/-- What a dump tells of a node of the graph. -/
def Node.sketch (n : Node) : Dump.Sketch := ⟨n.label, n.kind.shape, n.targets.toList⟩

/-- The lines of a node of the graph. -/
def dumpEntry (g : Graph) (i : Nat) : List Dump.Line :=
  (g.nodes[i]?.map (·.sketch.lines i)).getD []

theorem escapeLabel_shape (kind : Kind) :
    escapeLabel kind.shape.toList = kind.shape.toList := by
  cases kind <;> decide

theorem toList_edgeLine (i j : Nat) : (edgeLine i j).toList = (Dump.Line.edge i j).chars := by
  unfold edgeLine Dump.Line.chars
  simp only [String.toList_append, List.append_assoc]
  rfl

theorem toList_nodeRecord (i : Nat) (n : Node) :
    (nodeRecord i n).toList = (Dump.Line.record i n.label n.kind.shape).chars := by
  unfold nodeRecord Dump.Line.chars
  simp only [String.toList_append, String.toList_ofList, List.append_assoc, escapeLabel_shape]
  rfl

theorem toList_nodeEntry (i : Nat) (n : Node) :
    (nodeEntry i n).toList = (n.sketch.lines i).flatMap Dump.Line.chars := by
  rw [nodeEntry, String.toList_append, String.toList_join, toList_nodeRecord,
    Dump.Sketch.lines, List.flatMap_cons, List.flatMap_map, List.flatMap_map]
  simp only [toList_edgeLine]
  rfl

/-- A dump holds the lines of every node. -/
theorem dot_eq_text (g : Graph) : g.dot = Dump.text (g.dumpOrder.flatMap g.dumpEntry) := by
  have hentry : ∀ i, ((g.nodes[i]?.map (nodeEntry i)).getD "").toList =
      (g.dumpEntry i).flatMap Dump.Line.chars := by
    intro i
    rw [dumpEntry]
    cases g.nodes[i]? with
    | none => rfl
    | some n => exact toList_nodeEntry i n
  unfold dot Dump.text Dump.opening Dump.closing
  rw [← String.toList_inj, String.toList_ofList, String.toList_append, String.toList_append,
    String.toList_join, List.flatMap_map, List.flatMap_assoc, List.append_assoc]
  simp only [hentry]

theorem owner_of_mem_dumpEntry {g : Graph} {i : Nat} {line : Dump.Line}
    (h : line ∈ g.dumpEntry i) : line.owner = i := by
  rw [dumpEntry] at h
  cases hn : g.nodes[i]? with
  | none => rw [hn] at h; cases h
  | some n => rw [hn] at h; exact Dump.owner_of_mem_lines h

/-- **A dump tells of every node what it is meant to tell.** -/
theorem decode_dot (g : Graph) (i : Nat) :
    Dump.decode g.dot i = g.nodes[i]?.map Node.sketch := by
  have hlisted : i ∈ g.dumpOrder ∨ g.dumpEntry i = [] := by
    rw [mem_dumpOrder]
    by_cases h : i < g.size
    · exact .inl h
    · exact .inr (by rw [dumpEntry, Array.getElem?_eq_none (Nat.not_lt.1 h)]; rfl)
  have hlines : (g.dumpOrder.flatMap g.dumpEntry).filter (·.owner == i) = g.dumpEntry i :=
    Dump.filter_owner_flatMap (fun _ _ => owner_of_mem_dumpEntry) g.nodup_dumpOrder hlisted
  rw [Dump.decode, dot_eq_text, Dump.read_text, Option.bind_eq_bind, Option.bind_some,
    hlines, dumpEntry]
  cases g.nodes[i]? with
  | none => rfl
  | some n => exact Dump.sketch?_lines i n.sketch

section SameDump

variable {g h : Graph}

/-- Graphs with the same dump agree on all that follows from sketches. -/
theorem map_sketch_eq_of_dot_eq {α : Type} (f : Dump.Sketch → α)
    (heq : g.dot = h.dot) (i : Nat) :
    g.nodes[i]?.map (fun n => f n.sketch) = h.nodes[i]?.map (fun n => f n.sketch) := by
  have hsketch :
      (g.nodes[i]?.map Node.sketch).map f = (h.nodes[i]?.map Node.sketch).map f := by
    rw [← decode_dot, ← decode_dot, heq]
  rwa [Option.map_map, Option.map_map] at hsketch

theorem size_eq_of_dot_eq (heq : g.dot = h.dot) : g.size = h.size := by
  have hnodes : g.nodes.map Node.sketch = h.nodes.map Node.sketch :=
    Array.ext_getElem? fun i => by
    rw [Array.getElem?_map, Array.getElem?_map, ← decode_dot, ← decode_dot, heq]
  calc g.size = (g.nodes.map Node.sketch).size := Array.size_map.symm
    _ = (h.nodes.map Node.sketch).size := by rw [hnodes]
    _ = h.size := Array.size_map

theorem toList_targetsOf (g : Graph) (i : Nat) :
    (g.targetsOf i).toList = (g.nodes[i]?.map (fun n => n.sketch.targets)).getD [] := by
  rw [targetsOf]
  cases g.nodes[i]? <;> rfl

theorem targetsOf_eq_of_dot_eq (heq : g.dot = h.dot) (i : Nat) :
    g.targetsOf i = h.targetsOf i := by
  have hlist : (g.targetsOf i).toList = (h.targetsOf i).toList := by
    rw [toList_targetsOf, toList_targetsOf, map_sketch_eq_of_dot_eq Dump.Sketch.targets heq]
  exact IndexSet.ext_mem fun t => by rw [← IndexSet.mem_toList, ← IndexSet.mem_toList, hlist]

end SameDump

/-- **A dump is complete and can be read back.**  It holds a record for each node, by
kind and then by number, and after each record the edges of the node by target; and
whatever the labels are, graphs with the same dump have the same nodes and edges, as far
as a dump tells of them. -/
theorem dot_is_decodable (g : Graph) :
    g.dumpOrder.Perm (List.range g.size) ∧ g.dumpOrder.Pairwise g.DumpsBefore ∧
    g.dot = Dump.text (g.dumpOrder.flatMap g.dumpEntry) ∧
    (∀ i n, g.nodes[i]? = some n → ∃ targets : List Nat, targets.Pairwise (· < ·) ∧
      (∀ t, t ∈ targets ↔ t ∈ g.targetsOf i) ∧
      g.dumpEntry i = .record i n.label n.kind.shape :: targets.map (.edge i)) ∧
    (∀ lines, Dump.read (Dump.text lines) = some lines) ∧
    (∀ i, Dump.decode g.dot i = g.nodes[i]?.map Node.sketch) ∧
    ∀ h : Graph, g.dot = h.dot → g.size = h.size ∧
      ∀ i, g.nodes[i]?.map (·.label) = h.nodes[i]?.map (·.label) ∧
        g.nodes[i]?.map (·.kind.shape) = h.nodes[i]?.map (·.kind.shape) ∧
        g.targetsOf i = h.targetsOf i := by
  refine ⟨g.dumpOrder_perm, g.dumpOrder_sorted, g.dot_eq_text, ?_, Dump.read_text,
    g.decode_dot, ?_⟩
  · intro i n hn
    refine ⟨n.targets.toList, n.targets.ascending, fun t => ?_, ?_⟩
    · rw [targetsOf, hn]
      rfl
    · rw [dumpEntry, hn]
      rfl
  · intro h heq
    refine ⟨size_eq_of_dot_eq heq, fun i => ⟨?_, ?_, targetsOf_eq_of_dot_eq heq i⟩⟩
    · exact map_sketch_eq_of_dot_eq Dump.Sketch.label heq i
    · exact map_sketch_eq_of_dot_eq Dump.Sketch.shape heq i

/-- A register that is named like the rest of its record with an edge after it, and that points
to a memory object with a backslash at the end of its name. -/
def forgingGraph (id : Nat) (kind : Kind) : Graph :=
  (((Graph.new id).push .register "p\"];\n  0 -> 1;\n  9 [label = \"" (.value 0)).push kind "\\"
    .synthetic).insertEdge 2 3 |>.2

theorem dot_is_decodable_forgingGraph :
    forgingGraph 1 .alloca ≠ forgingGraph 2 .malloc ∧
    (forgingGraph 1 .alloca).dot = (forgingGraph 2 .malloc).dot ∧
    Dump.decode (forgingGraph 1 .alloca).dot 0 = some ⟨"unknown", "box", []⟩ ∧
    (forgingGraph 1 .alloca).targetsOf 2 = (forgingGraph 2 .malloc).targetsOf 2 := by
  have hdot : (forgingGraph 1 .alloca).dot = (forgingGraph 2 .malloc).dot := by decide +kernel
  obtain ⟨-, -, -, -, -, hdecode, hsame⟩ := dot_is_decodable (forgingGraph 1 .alloca)
  exact ⟨by decide, hdot, (hdecode 0).trans rfl, ((hsame _ hdot).2 2).2.2⟩

end PointerChannels.Graph
