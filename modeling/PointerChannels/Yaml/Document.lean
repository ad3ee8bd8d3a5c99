import PointerChannels.Yaml.Layout
import PointerChannels.Yaml.Node

/-!
# YAML documents

A document is a node together with the nodes that its aliases stand for.  A text
holds exactly one document.

A node with an anchor is given a number: the count of different anchors before it.  An alias
stands for the node that got the number of its anchor last.  An anchor may be given anew; then
the next new one gets the same number.
-/

namespace PointerChannels.Yaml

/-- A node that has been given a number. -/
structure Numbered where
  /-- The number. -/
  number : Nat
  /-- The count of nodes with anchors that started before it. -/
  order : Nat
  /-- The node. -/
  node : Node
deriving Repr

/-- A document. -/
structure Document where
  /-- What it says. -/
  root : Node
  /-- The nodes with anchors. -/
  numbered : List Numbered
deriving Repr

namespace Document

/-- Of a node and one that may have been found before, the one that started last. -/
def later (found : Option Numbered) (n : Numbered) : Option Numbered :=
  match found with
  | some m => if n.order < m.order then some m else some n
  | none => some n

/-- The node that got a number last. -/
def numberedNode? (d : Document) (number : Nat) : Option Node :=
  ((d.numbered.filter (·.number = number)).foldl later none).map (·.node)

/-- The node that a node stands for.  Only one without an anchor is an alias, so one step is
enough. -/
def follow (d : Document) : Node → Node
  | .alias number => (d.numberedNode? number).getD .empty
  | node => node

end Document

/-! ## Reading tokens -/

/-- The tokens that are left, and what has been said before them. -/
structure Remainder where
  /-- The tokens. -/
  tokens : List Token
  /-- The meaning of the tag handles. -/
  handles : List (String × String)
  /-- The number of each anchor. -/
  numbers : List (String × Nat)
  /-- The count of nodes with anchors that have started. -/
  started : Nat
  /-- Those that have ended. -/
  numbered : List Numbered
deriving Repr

/-- What may stand in front of a node's content. -/
structure Properties where
  /-- Its anchor. -/
  anchor : Option String
  /-- Its tag. -/
  tag : Option String
deriving DecidableEq, Repr

namespace Remainder

/-- The tag of a handle and a suffix. -/
def tagOf? (r : Remainder) (handle suffix : String) : Option String :=
  if handle = "" then some suffix else (r.handles.lookup handle).map (· ++ suffix)

/-- The properties in front of a node's content, in either order, and what follows them. -/
def properties? (r : Remainder) : Option (Properties × Remainder) :=
  match r.tokens with
  | .anchor name :: .tag handle suffix :: ts | .tag handle suffix :: .anchor name :: ts => do
    return (⟨some name, ← r.tagOf? handle suffix⟩, { r with tokens := ts })
  | .anchor name :: ts => some (⟨some name, none⟩, { r with tokens := ts })
  | .tag handle suffix :: ts => do
    return (⟨none, ← r.tagOf? handle suffix⟩, { r with tokens := ts })
  | _ => some (⟨none, none⟩, r)

/-- Give a node its number when it starts. -/
def start (r : Remainder) (anchor : Option String) : Remainder :=
  match anchor with
  | some name =>
    { r with
      numbers := (name, r.numbers.length) :: r.numbers.filter (·.1 ≠ name)
      started := r.started + 1 }
  | none => r

/-- Keep a node with an anchor when it ends; `before` is what was left when it started. -/
def keep (r before : Remainder) (anchor : Option String) (node : Node) : Remainder :=
  match anchor with
  | some _ =>
    { r with numbered := r.numbered ++ [⟨before.numbers.length, before.started, node⟩] }
  | none => r

/-- Whether a token comes next that satisfies a condition. -/
def next (r : Remainder) (condition : Token → Bool) : Bool := r.tokens.head?.any condition

end Remainder

/-- The tokens that leave a key or a value of an indented mapping empty. -/
def endsBlockPart : Token → Bool
  | .key | .value | .blockEnd => true
  | _ => false

/-- The tokens that leave an item of an indented sequence empty. -/
def endsBlockItem : Token → Bool
  | .item | .blockEnd => true
  | _ => false

/-- The tokens that leave an item of a sequence empty that stands at the column of its key. -/
def endsLevelItem : Token → Bool
  | .item | .key | .value | .blockEnd => true
  | _ => false

/-- The tokens that leave a value inside brackets empty. -/
def endsFlowValue (kind : Collection) : Token → Bool
  | .comma => true
  | .flowEnd k => k = kind
  | _ => false

/-- The tokens that leave a key inside brackets empty. -/
def endsFlowKey (kind : Collection) (t : Token) : Bool := t = .value || endsFlowValue kind t

/-- What a comma in front of a further node inside brackets leaves; in front of
the first there is none. -/
def afterComma (first : Bool) (r : Remainder) : Option Remainder :=
  if first then some r
  else
    match r.tokens with
    | .comma :: ts => some { r with tokens := ts }
    | _ => none

mutual

/-- A node.  Only where one may stand at the column of its key, `level`, need the items of a
sequence not be indented. -/
def node : Nat → Bool → Remainder → Option (Node × Remainder)
  | 0, _, _ => none
  | bound + 1, level, r =>
    match r.tokens with
    | .alias name :: ts => do
      return (.alias (← r.numbers.lookup name), { r with tokens := ts })
    | _ => do
      let (properties, before) ← r.properties?
      let (node, rest) ← content bound level properties (before.start properties.anchor)
      return (node, rest.keep before properties.anchor node)

/-- The content of a node.  It may be left out if something stands in front of it.  The
exclamation mark alone is no tag of a scalar. -/
def content : Nat → Bool → Properties → Remainder → Option (Node × Remainder)
  | 0, _, _, _ => none
  | bound + 1, level, p, r =>
    match r.tokens with
    | .scalar style text :: ts =>
      some (.scalar style (p.tag.filter (· ≠ "!")) text, { r with tokens := ts })
    | .flowStart .sequence :: ts => do
      let (items, r) ← flowItems bound true { r with tokens := ts }
      return (.sequence items, r)
    | .flowStart .mapping :: ts => do
      let (entries, r) ← flowEntries bound true { r with tokens := ts }
      return (.mapping entries, r)
    | .blockStart .sequence :: ts => do
      let (items, r) ← blockItems bound { r with tokens := ts }
      return (.sequence items, r)
    | .blockStart .mapping :: ts => do
      let (entries, r) ← blockEntries bound { r with tokens := ts }
      return (.mapping entries, r)
    | ts =>
      if level && ts.head? = some .item then do
        let (items, r) ← levelItems bound r
        return (.sequence items, r)
      else if p = ⟨none, none⟩ then none
      else some (.scalar .plain p.tag "", r)

/-- A node, or the empty one if the next token says so. -/
def nodeUnless : Nat → (Token → Bool) → Bool → Remainder → Option (Node × Remainder)
  | 0, _, _, _ => none
  | bound + 1, ends, level, r => if r.next ends then some (.empty, r) else node bound level r

/-- The value after a key, if there is a colon. -/
def valueUnless : Nat → (Token → Bool) → Bool → Remainder → Option (Node × Remainder)
  | 0, _, _, _ => none
  | bound + 1, ends, level, r =>
    match r.tokens with
    | .value :: ts => nodeUnless bound ends level { r with tokens := ts }
    | _ => some (.empty, r)

/-- The items of an indented sequence. -/
def blockItems : Nat → Remainder → Option (List Node × Remainder)
  | 0, _ => none
  | bound + 1, r =>
    match r.tokens with
    | .item :: ts => do
      let (item, r) ← nodeUnless bound endsBlockItem false { r with tokens := ts }
      let (items, r) ← blockItems bound r
      return (item :: items, r)
    | .blockEnd :: ts => some ([], { r with tokens := ts })
    | _ => none

/-- The items of a sequence at the column of its key. -/
def levelItems : Nat → Remainder → Option (List Node × Remainder)
  | 0, _ => none
  | bound + 1, r =>
    match r.tokens with
    | .item :: ts => do
      let (item, r) ← nodeUnless bound endsLevelItem false { r with tokens := ts }
      let (items, r) ← levelItems bound r
      return (item :: items, r)
    | _ => some ([], r)

/-- The entries of an indented mapping. -/
def blockEntries : Nat → Remainder → Option (List (Node × Node) × Remainder)
  | 0, _ => none
  | bound + 1, r =>
    match r.tokens with
    | .key :: ts => do
      let (key, r) ← nodeUnless bound endsBlockPart true { r with tokens := ts }
      let (value, r) ← valueUnless bound endsBlockPart true r
      let (entries, r) ← blockEntries bound r
      return ((key, value) :: entries, r)
    | .blockEnd :: ts => some ([], { r with tokens := ts })
    | _ => none

/-- The items of a sequence in brackets, up to its closing one.  A key makes an item a mapping
of one entry; if the key is left out, so is the mark that follows it. -/
def flowItems : Nat → Bool → Remainder → Option (List Node × Remainder)
  | 0, _, _ => none
  | bound + 1, first, r =>
    match r.tokens with
    | .flowEnd .sequence :: ts => some ([], { r with tokens := ts })
    | _ => do
      let r ← afterComma first r
      match r.tokens with
      | .flowEnd .sequence :: ts => return ([], { r with tokens := ts })
      | .key :: ts =>
        let (key, r) ← nodeUnless bound (endsFlowKey .sequence) false { r with tokens := ts }
        let r :=
          if ts.head?.any (endsFlowKey .sequence) then { r with tokens := ts.tail } else r
        let (value, r) ← valueUnless bound (endsFlowValue .sequence) false r
        let (items, r) ← flowItems bound false r
        return (.mapping [(key, value)] :: items, r)
      | _ =>
        let (item, r) ← node bound false r
        let (items, r) ← flowItems bound false r
        return (item :: items, r)

/-- The entries of a mapping in brackets, up to its closing one.  A node that is no key stands
for one without a value. -/
def flowEntries : Nat → Bool → Remainder → Option (List (Node × Node) × Remainder)
  | 0, _, _ => none
  | bound + 1, first, r =>
    match r.tokens with
    | .flowEnd .mapping :: ts => some ([], { r with tokens := ts })
    | _ => do
      let r ← afterComma first r
      match r.tokens with
      | .flowEnd .mapping :: ts => return ([], { r with tokens := ts })
      | .key :: ts =>
        let (key, r) ← nodeUnless bound (endsFlowKey .mapping) false { r with tokens := ts }
        let (value, r) ← valueUnless bound (endsFlowValue .mapping) false r
        let (entries, r) ← flowEntries bound false r
        return ((key, value) :: entries, r)
      | _ =>
        let (key, r) ← node bound false r
        let (entries, r) ← flowEntries bound false r
        return ((key, .empty) :: entries, r)

end

/-! ## Documents -/

/-- The meaning of the handles that need no directive. -/
def defaultHandles : List (String × String) := [("!", "!"), ("!!", "tag:yaml.org,2002:")]

/-- The handles that the directives of a document give a meaning to, and the tokens after its
start marker.  No handle is given two, the version at most once, and it is 1.1 or 1.2. -/
def directives? : Bool → List (String × String) → List Token →
    Option (List (String × String) × List Token)
  | versioned, handles, .version major minor :: ts =>
    if versioned || major ≠ 1 || (minor ≠ 1 && minor ≠ 2) then none
    else directives? true handles ts
  | versioned, handles, .handle name uri :: ts =>
    if (handles.lookup name).isSome then none
    else directives? versioned ((name, uri) :: handles) ts
  | _, handles, .documentStart :: ts => some (handles, ts)
  | _, _, _ => none

/-- Whether a token begins a document that has directives or a start marker. -/
def startsExplicit : Token → Bool
  | .version _ _ | .handle _ _ | .documentStart => true
  | _ => false

/-- Whether a token leaves a document empty after its start marker. -/
def endsDocument (t : Token) : Bool := startsExplicit t || t = .documentEnd

namespace Document

/-- The one document of a list of tokens. -/
def ofTokens? (ts : List Token) : Option Document := do
  let explicit := ts.head?.any startsExplicit
  let (handles, ts) ← if explicit then directives? false [] ts else some ([], ts)
  let r : Remainder := ⟨ts, handles ++ defaultHandles, [], 0, []⟩
  let (root, r) ←
    if explicit && (ts.isEmpty || r.next endsDocument) then some (.empty, r)
    else node (5 * ts.length + 5) false r
  guard (r.tokens.all (· = .documentEnd))
  return ⟨root, r.numbered⟩

/-- The one document of a text. -/
def ofText? (text : String) : Option Document := do
  guard (text.toList.all isPrintable)
  ofTokens? (← tokens? (unifyBreaks text.toList))

end Document
end PointerChannels.Yaml
