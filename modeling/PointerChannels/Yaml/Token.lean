/-!
# Tokens of a YAML text

What a text consists of once its layout is understood: where collections start and end, where
keys and values stand, and the scalars.  `Yaml.Layout` finds the tokens of a text, and
`Yaml.Document.ofTokens?` builds the nodes that they say.
-/

namespace PointerChannels.Yaml

/-- The ways to write a scalar. -/
inductive Style where
  /-- Without any mark. -/
  | plain
  /-- In quotes. -/
  | quoted
  /-- As an indented block whose line breaks are kept. -/
  | literal
  /-- As an indented block whose line breaks are folded. -/
  | folded
deriving DecidableEq, Repr

/-- The kinds of collection. -/
inductive Collection where
  /-- A list of nodes. -/
  | sequence
  /-- A list of keys with their values. -/
  | mapping
deriving DecidableEq, Repr

/-- A token. -/
inductive Token where
  /-- A directive that gives the version of the language. -/
  | version (major minor : Nat)
  /-- A directive that gives a meaning to a tag handle. -/
  | handle (name uri : String)
  /-- The marker of a document's start. -/
  | documentStart
  /-- The marker of a document's end. -/
  | documentEnd
  /-- The start of a collection laid out by indentation. -/
  | blockStart (kind : Collection)
  /-- The end of a collection laid out by indentation. -/
  | blockEnd
  /-- The opening bracket of a collection. -/
  | flowStart (kind : Collection)
  /-- The closing bracket of a collection. -/
  | flowEnd (kind : Collection)
  /-- The dash in front of an item. -/
  | item
  /-- The comma between two nodes inside brackets. -/
  | comma
  /-- The place in front of a key, marked or not. -/
  | key
  /-- The colon in front of a value. -/
  | value
  /-- The name that the next node is given. -/
  | anchor (name : String)
  /-- A node given by the name of an earlier one. -/
  | alias (name : String)
  /-- The tag of the next node. -/
  | tag (handle suffix : String)
  /-- A scalar. -/
  | scalar (style : Style) (text : String)
deriving DecidableEq, Repr

end PointerChannels.Yaml
