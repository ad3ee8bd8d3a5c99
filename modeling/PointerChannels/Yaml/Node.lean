import PointerChannels.Yaml.Digit
import PointerChannels.Yaml.Token

/-!
# YAML nodes

What a document says, without how it is laid out.  Of a scalar, two things matter besides
its text.  The style: a quoted scalar is never null, and only a plain one, or a literal one
with the right tag, is a truth value or a number.  The tag: one that starts with an
exclamation mark names a choice.
-/

namespace PointerChannels.Yaml

/-- A node of a document. -/
inductive Node where
  /-- A text, with the way it was written and its tag. -/
  | scalar (style : Style) (tag : Option String) (text : String)
  /-- A list of nodes. -/
  | sequence (items : List Node)
  /-- A list of keys with their values, in order; keys may repeat. -/
  | mapping (entries : List (Node × Node))
  /-- The node of the document that has been given a number. -/
  | alias (number : Nat)
deriving Repr

/-! ## Tags -/

/-- The tag of nodes that stand for nothing. -/
def nullTag : String := "tag:yaml.org,2002:null"

/-- The tag of truth values. -/
def boolTag : String := "tag:yaml.org,2002:bool"

/-- The tag of numbers. -/
def intTag : String := "tag:yaml.org,2002:int"

namespace Node

/-- The node of a place left empty. -/
def empty : Node := scalar .plain none ""

instance : Inhabited Node := ⟨empty⟩

/-- The text of a scalar. -/
def text? : Node → Option String
  | scalar _ _ text => some text
  | _ => none

/-- The text of a scalar that may stand for a value of its own: a plain one, or a literal
one with the given tag. -/
def valueText? (expected : String) : Node → Option String
  | scalar .plain _ text => some text
  | scalar .literal tag text => if tag = some expected then some text else none
  | _ => none

/-! ## Nothing -/

/-- Whether a text is a word for nothing. -/
def isNullWord (text : String) : Bool := ["~", "null", "Null", "NULL"].contains text

/-- Whether a text stands for nothing, by a word or by being empty. -/
def isNullText (text : String) : Bool := text = "" || isNullWord text

/-- What a node that may stand for nothing gives.  A plain scalar with the tag for nothing must
be a word for nothing, and one with another tag is something. -/
def optional? {α : Type} (read : Node → Option α) : Node → Option (Option α)
  | scalar .plain none text =>
    if isNullText text then some none else (read (scalar .plain none text)).map some
  | scalar .plain (some tag) text =>
    if tag = nullTag then if isNullWord text then some none else none
    else (read (scalar .plain (some tag) text)).map some
  | node => (read node).map some

/-! ## Truth values and choices -/

/-- The truth value of a node. -/
def bool? (n : Node) : Option Bool :=
  match n.valueText? boolTag with
  | some text =>
    if ["true", "True", "TRUE"].contains text then some true
    else if ["false", "False", "FALSE"].contains text then some false
    else none
  | none => none

/-- The name of the choice that a scalar makes: its tag if that starts with an exclamation mark
and the scalar stands for nothing, or else its text. -/
def choice? : Node → Option String
  | scalar style tag text =>
    match tag.map String.toList with
    | some ('!' :: name) =>
      if style = .plain && isNullText text then some (String.ofList name) else none
    | _ => some text
  | _ => none

/-! ## Numbers -/

/-- The number written by decimal digits, without a needless zero in front. -/
def decimal? : List Char → Option Nat
  | '0' :: _ :: _ => none
  | cs => digits? 10 cs

/-- The number a text writes without its sign: decimal, or in the base its first two characters
name. -/
def unsigned? : List Char → Option Nat
  | '0' :: 'x' :: cs => digits? 16 cs
  | '0' :: 'o' :: cs => digits? 8 cs
  | '0' :: 'b' :: cs => digits? 2 cs
  | cs => decimal? cs

/-- The natural number a text writes; a plus sign may stand in front. -/
def naturalText? : List Char → Option Nat
  | '+' :: cs => unsigned? cs
  | cs => unsigned? cs

/-- The natural number of a node, if it is one below `limit`. -/
def natural? (limit : Nat) (n : Node) : Option Nat :=
  match n.valueText? intTag with
  | some text => (naturalText? text.toList).filter (· < limit)
  | none => none

end Node
end PointerChannels.Yaml
