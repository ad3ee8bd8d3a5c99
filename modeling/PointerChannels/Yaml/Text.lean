/-!
# Characters and places of a YAML text

A text may hold no control characters.  A line ends at a line feed, a carriage return, both
together, or one of the three line breaks outside ASCII; the first four count as a line feed
and the last two, the line and paragraph separators, as themselves.

A text is read at a cursor: a place and the characters from there on.
-/

namespace PointerChannels.Yaml

/-! ## Characters -/

/-- Whether a character may stand in a text at all. -/
def isPrintable (c : Char) : Bool :=
  let n := c.toNat
  n = 0x9 || n = 0xA || n = 0xD || (0x20 ≤ n && n ≤ 0x7E) || n = 0x85 ||
    (0xA0 ≤ n && n ≤ 0xFFFD) || 0x10000 ≤ n

/-- The text with every line break that counts as a line feed written as one. -/
def unifyBreaks : List Char → List Char
  | [] => []
  | '\r' :: '\n' :: cs => '\n' :: unifyBreaks cs
  | c :: cs => (if c = '\r' || c = '\u0085' then '\n' else c) :: unifyBreaks cs

/-- A space or a tab. -/
def isBlank (c : Char) : Bool := c = ' ' || c = '\t'

/-- A line break. -/
def isBreak (c : Char) : Bool := c = '\n' || c = '\u2028' || c = '\u2029'

/-- A blank or a line break. -/
def isSpacing (c : Char) : Bool := isBlank c || isBreak c

/-- Whether the text is at its end or goes on with a blank or a line break. -/
def endsWord : List Char → Bool
  | [] => true
  | c :: _ => isSpacing c

/-- Whether nothing but blanks and a comment is left on the line. -/
def endsLine (cs : List Char) : Bool :=
  match cs.dropWhile isBlank with
  | [] => true
  | c :: _ => isBreak c || c = '#'

/-- Whether the text goes on with the marker of a document's start, `---`,
or of its end, `...`. -/
def startsMarker : List Char → Bool
  | '-' :: '-' :: '-' :: cs => endsWord cs
  | '.' :: '.' :: '.' :: cs => endsWord cs
  | _ => false

/-- The characters that stand between the nodes inside brackets. -/
def isFlowMark (c : Char) : Bool := [',', '[', ']', '\x7b', '\x7d'].contains c

/-! ## Places -/

/-- A place in a text. -/
structure Place where
  /-- The number of characters before it. -/
  index : Nat
  /-- The number of lines before its own. -/
  line : Nat
  /-- The number of characters before it on its line. -/
  column : Nat
deriving DecidableEq, Repr

namespace Place

/-- The start of a text. -/
def start : Place := ⟨0, 0, 0⟩

/-- The place after a character. -/
def after (p : Place) (c : Char) : Place :=
  if isBreak c then ⟨p.index + 1, p.line + 1, 0⟩ else ⟨p.index + 1, p.line, p.column + 1⟩

/-- The place some characters later on the same line. -/
def right (p : Place) (n : Nat) : Place :=
  { p with index := p.index + n, column := p.column + n }

end Place

/-- A place and the characters from there on. -/
structure Cursor where
  /-- The place. -/
  place : Place
  /-- The characters from there on. -/
  rest : List Char
deriving DecidableEq, Repr

namespace Cursor

/-- The cursor some characters later on the same line. -/
def skip (c : Cursor) (n : Nat) : Cursor := ⟨c.place.right n, c.rest.drop n⟩

/-- The cursor further right on the same line, where only `rest` is left. -/
def moveTo (c : Cursor) (rest : List Char) : Cursor :=
  ⟨c.place.right (c.rest.length - rest.length), rest⟩

end Cursor

end PointerChannels.Yaml
