import PointerChannels.Yaml.Property
import PointerChannels.Yaml.Scalar

/-!
# The layout of a YAML text

The tokens of a text are found from left to right.  Two things about them show only later.

A key need not be marked: whatever stands at the right place may turn out to be one
when a colon follows.  So the latest such place is remembered, one for each open
bracket and one outside, and the colon puts the mark of a key, and of the mapping that
may start with it, in front of tokens found already.  A key without a mark stands on
one line, within 1024 characters.

Outside brackets, indentation tells where collections end.  `least` is the least column of what
belongs to the innermost collection without being a key or a dash of it: its own column and one
more, or zero outside all.
-/

namespace PointerChannels.Yaml

/-- A place where a key without a mark may have started. -/
structure Candidate where
  /-- Whether it stands where nothing but a key can. -/
  required : Bool
  /-- The place. -/
  place : Place
  /-- The number of tokens in front of it. -/
  position : Nat
deriving DecidableEq, Repr

/-- What is known of a text up to a cursor. -/
structure Layout where
  /-- The cursor. -/
  cursor : Cursor
  /-- The tokens so far. -/
  tokens : List Token
  /-- Whether a key without a mark may start here. -/
  keyAllowed : Bool
  /-- The latest place where one may have started, since the innermost open bracket. -/
  candidate : Option Candidate
  /-- The same for each bracket around, from inside out. -/
  around : List (Option Candidate)
  /-- The least column of what belongs to the innermost collection. -/
  least : Nat
  /-- The same for each collection around, from inside out. -/
  outer : List Nat
deriving DecidableEq, Repr

namespace Layout

/-- The start of a text. -/
def start (cs : List Char) : Layout := ⟨⟨.start, cs⟩, [], true, none, [], 0, []⟩

/-- Whether a bracket is open. -/
def inBrackets (s : Layout) : Bool := !s.around.isEmpty

/-- The column of the cursor. -/
def column (s : Layout) : Nat := s.cursor.place.column

/-- Add a token. -/
def emit (s : Layout) (token : Token) (cursor : Cursor) : Layout :=
  { s with tokens := s.tokens ++ [token], cursor }

/-! ## Candidates for keys -/

/-- Whether a key that started at a candidate cannot end at a place. -/
def tooFar (p : Place) (k : Candidate) : Bool :=
  k.place.line < p.line || k.place.index + 1024 < p.index

/-- A candidate unless it is too far away.  One that must be a key is not given up. -/
def keepNear (p : Place) : Option Candidate → Option (Option Candidate)
  | none => some none
  | some k => if !tooFar p k then some (some k) else if k.required then none else some none

/-- Give up the candidates that are too far away. -/
def dropFar (s : Layout) : Option Layout := do
  let candidate ← keepNear s.cursor.place s.candidate
  let around ← s.around.mapM (keepNear s.cursor.place)
  return { s with candidate, around }

/-- Give up the latest candidate.  One that must be a key is not given up. -/
def dropCandidate (s : Layout) : Option Layout :=
  if s.candidate.any (·.required) then none else some { s with candidate := none }

/-- Make the cursor the latest candidate, if a key may start here. -/
def saveCandidate (s : Layout) : Option Layout :=
  if s.keyAllowed then do
    let s ← s.dropCandidate
    let required := !s.inBrackets && s.least = s.column + 1
    return { s with candidate := some ⟨required, s.cursor.place, s.tokens.length⟩ }
  else some s

/-! ## Indentation -/

/-- Start a collection at a column, with its token after the first `position` tokens, unless
it has started already. -/
def openBlock (s : Layout) (kind : Collection) (column position : Nat) : Layout :=
  if s.inBrackets || column < s.least then s
  else
    { s with
      tokens := s.tokens.take position ++ .blockStart kind :: s.tokens.drop position
      least := column + 1
      outer := s.least :: s.outer }

/-- The collections that are left when those whose content starts right of `bound` have ended,
and the number of those. -/
def unwind (bound : Nat) : Nat → List Nat → Nat × Nat × List Nat
  | least, [] => (0, least, [])
  | least, next :: outer =>
    if bound < least then
      let (ended, rest) := unwind bound next outer
      (ended + 1, rest)
    else (0, least, next :: outer)

/-- End the collections whose content starts right of `bound`. -/
def closeBlocks (s : Layout) (bound : Nat) : Layout :=
  if s.inBrackets then s
  else
    let (ended, least, outer) := unwind bound s.least s.outer
    { s with tokens := s.tokens ++ List.replicate ended .blockEnd, least, outer }

/-! ## Spacing -/

/-- The cursor at the next token, and whether a key without a mark may start there.

Comments, line breaks and blanks are passed over, but tabs not where they would indent a key.
Outside brackets, a key may start on a new line.  A byte order mark may start a line. -/
def skipSpacing (flow keyAllowed comment : Bool) (p : Place) : List Char → Bool × Cursor
  | [] => (keyAllowed, ⟨p, []⟩)
  | c :: cs =>
    if isBreak c then skipSpacing flow (keyAllowed || !flow) false (p.after c) cs
    else if comment || c = '#' then skipSpacing flow keyAllowed true (p.after c) cs
    else if c = ' ' || c = '\t' && (flow || !keyAllowed) || c = '\ufeff' && p.column = 0 then
      skipSpacing flow keyAllowed false (p.after c) cs
    else (keyAllowed, ⟨p, c :: cs⟩)

/-- Go on to the next token: pass over spacing, give up far candidates, and end the collections
that the column ends. -/
def advance (s : Layout) : Option Layout := do
  let (keyAllowed, cursor) :=
    skipSpacing s.inBrackets s.keyAllowed false s.cursor.place s.cursor.rest
  let s ← dropFar { s with keyAllowed, cursor }
  return s.closeBlocks (s.column + 1)

/-! ## Tokens -/

/-- A directive or a document marker, which ends every collection. -/
def outermost (s : Layout) (token : Token) (cursor : Cursor) : Option Layout := do
  let s ← (s.closeBlocks 0).dropCandidate
  return { s.emit token cursor with keyAllowed := false }

/-- An opening bracket; the collection may be a key. -/
def openFlow (s : Layout) (kind : Collection) : Option Layout := do
  let s ← s.saveCandidate
  return { s.emit (.flowStart kind) (s.cursor.skip 1) with
    keyAllowed := true, candidate := none, around := s.candidate :: s.around }

/-- A closing bracket. -/
def closeFlow (s : Layout) (kind : Collection) : Option Layout := do
  let s ← s.dropCandidate
  match s.around with
  | [] => none
  | candidate :: around =>
    return { s.emit (.flowEnd kind) (s.cursor.skip 1) with
      keyAllowed := false, candidate, around }

/-- A comma inside brackets. -/
def comma (s : Layout) : Option Layout := do
  let s ← s.dropCandidate
  return { s.emit .comma (s.cursor.skip 1) with keyAllowed := true }

/-- The dash of an item. -/
def item (s : Layout) : Option Layout := do
  guard (s.inBrackets || s.keyAllowed)
  let s ← (s.openBlock .sequence s.column s.tokens.length).dropCandidate
  return { s.emit .item (s.cursor.skip 1) with keyAllowed := true }

/-- The question mark of a key. -/
def markedKey (s : Layout) : Option Layout := do
  guard (s.inBrackets || s.keyAllowed)
  let s ← (s.openBlock .mapping s.column s.tokens.length).dropCandidate
  return { s.emit .key (s.cursor.skip 1) with keyAllowed := !s.inBrackets }

/-- The colon of a value; a candidate becomes its key. -/
def value (s : Layout) : Option Layout :=
  match s.candidate with
  | some k =>
    let tokens := s.tokens.take k.position ++ .key :: s.tokens.drop k.position
    let s := { s with tokens, candidate := none }.openBlock .mapping k.place.column k.position
    some { s.emit .value (s.cursor.skip 1) with keyAllowed := false }
  | none => do
    guard (s.inBrackets || s.keyAllowed)
    let s := s.openBlock .mapping s.column s.tokens.length
    return { s.emit .value (s.cursor.skip 1) with keyAllowed := !s.inBrackets }

/-- The name of a node, or a node by its name. -/
def named (s : Layout) (token : String → Token) : Option Layout := do
  let s ← s.saveCandidate
  let (name, rest) ← anchorName? (s.cursor.rest.drop 1)
  return { s.emit (token (String.ofList name)) (s.cursor.moveTo rest) with
    keyAllowed := false }

/-- A tag.  Spacing follows it or, inside brackets, a comma. -/
def tag (s : Layout) : Option Layout := do
  let s ← s.saveCandidate
  let (handle, suffix, rest) ← tag? (s.cursor.rest.drop 1)
  guard (endsWord rest || s.inBrackets && rest.head? = some ',')
  let token := Token.tag (String.ofList handle) (String.ofList suffix)
  return { s.emit token (s.cursor.moveTo rest) with keyAllowed := false }

/-- A block scalar; it cannot be a key without a mark. -/
def block (s : Layout) (folded : Bool) : Option Layout := do
  let s ← s.dropCandidate
  let (text, cursor) ← blockScalar folded s.least (s.cursor.skip 1)
  let style := if folded then Style.folded else Style.literal
  return { s.emit (.scalar style (String.ofList text)) cursor with keyAllowed := true }

/-- A scalar in quotes. -/
def quote (s : Layout) (double : Bool) : Option Layout := do
  let s ← s.saveCandidate
  let inside := s.cursor.skip 1
  let (text, cursor) ← quoted double 0 [] false inside.place inside.rest
  return { s.emit (.scalar .quoted (String.ofList text)) cursor with keyAllowed := false }

/-- A plain scalar.  If its line has ended, a key may follow. -/
def word (s : Layout) : Option Layout := do
  let s ← s.saveCandidate
  let (text, broken, cursor) ← plain s.inBrackets s.least [] s.cursor.place s.cursor.rest
  return { s.emit (.scalar .plain (String.ofList text)) cursor with keyAllowed := broken }

/-- Read the token at the cursor. -/
def step (s : Layout) : Option Layout :=
  match s.cursor.rest with
  | [] => none
  | c :: cs =>
    let flow := s.inBrackets
    if s.column = 0 && c = '%' then do
      let (token, rest) ← directive? cs
      s.outermost token (s.cursor.moveTo rest)
    else if s.column = 0 && startsMarker (c :: cs) then
      s.outermost (if c = '-' then .documentStart else .documentEnd) (s.cursor.skip 3)
    else if c = '[' then s.openFlow .sequence
    else if c = '\x7b' then s.openFlow .mapping
    else if c = ']' then s.closeFlow .sequence
    else if c = '\x7d' then s.closeFlow .mapping
    else if c = ',' then s.comma
    else if c = '-' && endsWord cs then s.item
    else if c = '?' && (flow || endsWord cs) then s.markedKey
    else if c = ':' && (flow || endsWord cs) then s.value
    else if c = '*' then s.named .alias
    else if c = '&' then s.named .anchor
    else if c = '!' then s.tag
    else if c = '|' && !flow then s.block false
    else if c = '>' && !flow then s.block true
    else if c = '\x27' then s.quote false
    else if c = '\x22' then s.quote true
    else if startsPlain flow (c :: cs) then s.word
    else none

/-- The tokens of a text when its end has been reached. -/
def finish (s : Layout) : Option (List Token) := do
  let s ← (s.closeBlocks 0).dropCandidate
  return s.tokens

/-- Read at most `bound` tokens up to the end of the text. -/
def run : Nat → Layout → Option (List Token)
  | 0, _ => none
  | bound + 1, s => do
    let s ← s.advance
    if s.cursor.rest.isEmpty then s.finish else run bound (← s.step)

end Layout

/-- The tokens of a text.  Each takes a character at least. -/
def tokens? (cs : List Char) : Option (List Token) :=
  (Layout.start cs).run (cs.length + 1)

end PointerChannels.Yaml
