import PointerChannels.Yaml.Digit
import PointerChannels.Yaml.Text

/-!
# YAML scalars

A scalar is plain, stands in single or double quotes, or is an indented block of lines.

Where a line ends inside a plain or quoted scalar, the blanks around the break are dropped and
the break is folded: a single line feed becomes a space, and of several the first is dropped.
The functions for these two walk over the text and carry the spacing since the last other
character, since what becomes of it depends on what follows.
-/

namespace PointerChannels.Yaml

/-- What spacing between two characters of a scalar becomes. -/
def foldSpacing (spacing : List Char) : List Char :=
  match spacing.filter isBreak with
  | [] => spacing
  | ['\n'] => [' ']
  | '\n' :: breaks => breaks
  | breaks => breaks

/-! ## Quoted scalars -/

/-- The character that a one-letter escape stands for. -/
def escape? : Char → Option Char
  | '0' => some '\x00'
  | 'a' => some '\x07'
  | 'b' => some '\x08'
  | 't' | '\t' => some '\t'
  | 'n' => some '\n'
  | 'v' => some '\x0b'
  | 'f' => some '\x0c'
  | 'r' => some '\r'
  | 'e' => some '\x1b'
  | ' ' => some ' '
  | '\x22' => some '\x22'
  | '/' => some '/'
  | '\\' => some '\\'
  | 'N' => some '\u0085'
  | '_' => some '\u00a0'
  | 'L' => some '\u2028'
  | 'P' => some '\u2029'
  | _ => none

/-- The number of digits after the letter of a numeric escape. -/
def escapeWidth? : Char → Option Nat
  | 'x' => some 2
  | 'u' => some 4
  | 'U' => some 8
  | _ => none

/-- The character of a number that is one. -/
def scalarValue? (n : Nat) : Option Char :=
  if n < 0xD800 ∨ (0xDFFF < n ∧ n ≤ 0x10FFFF) then some (Char.ofNat n) else none

/-- The character that an escape stands for and the number of characters after the backslash
that it takes.  An escape that is not known is refused. -/
def escaped? : List Char → Option (Char × Nat)
  | [] => none
  | e :: cs =>
    match escape? e, escapeWidth? e with
    | some c, _ => some (c, 1)
    | none, some width =>
      if cs.length < width then none
      else do
        let c ← scalarValue? (← digits? 16 (cs.take width))
        return (c, width + 1)
    | none, none => none

/-- A quoted scalar from after its opening quote, and the cursor after its closing one.

The first `taken` characters belong to an escape or a doubled quote that has been read.
`spacing` is the spacing since the last other character; if the break in front of it was
escaped, `joined`, only its further breaks count.  Neither the end of the text nor a document
marker may come first. -/
def quoted (double : Bool) (taken : Nat) (spacing : List Char) (joined : Bool) (p : Place) :
    List Char → Option (List Char × Cursor)
  | [] => none
  | c :: cs =>
    match taken with
    | taken + 1 => quoted double taken spacing joined (p.after c) cs
    | 0 =>
      let close := if double then '\x22' else '\x27'
      let folded := if joined then spacing.filter isBreak else foldSpacing spacing
      if isSpacing c then quoted double 0 (spacing ++ [c]) joined (p.after c) cs
      else if p.column = 0 && startsMarker (c :: cs) then none
      else if c = close then
        if !double && cs.head? = some close then do
          let (text, cursor) ← quoted double 1 [] false (p.after c) cs
          return (folded ++ c :: text, cursor)
        else some (folded, ⟨p.after c, cs⟩)
      else if double && c = '\\' then
        if cs.head?.any isBreak then do
          let (text, cursor) ← quoted double 1 [] true (p.after c) cs
          return (folded ++ text, cursor)
        else do
          let (d, width) ← escaped? cs
          let (text, cursor) ← quoted double width [] false (p.after c) cs
          return (folded ++ d :: text, cursor)
      else do
        let (text, cursor) ← quoted double 0 [] false (p.after c) cs
        return (folded ++ c :: text, cursor)

/-! ## Plain scalars -/

/-- The characters that cannot begin a plain scalar. -/
def isIndicator (c : Char) : Bool :=
  isFlowMark c || ['#', '&', '*', '!', '|', '>', '\x27', '\x22', '%', '@', '\x60'].contains c

/-- Whether a plain scalar can begin here, given that no mark does. -/
def startsPlain (flow : Bool) : List Char → Bool
  | [] => false
  | c :: cs =>
    if c = '-' then !endsWord cs
    else if c = '?' || c = ':' then !flow && !endsWord cs
    else !isSpacing c && !isIndicator c

/-- Whether a plain scalar ends in front of a character: at a comment, at a line that is not
indented by at least `least` or is a document marker, at a colon before spacing and, inside
brackets, at their marks. -/
def endsPlain (flow : Bool) (least : Nat) (spacing : List Char) (p : Place) (c : Char)
    (cs : List Char) : Bool :=
  c = '#' && !spacing.isEmpty ||
    spacing.any isBreak && !flow && p.column < least ||
    p.column = 0 && startsMarker (c :: cs) ||
    c = ':' && endsWord cs ||
    flow && isFlowMark c

/-- A plain scalar, whether a line ended after it, and the cursor at what follows it.

`spacing` is the spacing since the last other character.  No tab may indent a line by less than
`least` and, inside brackets, no colon may stand before one of their marks. -/
def plain (flow : Bool) (least : Nat) (spacing : List Char) (p : Place) :
    List Char → Option (List Char × Bool × Cursor)
  | [] => some ([], spacing.any isBreak, ⟨p, []⟩)
  | c :: cs =>
    if isSpacing c then
      if c = '\t' && spacing.any isBreak && p.column < least then none
      else plain flow least (spacing ++ [c]) (p.after c) cs
    else if endsPlain flow least spacing p c cs then
      some ([], spacing.any isBreak, ⟨p, c :: cs⟩)
    else if flow && c = ':' && (cs.head?.any fun d => isFlowMark d || d = '?') then none
    else do
      let (text, broken, cursor) ← plain flow least [] (p.after c) cs
      return (foldSpacing spacing ++ c :: text, broken, cursor)

/-! ## Block scalars -/

/-- What becomes of the line breaks at the end of a block scalar. -/
inductive Chomp where
  /-- The first is kept. -/
  | clip
  /-- None is kept. -/
  | strip
  /-- All are kept. -/
  | keep
deriving DecidableEq, Repr

/-- The mark for the line breaks at the end, if one stands here, and what follows it. -/
def chompMark : List Char → Option Chomp × List Char
  | '-' :: cs => (some .strip, cs)
  | '+' :: cs => (some .keep, cs)
  | cs => (none, cs)

/-- The mark for the indentation, zero if none stands here, and what follows it. -/
def indentMark : List Char → Option (Nat × List Char)
  | [] => some (0, [])
  | c :: cs =>
    if c = '0' then none
    else if c.isDigit then some (c.toNat - '0'.toNat, cs)
    else some (0, c :: cs)

/-- The marks behind the indicator of a block scalar, in either order,
and what follows them. -/
def blockMarks (cs : List Char) : Option (Chomp × Nat × List Char) := do
  let (before, cs) := chompMark cs
  let (indent, cs) ← indentMark cs
  match before with
  | some chomp => return (chomp, indent, cs)
  | none =>
    let (after, cs) := chompMark cs
    return (after.getD .clip, indent, cs)

/-- The greatest indentation up to the first line that holds more than spaces.  No tab
may follow the spaces. -/
def deepest (p : Place) : List Char → Option Nat
  | [] => some p.column
  | c :: cs =>
    if c = ' ' then deepest (p.after c) cs
    else if c = '\t' then none
    else if isBreak c then do return max p.column (← deepest (p.after c) cs)
    else some p.column

/-- A line of a block scalar and the breaks in front of it. -/
structure Row where
  /-- The breaks. -/
  breaks : List Char
  /-- The line without its indentation. -/
  text : List Char
deriving DecidableEq, Repr

/-- The lines of a block scalar, the breaks after the last, and the
cursor at what follows them.

`breaks` are the breaks since the last line, and `line` is what has been read of the present
one if its indentation is behind.  No tab may stand in the indentation. -/
def blockRows (indent : Nat) (breaks : List Char) (line : Option (List Char)) (p : Place) :
    List Char → Option (List Row × List Char × Cursor)
  | [] =>
    match line with
    | some text => some ([⟨breaks, text⟩], [], ⟨p, []⟩)
    | none => some ([], breaks, ⟨p, []⟩)
  | c :: cs =>
    match line with
    | some text =>
      if isBreak c then do
        let (rows, last, cursor) ← blockRows indent [c] none (p.after c) cs
        return (⟨breaks, text⟩ :: rows, last, cursor)
      else blockRows indent breaks (some (text ++ [c])) (p.after c) cs
    | none =>
      if p.column < indent && c = ' ' then blockRows indent breaks none (p.after c) cs
      else if p.column < indent && c = '\t' then none
      else if isBreak c then blockRows indent (breaks ++ [c]) none (p.after c) cs
      else if p.column = indent then blockRows indent breaks (some [c]) (p.after c) cs
      else some ([], breaks, ⟨p, c :: cs⟩)

/-- The breaks between two lines of a block scalar: folded, unless one of the
lines starts with a blank. -/
def joinRows (folded : Bool) (before after : List Char) (breaks : List Char) : List Char :=
  if folded && !before.head?.any isBlank && !after.head?.any isBlank then foldSpacing breaks
  else breaks

/-- The text of the lines after the first. -/
def laterRows (folded : Bool) : List Char → List Row → List Char
  | _, [] => []
  | before, row :: rows =>
    joinRows folded before row.text row.breaks ++ row.text ++ laterRows folded row.text rows

/-- The text of the lines of a block scalar. -/
def rowsText (folded : Bool) : List Row → List Char
  | [] => []
  | row :: rows => row.breaks ++ row.text ++ laterRows folded row.text rows

/-- What stays of the breaks after the last line of a block scalar. -/
def Chomp.ending (chomp : Chomp) (rows : List Row) (breaks : List Char) : List Char :=
  match chomp with
  | strip => []
  | keep => breaks
  | clip => if rows.isEmpty then [] else breaks.take 1

/-- A block scalar from after its indicator, in a block whose content is indented by at least
`least`. -/
def blockScalar (folded : Bool) (least : Nat) (c : Cursor) : Option (List Char × Cursor) := do
  let (chomp, increment, rest) ← blockMarks c.rest
  guard (endsLine rest)
  let ending := c.moveTo (rest.dropWhile (!isBreak ·))
  let body : Cursor :=
    match ending.rest with
    | [] => ending
    | b :: cs => ⟨ending.place.after b, cs⟩
  let indent ←
    if increment = 0 then do pure (max 1 (max least (← deepest body.place body.rest)))
    else pure (least - 1 + increment)
  let (rows, breaks, cursor) ← blockRows indent [] none body.place body.rest
  return (rowsText folded rows ++ chomp.ending rows breaks, cursor)

end PointerChannels.Yaml
