import PointerChannels.Yaml.Digit
import PointerChannels.Yaml.Text
import PointerChannels.Yaml.Token

/-!
# Anchors, tags and directives

An anchor names a node, an alias stands for a node by its name, and a tag says what kind of
thing a node is.  A tag is written as a handle and a suffix, or in full between angle
brackets.  Directives stand in front of a document; they give the version of the language
and the meaning of handles.
-/

namespace PointerChannels.Yaml

/-- The characters of names and handles. -/
def isNameChar (c : Char) : Bool := c.isAlphanum || c = '_' || c = '-'

/-! ## Anchors -/

/-- The name behind the mark of an anchor or an alias, and what follows it.  Only spacing and a
few marks may follow. -/
def anchorName? (cs : List Char) : Option (List Char × List Char) :=
  let name := cs.takeWhile isNameChar
  let rest := cs.dropWhile isNameChar
  let ended := endsWord rest ||
    rest.head?.any (['?', ':', ',', ']', '\x7d', '%', '@', '\x60'].contains ·)
  if !name.isEmpty && ended then some (name, rest) else none

/-! ## Tags -/

/-- The characters that stand for themselves in a tag; commas and square brackets only in one
that is written in full. -/
def isUriChar (full : Bool) (c : Char) : Bool :=
  isNameChar c ||
    [';', '/', '?', ':', '@', '&', '=', '+', '$', '.', '!', '~', '*', '\x27', '(',
      ')'].contains c ||
    full && [',', '[', ']'].contains c

/-- What the first octet of an encoded character says: the number of further octets and the
bits that it holds itself. -/
def leadOctet? (octet : Nat) : Option (Nat × Nat) :=
  if octet < 0x80 then some (0, octet)
  else if 0xC0 ≤ octet ∧ octet < 0xE0 then some (1, octet - 0xC0)
  else if 0xE0 ≤ octet ∧ octet < 0xF0 then some (2, octet - 0xE0)
  else if 0xF0 ≤ octet ∧ octet < 0xF8 then some (3, octet - 0xF0)
  else none

/-- What a further octet makes of the number of octets still to come and of the bits so far. -/
def nextOctet? (missing bits octet : Nat) : Option (Nat × Nat) :=
  if missing = 0 then leadOctet? octet
  else if octet / 64 = 2 then some (missing - 1, bits * 64 + octet % 64)
  else none

/-- The text of a tag, and what follows it.  A percent sign and two digits give an octet of a
character; of one that has begun, `missing` octets are still to come and `bits` are known.  The
first `taken` characters have been read. -/
def uri (full : Bool) (taken missing bits : Nat) : List Char → Option (List Char × List Char)
  | [] => if missing = 0 then some ([], []) else none
  | c :: cs =>
    match taken with
    | taken + 1 => uri full taken missing bits cs
    | 0 =>
      if c = '%' then
        if cs.length < 2 then none
        else do
          let octet ← digits? 16 (cs.take 2)
          let (missing, bits) ← nextOctet? missing bits octet
          let (text, rest) ← uri full 2 missing bits cs
          return (if missing = 0 then Char.ofNat bits :: text else text, rest)
      else if missing ≠ 0 then none
      else if isUriChar full c then do
        let (text, rest) ← uri full 0 0 0 cs
        return (c :: text, rest)
      else some ([], c :: cs)

/-- The text of a tag, of at least one character, and what follows it. -/
def uri? (full : Bool) (cs : List Char) : Option (List Char × List Char) :=
  (uri full 0 0 0 cs).filter fun (text, _) => !text.isEmpty

/-- The handle and the suffix of a tag from after its exclamation mark, and what
follows it.  A tag in full has the empty handle, and so has the exclamation mark alone,
which is its own suffix. -/
def tag? : List Char → Option (List Char × List Char × List Char)
  | '<' :: cs => do
    let (text, rest) ← uri? true cs
    match rest with
    | '>' :: rest => return ([], text, rest)
    | _ => none
  | cs =>
    let word := cs.takeWhile isNameChar
    match cs.dropWhile isNameChar with
    | '!' :: rest => do
      let (suffix, rest) ← uri? false rest
      return ('!' :: word ++ ['!'], suffix, rest)
    | rest => do
      let (more, rest) ← uri false 0 0 0 rest
      match word ++ more with
      | [] => return ([], ['!'], rest)
      | suffix => return (['!'], suffix, rest)

/-! ## Directives -/

/-- A number of a version, of at most nine digits, and what follows it. -/
def versionNumber? (cs : List Char) : Option (Nat × List Char) := do
  let number := cs.takeWhile Char.isDigit
  guard (number.length ≤ 9)
  return (← digits? 10 number, cs.dropWhile Char.isDigit)

/-- The directive for the version of the language, from after its name. -/
def versionDirective? (cs : List Char) : Option (Token × List Char) := do
  let (major, rest) ← versionNumber? (cs.dropWhile isBlank)
  match rest with
  | '.' :: rest =>
    let (minor, rest) ← versionNumber? rest
    return (.version major minor, rest)
  | _ => none

/-- The handle that a directive gives a meaning to, and what follows it: an exclamation mark,
or a word between two. -/
def handle? : List Char → Option (List Char × List Char)
  | '!' :: cs =>
    let word := cs.takeWhile isNameChar
    match cs.dropWhile isNameChar with
    | '!' :: rest => some ('!' :: word ++ ['!'], rest)
    | rest => if word.isEmpty then some (['!'], rest) else none
  | _ => none

/-- The directive for a tag handle, from after its name. -/
def handleDirective? (cs : List Char) : Option (Token × List Char) := do
  let (name, rest) ← handle? (cs.dropWhile isBlank)
  guard (rest.head?.any isBlank)
  let (text, rest) ← uri? true (rest.dropWhile isBlank)
  guard (endsWord rest)
  return (.handle (String.ofList name) (String.ofList text), rest)

/-- A directive from after its percent sign, and what follows it.  Nothing but a comment may
follow it on its line. -/
def directive? (cs : List Char) : Option (Token × List Char) := do
  let rest := cs.dropWhile isNameChar
  guard (endsWord rest)
  let (token, rest) ←
    match String.ofList (cs.takeWhile isNameChar) with
    | "YAML" => versionDirective? rest
    | "TAG" => handleDirective? rest
    | _ => none
  guard (endsLine rest)
  return (token, rest)

end PointerChannels.Yaml
