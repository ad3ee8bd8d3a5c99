/-!
# Structured data

Programs are handed over as trees of lists, records and named variants.  A tree keeps of a
datum only what a reader of programs can ask for; data that no program holds, such as truth
values and numbers that are not natural, are all alike.
-/

namespace PointerChannels

/-- A piece of structured data. -/
inductive Tree where
  /-- No datum. -/
  | null
  /-- A natural number. -/
  | number (value : Nat)
  /-- A text. -/
  | text (content : String)
  /-- A list. -/
  | list (items : List Tree)
  /-- A record of named fields. -/
  | record (fields : List (String × Tree))
  /-- A datum of any other kind. -/
  | other
deriving Repr, Inhabited

namespace Tree

/-! ## Reading -/

/-- The number of a tree, if it is one below `limit`. -/
def number? (limit : Nat) : Tree → Option Nat
  | number n => if n < limit then some n else none
  | _ => none

/-- The number of a value, an operation, a function or a channel. -/
def id? : Tree → Option Nat := number? (Nat.pow 2 32)

/-- A position. -/
def index? : Tree → Option Nat := number? (Nat.pow 2 64)

/-- The text of a tree. -/
def text? : Tree → Option String
  | text s => some s
  | _ => none

/-- A list of what can be read one by one. -/
def list? {α : Type} (read : Tree → Option α) : Tree → Option (List α)
  | list items => items.mapM read
  | _ => none

/-- The fields of the given names.  A record may have further ones; a list stands for the
record of its items, in the order of the names. -/
def fields? (names : List String) : Tree → Option (List Tree)
  | record fields => names.mapM (List.lookup · fields)
  | list items => if items.length = names.length then some items else none
  | _ => none

/-- A variant's name and content: a record of one field.  A variant without content may be
given by its bare name. -/
def variant? : Tree → Option (String × Tree)
  | text name => some (name, null)
  | record [(name, content)] => some (name, content)
  | _ => none

/-- The value of a variant without content. -/
def named? {α : Type} (title : α → String) (all : List α) (t : Tree) : Option α :=
  match t.variant? with
  | some (name, null) => all.find? (title · = name)
  | _ => none

/-! ## Writing -/

/-- A list of numbers. -/
def numbers (ns : List Nat) : Tree := list (ns.map number)

/-- A variant with content. -/
def variant (name : String) (content : Tree) : Tree := record [(name, content)]

end Tree
end PointerChannels
