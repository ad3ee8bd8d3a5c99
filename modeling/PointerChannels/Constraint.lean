import PointerChannels.Entity

/-!
# Constraints

Constraints say what points where.  Writing `⟦x⟧` for what `x` points to, `U` for unknown and
`E` for external memory:

* `pointsTo p o`: `o ∈ ⟦p⟧`
* `superset a b`: `⟦b⟧ ⊆ ⟦a⟧`
* `load v a`: `⟦o⟧ ⊆ ⟦v⟧` for every `o ∈ ⟦a⟧`
* `store a v`: `⟦v⟧ ⊆ ⟦o⟧` for every `o ∈ ⟦a⟧`
* `call f args results`: arguments and results are bound to every function in `⟦f⟧`
* `external p`, `unknown p`: `⟦E⟧ ⊆ ⟦p⟧`, `⟦U⟧ ⊆ ⟦p⟧`
* `escapes p`: `⟦p⟧ ⊆ ⟦E⟧`
-/

namespace PointerChannels

/-- The entities of operand positions that have one. -/
def present (operands : List (Option Handle)) : List Handle := operands.filterMap id

/-- The positions at which both lists have an entity, paired. -/
def paired (xs ys : List (Option Handle)) : List (Handle × Handle) :=
  (xs.zip ys).filterMap fun
    | (some x, some y) => some (x, y)
    | _ => none

/-- What a call site passes and receives; positions that hold no address have no entity. -/
structure CallSite where
  /-- The entities passed. -/
  arguments : List (Option Handle)
  /-- The entities received. -/
  results : List (Option Handle)
deriving DecidableEq, Repr

/-- A statement about what points where. -/
inductive Constraint where
  /-- The pointer points to the object. -/
  | pointsTo (pointer pointee : Handle)
  /-- One entity points to all that another points to. -/
  | superset (superset subset : Handle)
  /-- The value is read through the address. -/
  | load (value address : Handle)
  /-- The value is written through the address. -/
  | store (address value : Handle)
  /-- The callee is called. -/
  | call (callee : Handle) (site : CallSite)
  /-- The pointer may hold any external address. -/
  | external (pointer : Handle)
  /-- The pointer may hold any unknown address. -/
  | unknown (pointer : Handle)
  /-- What the pointer holds becomes known outside. -/
  | escapes (pointer : Handle)
deriving DecidableEq, Repr

namespace Constraint

/-- The forms of constraints. -/
inductive Form where
  | pointsTo | superset | load | store | call | external | unknown | escapes
deriving DecidableEq, Repr

/-- The name of a form. -/
def Form.name : Form → String
  | pointsTo => "POINTS_TO"
  | superset => "SUPERSET"
  | load => "LOAD"
  | store => "STORE"
  | call => "CALL"
  | external => "EXTERNAL"
  | unknown => "UNKNOWN"
  | escapes => "ESCAPES"

/-- The form of a constraint. -/
def form : Constraint → Form
  | pointsTo .. => .pointsTo
  | superset .. => .superset
  | load .. => .load
  | store .. => .store
  | call .. => .call
  | external .. => .external
  | unknown .. => .unknown
  | escapes .. => .escapes

/-- How many constraints of a list have a form. -/
def count (constraints : List Constraint) (form : Form) : Nat :=
  constraints.countP (·.form = form)

end Constraint
end PointerChannels
