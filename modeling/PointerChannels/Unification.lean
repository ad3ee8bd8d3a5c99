import PointerChannels.Constraint
import PointerChannels.Pool

/-!
# Solving by unification

The fast solver keeps one pointee class per class.  An assignment merges the two classes, a
load or a store makes the value's class the pointee class of the address, and merging two
classes merges their pointee classes too.  A class without a pointee class adopts the first one
it is given.  Touching a sentinel merges with it, which is sound and imprecise.

Which functions a call reaches depends on the classes, and binding a call merges classes, so
calls are resolved in rounds until a round binds nothing.  A round looks at the classes as
they were when it began.

As in the other solver, what is looked up by number is checked to be there first.
-/

namespace PointerChannels.Unification

/-- Counters of a run. -/
structure Stats where
  /-- Constraints taken in. -/
  constraints : Nat := 0
  /-- Pairs of classes merged. -/
  unions : Nat := 0
  /-- Call sites bound to a callee. -/
  callBindings : Nat := 0
  /-- Rounds of call resolution. -/
  rounds : Nat := 0
  /-- Classes at the end. -/
  classes : Nat := 0
deriving DecidableEq, Repr

/-- The state of a run. -/
structure State where
  /-- The entities and their classes. -/
  pool : Pool
  /-- For each root, an entity of its pointee class.  It is kept as given and resolved
  when it is next needed. -/
  pointee : Array (Option Handle)
  /-- The calls met so far: callee and operands. -/
  calls : Array (Handle × CallSite)
  /-- The calls bound so far, with the callee. -/
  bound : List (Nat × Nat)
  /-- The functions known to be called from outside. -/
  exposed : IndexSet
  /-- The counters. -/
  stats : Stats
deriving DecidableEq, Repr

namespace State

/-- A run that knows no constraint yet. -/
def start (pool : Pool) : State :=
  ⟨pool, Array.replicate pool.size none, #[], [], .empty, {}⟩

/-- The pointee class of a root. -/
def pointeeOf (s : State) (root : Nat) : Option Handle := s.pointee[root]?.join

/-- The handle of external memory. -/
def externalHandle (s : State) : Handle := s.pool.handle Pool.external

/-- Merge two different roots; the survivor keeps the first pointee class there is. -/
def mergeRoots (s : State) (a b : Nat) : Except Fault State := do
  checkIndex s.pointee a
  checkIndex s.pointee b
  let pointee := (s.pointeeOf a).or (s.pointeeOf b)
  let (survivor, pool) ← s.pool.unify (s.pool.handle a) (s.pool.handle b)
  checkIndex s.pointee survivor
  return { s with
    pool
    pointee := s.pointee.modify survivor fun _ => pointee
    stats := { s.stats with unions := s.stats.unions + 1 } }

/-- Merge the classes of two entities, then their pointee classes, and so on, at most `bound`
times. -/
def joinFor : Nat → State → Handle → Handle → Except Fault State
  | 0, s, _, _ => .ok s
  | bound + 1, s, x, y => do
    let a ← s.pool.root x
    let b ← s.pool.root y
    if a = b then return s
    let merged ← s.mergeRoots a b
    match s.pointeeOf a, s.pointeeOf b with
    | some px, some py => joinFor bound merged px py
    | _, _ => return merged

/-- Merge the classes of two entities, and their pointee classes as far as that goes.  Every
merge leaves one class fewer. -/
def join (s : State) (x y : Handle) : Except Fault State := joinFor (s.pool.size + 1) s x y

/-- Merge the classes of pairs of entities. -/
def joinAll (s : State) (pairs : List (Handle × Handle)) : Except Fault State :=
  pairs.foldlM (fun s (x, y) => s.join x y) s

/-- Let the class of `target` be the pointee class of a pointer. -/
def point (s : State) (pointer target : Handle) : Except Fault State := do
  let root ← s.pool.root pointer
  checkIndex s.pointee root
  match s.pointeeOf root with
  | none => return { s with pointee := s.pointee.modify root fun _ => some target }
  | some current => s.join current target

/-- Take in one constraint. -/
def addConstraint (s : State) (constraint : Constraint) : Except Fault State :=
  let s := { s with stats := { s.stats with constraints := s.stats.constraints + 1 } }
  match constraint with
  | .pointsTo pointer pointee => s.point pointer pointee
  | .superset superset subset => s.join superset subset
  | .load value address => s.point address value
  | .store address value => s.point address value
  | .call callee site => .ok { s with calls := s.calls.push (callee, site) }
  | .external pointer => s.join pointer s.externalHandle
  | .unknown pointer => s.join pointer (s.pool.handle Pool.unknown)
  | .escapes pointer => s.join s.externalHandle pointer

/-! ## Calls -/

/-- The pairs that bind a call site to a callee.  All operands of a callee without a signature
are external. -/
def callPairs (external : Handle) (site : CallSite) : Option Signature → List (Handle × Handle)
  | some signature =>
    paired signature.params site.arguments ++ paired site.results signature.results
  | none => (present (site.arguments ++ site.results)).map (external, ·)

/-- The pairs of a function that is called from outside. -/
def exposurePairs (external : Handle) : Option Signature → List (Handle × Handle)
  | some signature => (present (signature.params ++ signature.results)).map (external, ·)
  | none => []

/-- The memory objects of a class. -/
def objects (pool : Pool) (root : Nat) : List Nat :=
  (pool.members root).filter fun m => (pool.kindOf m).isMemoryObject

/-- The memory objects that a pointer's class points to, by the classes of `snapshot`. -/
def candidates (s : State) (snapshot : Pool) (pointer : Handle) : Except Fault (List Nat) := do
  let root ← s.pool.root pointer
  checkIndex s.pointee root
  match s.pointeeOf root with
  | none => return []
  | some target =>
    let target ← s.pool.root target
    (snapshot.members target).forM s.pool.check
    return objects snapshot target

/-- Bind a call site to a callee, once; tells whether it was new. -/
def bindCall (s : State) (call : Nat) (site : CallSite) (callee : Nat) :
    Except Fault (Bool × State) := do
  if (call, callee) ∈ s.bound then
    return (false, s)
  else
    s.pool.check callee
    let s := { s with
      bound := (call, callee) :: s.bound
      stats := { s.stats with callBindings := s.stats.callBindings + 1 } }
    let s ← s.joinAll (callPairs s.externalHandle site (s.pool.calleeSignature? callee))
    return (true, s)

/-- Let a function be called from outside, once; tells whether it was new. -/
def expose (s : State) (object : Nat) : Except Fault (Bool × State) := do
  s.pool.check object
  if s.pool.kindOf object ≠ .functionObject ∨ object ∈ s.exposed then
    return (false, s)
  else
    let s := { s with exposed := s.exposed.insert object }
    let s ← s.joinAll (exposurePairs s.externalHandle (s.pool.signature? object))
    return (true, s)

/-- Do something for each object; tells whether anything was new. -/
def each (objects : List Nat) (act : State → Nat → Except Fault (Bool × State)) (s : State) :
    Except Fault (Bool × State) :=
  objects.foldlM (fun (changed, s) object => do
    let (new, s) ← act s object
    return (changed || new, s)) (false, s)

/-- Bind one call to all it may reach. -/
def resolveCall (snapshot : Pool) (s : State) (call : Nat) : Except Fault (Bool × State) := do
  let (callee, site) ← entryAt s.calls call
  let found ← s.candidates snapshot callee
  each found (fun s object => s.bindCall call site object) s

/-- One round: bind every call, then expose what external memory points to. -/
def round (s : State) : Except Fault (Bool × State) := do
  let snapshot := s.pool
  snapshot.checkClasses
  let s := { s with stats := { s.stats with rounds := s.stats.rounds + 1 } }
  let (bound, s) ← each (List.range s.calls.size) (resolveCall snapshot) s
  let found ← s.candidates snapshot s.externalHandle
  let (exposed, s) ← each found expose s
  return (bound || exposed, s)

/-- Rounds until one changes nothing, at most `bound`. -/
def resolveFor : Nat → State → Except Fault State
  | 0, s => .ok s
  | bound + 1, s => do
    match ← s.round with
    | (true, s) => resolveFor bound s
    | (false, s) => return s

/-- Resolve the calls.  Every round but the last binds a call to a new callee or exposes a new
function. -/
def resolveCalls (s : State) : Except Fault State :=
  resolveFor (s.calls.size * s.pool.size + s.pool.size + 1) s

/-- Write out what the class of a root points to, by the classes of `s`. -/
def writeClass (s out : State) (root : Nat) : Except Fault State := do
  checkIndex s.pointee root
  match s.pointeeOf root with
  | none => return out
  | some target =>
    let target ← s.pool.root target
    (s.pool.members target).forM s.pool.check
    out.pool.checkRoot root
    return { out with pool := out.pool.store root (.ofList (objects s.pool target)) }

/-- Write out what each class points to. -/
def materialize (s : State) : Except Fault State := do
  s.pool.checkClasses
  (s.pool.indices.filter s.pool.isRoot).foldlM s.writeClass s

/-- The state in which call resolution begins.  Each sentinel points to itself. -/
def seed (pool : Pool) (constraints : List Constraint) : Except Fault State := do
  let s := start pool
  let s ← s.point (pool.handle Pool.unknown) (pool.handle Pool.unknown)
  let s ← s.point (pool.handle Pool.external) (pool.handle Pool.external)
  constraints.foldlM addConstraint s

end State

/-- Solve constraints over a pool. -/
def solve (pool : Pool) (constraints : List Constraint) : Except Fault (Pool × Stats) := do
  let s ← State.seed pool constraints
  let s ← s.resolveCalls
  let s ← s.materialize
  return (s.pool, { s.stats with classes := s.pool.rootCount })

end PointerChannels.Unification
