import PointerChannels.Constraint
import PointerChannels.Cycle

/-!
# Solving by inclusion

The precise solver keeps a points-to set per class and subset edges between
classes.  A worklist holds the roots whose set or obligations have changed.  Taking
a root off the worklist, it

* makes the edges that loads, stores and calls through the root ask for, now that more is known
  of what the root points to,
* makes the edges that a function needs once external memory points to it, and
* lets what the root points to flow along its edges.

It ends when the worklist is empty.  Unknown and external memory are entities like others: each
points to itself and is loaded from and stored through itself, so that what is stored into
escaped memory escapes, and what is loaded from it may be external.  A function holds no
addresses, so loads and stores through it are skipped.

With difference propagation only what a root has come to point to since it was last taken
flows; a new edge then carries the whole set once.  With cycle collapse an edge that carried
nothing new is shown to the cycle detector.

The order in which the members of a set are taken is a parameter of a run, `SetOrder`.  The
answer does not depend on it, and some counters do.

An operation that looks something up by number first checks that it is there, and that what
must be a root or a memory object is one; the change itself is a total function of the state.
-/

namespace PointerChannels.Inclusion

/-- Which end of the worklist is taken. -/
inductive Discipline where
  /-- The root that has waited longest. -/
  | fifo
  /-- The root that came last. -/
  | lifo
deriving DecidableEq, Repr

/-- The strategy of a run. -/
structure Settings where
  /-- Collapse subset cycles. -/
  cycles : Bool
  /-- Which end of the worklist is taken. -/
  discipline : Discipline
  /-- Let only new pointees flow. -/
  differences : Bool
deriving DecidableEq, Repr

/-- The order in which the members of a set are taken.  It may be another one at every tick of
the run, but never loses or repeats a member. -/
structure SetOrder where
  /-- The members in the order they are taken. -/
  arrange : Nat → List Nat → List Nat
  /-- Every member is taken once. -/
  arrange_perm : ∀ tick xs, (arrange tick xs).Perm xs

/-- Take the members of every set in ascending order. -/
def SetOrder.ascending : SetOrder := ⟨fun _ xs => xs, fun _ xs => List.Perm.refl xs⟩

theorem SetOrder.mem_arrange {order : SetOrder} {tick x : Nat} {set : IndexSet} :
    x ∈ order.arrange tick set.toList ↔ x ∈ set :=
  (order.arrange_perm tick set.toList).mem_iff.trans IndexSet.mem_toList

/-- Counters of a run. -/
structure Stats where
  /-- Constraints given. -/
  constraints : Nat := 0
  /-- Roots taken off the worklist. -/
  iterations : Nat := 0
  /-- Flows that told the target something new. -/
  propagations : Nat := 0
  /-- Distinct subset edges made. -/
  edges : Nat := 0
  /-- Call sites bound to a callee. -/
  callsBound : Nat := 0
  /-- Functions that external memory points to. -/
  escapedFunctions : Nat := 0
  /-- Cycle searches. -/
  cycleAttempts : Nat := 0
  /-- Cycle searches that found a cycle. -/
  cyclesDetected : Nat := 0
  /-- Pairs of roots merged. -/
  cycleUnifications : Nat := 0
deriving DecidableEq, Repr

/-- What a root is asked for. -/
structure Links where
  /-- Entities that must point to all the root points to. -/
  supersets : IndexSet := .empty
  /-- Entities read through the root. -/
  loads : List Handle := []
  /-- Entities written through the root. -/
  stores : List Handle := []
  /-- Call sites that call the root. -/
  calls : List Nat := []
  /-- Pointees that have not flowed yet. -/
  fresh : IndexSet := .empty
deriving DecidableEq, Repr

/-- A call site and the pointees of its callee that it has been bound to. -/
structure BoundCall where
  /-- The operands. -/
  site : CallSite
  /-- The pointees bound so far. -/
  bound : IndexSet
deriving DecidableEq, Repr

/-- The state of a run. -/
structure State where
  /-- The strategy. -/
  settings : Settings
  /-- The entities, their classes and what they point to. -/
  pool : Pool
  /-- What each root is asked for. -/
  links : Array Links
  /-- The call sites met so far. -/
  calls : Array BoundCall
  /-- The roots that wait, longest first; none twice. -/
  queue : List Nat
  /-- The cycle detector. -/
  detector : Cycle.Detector
  /-- The functions known to be called from outside. -/
  exposed : IndexSet
  /-- The counters. -/
  stats : Stats
deriving DecidableEq, Repr

namespace State

/-- A run that knows no constraint yet. -/
def start (settings : Settings) (pool : Pool) : State where
  settings := settings
  pool := pool
  links := Array.replicate pool.size {}
  calls := #[]
  queue := []
  detector := .start
  exposed := .empty
  stats := {}

/-- What a root is asked for. -/
def linksAt (s : State) (root : Nat) : Links := s.links[root]?.getD {}

/-- Change what a root is asked for. -/
def modifyLinks (s : State) (root : Nat) (change : Links → Links) : State :=
  { s with links := s.links.modify root change }

/-- Let a root wait, unless it does. -/
def push (s : State) (root : Nat) : State :=
  if root ∈ s.queue then s else { s with queue := s.queue ++ [root] }

/-! ## Growing sets and making edges -/

/-- What letting a root point to objects needs: the root is one, the objects are memory
objects, and there is a place to note those that are new. -/
def checkPointees (s : State) (root : Nat) (objects : List Nat) : Except Fault Unit :=
  objects.forM fun object => do
    s.pool.checkRoot root
    let _ ← s.pool.resolveObject (s.pool.handle object)
    if s.settings.differences ∧ object ∉ s.pool.stored root then checkIndex s.links root

/-- Let a root point to objects; tells whether any is new. -/
def insertPointees (s : State) (root : Nat) (objects : List Nat) : Bool × State :=
  if objects.all (s.pool.stored root).contains then
    (false, s)
  else
    let added := objects.filter fun o => !(s.pool.stored root).contains o
    let grown := { s with pool := s.pool.grow root added }
    if s.settings.differences then
      (true, grown.modifyLinks root fun l => { l with fresh := l.fresh.insertAll added })
    else
      (true, grown)

/-- Note that something new flowed into a root. -/
def noteGrowth (s : State) (root : Nat) : State :=
  { s with stats := { s.stats with propagations := s.stats.propagations + 1 } }.push root

/-- Make an edge between two roots: the first must point to all the second points to. -/
def link (s : State) (superset subset : Nat) : State :=
  if superset = subset ∨ superset ∈ (s.linksAt subset).supersets then
    s
  else
    let s := s.modifyLinks subset fun l => { l with supersets := l.supersets.insert superset }
    let s := { s with stats := { s.stats with edges := s.stats.edges + 1 } }
    if s.settings.differences then
      match s.insertPointees superset (s.pool.stored subset).toList with
      | (true, s) => s.noteGrowth superset
      | (false, s) => s
    else
      s.push subset

/-- What an edge between two roots needs: a place for it, and, if it is new and carries what
there is at once, that the one may point to all the other points to. -/
def checkLink (s : State) (superset subset : Nat) : Except Fault Unit := do
  if superset ≠ subset then
    checkIndex s.links subset
    if s.settings.differences ∧ superset ∉ (s.linksAt subset).supersets then
      let pointees ← s.pool.pointsToOfRoot (s.pool.handle subset)
      s.checkPointees superset pointees.toList

/-- Make an edge between the roots of two entities. -/
def addEdge (s : State) (superset subset : Handle) : Except Fault State := do
  let superset ← s.pool.root superset
  let subset ← s.pool.root subset
  s.checkLink superset subset
  return s.link superset subset

/-- Make edges, each from its superset and its subset. -/
def addEdges (s : State) (edges : List (Handle × Handle)) : Except Fault State :=
  edges.foldlM (fun s (superset, subset) => s.addEdge superset subset) s

/-! ## Calls -/

/-- The edges that bind a call site to a callee.  A callee without a signature lies outside:
what it is passed escapes and what it returns is external. -/
def callEdges (external : Handle) (site : CallSite) : Option Signature → List (Handle × Handle)
  | some signature =>
    paired signature.params site.arguments ++ paired site.results signature.results
  | none =>
    (present site.arguments).map (external, ·) ++ (present site.results).map (·, external)

/-- The edges of a function that is called from outside. -/
def exposureEdges (external : Handle) : Option Signature → List (Handle × Handle)
  | some signature =>
    (present signature.params).map (·, external) ++
      (present signature.results).map (external, ·)
  | none => []

/-- The handle of external memory. -/
def externalHandle (s : State) : Handle := s.pool.handle Pool.external

/-- Bind a call site to a callee, once. -/
def bindCall (s : State) (call callee : Nat) : Except Fault State := do
  let entry ← entryAt s.calls call
  if callee ∈ entry.bound then
    return s
  else
    s.pool.check callee
    let s := { s with
      calls := s.calls.modify call fun c => { c with bound := c.bound.insert callee }
      stats := { s.stats with callsBound := s.stats.callsBound + 1 } }
    s.addEdges (callEdges s.externalHandle entry.site (s.pool.calleeSignature? callee))

/-- Let a function be called from outside, once. -/
def expose (s : State) (object : Nat) : Except Fault State := do
  s.pool.check object
  if s.pool.kindOf object ≠ .functionObject ∨ object ∈ s.exposed then
    return s
  else
    let s := { s with
      exposed := s.exposed.insert object
      stats := { s.stats with escapedFunctions := s.stats.escapedFunctions + 1 } }
    s.addEdges (exposureEdges s.externalHandle (s.pool.signature? object))

/-! ## Taking a root -/

/-- Meet the loads, stores and calls through a root for the given pointees. -/
def conditionals (s : State) (root : Nat) (pointees : List Nat) : Except Fault State := do
  pointees.forM s.pool.check
  checkIndex s.links root
  let data := pointees.filter fun o => s.pool.kindOf o ≠ .functionObject
  let links := s.linksAt root
  let s ← links.stores.foldlM (fun s value =>
    s.addEdges (data.map fun o => (s.pool.handle o, value))) s
  let s ← links.loads.foldlM (fun s value =>
    s.addEdges (data.map fun o => (value, s.pool.handle o))) s
  let s ← links.calls.foldlM (fun s call =>
    pointees.foldlM (fun s callee => s.bindCall call callee) s) s
  let external ← s.pool.root s.externalHandle
  if external = root then
    pointees.foldlM (fun s object => s.expose object) s
  else
    return s

/-- What a flow along one edge needs: with difference propagation that the target may point to
the pointees, without it that both ends are roots. -/
def checkFlow (s : State) (root target : Nat) (pointees : List Nat) : Except Fault Unit :=
  if s.settings.differences then
    s.checkPointees target pointees
  else do
    s.pool.checkRoot target
    s.pool.checkRoot root

/-- Let a root's pointees flow along one edge; tells whether the target learnt anything. -/
def flow (s : State) (root target : Nat) (pointees : List Nat) : Bool × State :=
  s.insertPointees target
    (if s.settings.differences then pointees else (s.pool.stored root).toList)

/-- What taking over what another root was asked for needs: places for both, and, where all the
survivor points to is to be new again, that it is a root. -/
def checkMerged (s : State) (pool : Pool) (loser survivor : Nat) : Except Fault Unit := do
  checkIndex s.links loser
  checkIndex s.links survivor
  if s.settings.differences then pool.checkRoot survivor

/-- Merge two different roots; the survivor takes over what the other was asked for, and all it
points to is new again. -/
def unifyRoots (s : State) (a b : Nat) : Except Fault (Nat × State) := do
  let (survivor, pool) ← s.pool.unify (s.pool.handle a) (s.pool.handle b)
  let loser := if survivor = a then b else a
  s.checkMerged pool loser survivor
  let moved := s.linksAt loser
  let s := { s with pool }
  let s := s.modifyLinks loser fun _ => {}
  let s := s.modifyLinks survivor fun l => {
    supersets := (l.supersets.union moved.supersets).erase survivor
    loads := l.loads ++ moved.loads
    stores := l.stores ++ moved.stores
    calls := l.calls ++ moved.calls
    fresh := if s.settings.differences then s.pool.stored survivor else l.fresh }
  return (survivor, s.push survivor)

instance : CycleHost State where
  size s := s.pool.size
  rootOf s := s.pool.rootOf
  successors s root := (s.linksAt root).supersets
  inspect s root := do
    checkIndex s.links root
    (s.linksAt root).supersets.toList.forM fun successor => do
      let _ ← s.pool.root (s.pool.handle successor)
  unifyRoots := unifyRoots

/-- Show the detector an edge that carried nothing new; tells whether a cycle was collapsed. -/
def probe (s : State) (source target : Nat) : Except Fault (Bool × State) := do
  s.pool.check source
  s.pool.check target
  let (survivor, detector, s) ← s.detector.probe s source target
  return (survivor.isSome, { s with detector })

/-- Let a root's pointees flow along its edges, until a cycle through the root is collapsed. -/
def flowAll (root : Nat) (pointees : List Nat) : List Nat → State → Except Fault State
  | [], s => .ok s
  | successor :: rest, s => do
    let target ← s.pool.root (s.pool.handle successor)
    if target = root then
      flowAll root pointees rest s
    else
      s.checkFlow root target pointees
      match s.flow root target pointees with
      | (true, s) => flowAll root pointees rest (s.noteGrowth target)
      | (false, s) =>
        if pointees.isEmpty ∨ ¬ s.settings.cycles then
          flowAll root pointees rest s
        else
          match ← s.probe root target with
          | (true, s) => return s
          | (false, s) => flowAll root pointees rest s

/-- What is to flow from a root: with difference propagation what has not flowed yet, without
it all the root points to. -/
def waiting (s : State) (root : Nat) : IndexSet :=
  if s.settings.differences then (s.linksAt root).fresh else s.pool.stored root

/-- What taking a root needs: a place that holds what has not flowed yet,
or that it is a root. -/
def checkTaken (s : State) (root : Nat) : Except Fault Unit :=
  if s.settings.differences then checkIndex s.links root else s.pool.checkRoot root

/-- Do all that a root asks for. -/
def process (order : SetOrder) (s : State) (root : Nat) : Except Fault State := do
  let tick := 2 * s.stats.iterations
  s.checkTaken root
  let pointees := order.arrange tick (s.waiting root).toList
  let s :=
    if s.settings.differences then s.modifyLinks root ({ · with fresh := .empty }) else s
  let s ← if pointees.isEmpty then pure s else s.conditionals root pointees
  checkIndex s.links root
  flowAll root pointees (order.arrange (tick + 1) (s.linksAt root).supersets.toList) s

/-! ## The worklist -/

/-- Take a root off the worklist. -/
def pop? (discipline : Discipline) (queue : List Nat) : Option (Nat × List Nat) :=
  match discipline with
  | .fifo => queue.head?.map (·, queue.tail)
  | .lifo => queue.getLast?.map (·, queue.dropLast)

/-- Take one root off the worklist and do all it asks for.  Nothing waits: nothing changes. -/
def step (order : SetOrder) (s : State) : Except Fault State :=
  match pop? s.settings.discipline s.queue with
  | none => .ok s
  | some (next, queue) => do
    let root ← s.pool.root (s.pool.handle next)
    let stats := { s.stats with iterations := s.stats.iterations + 1 }
    { s with queue, stats }.process order root

/-- Take roots off the worklist until it is empty, at most `bound` times. -/
def propagate (order : SetOrder) : Nat → State → Except Fault State
  | 0, s => .ok s
  | bound + 1, s =>
    if s.queue.isEmpty then .ok s
    else do
      let s ← s.step order
      propagate order bound s

/-! ## Constraints -/

/-- Seed a sentinel: it points to itself and is loaded from and stored through itself. -/
def seedSentinel (s : State) (sentinel : Nat) : Except Fault State := do
  let root ← s.pool.root (s.pool.handle sentinel)
  s.checkPointees root [sentinel]
  checkIndex s.links root
  let (_, s) := s.insertPointees root [sentinel]
  let self := s.pool.handle sentinel
  return (s.modifyLinks root fun l =>
    { l with loads := l.loads ++ [self], stores := l.stores ++ [self] }).push root

/-- Take in one constraint. -/
def addConstraint (s : State) : Constraint → Except Fault State
  | .pointsTo pointer pointee => do
    let root ← s.pool.root pointer
    let object ← s.pool.resolveObject pointee
    s.checkPointees root [object]
    match s.insertPointees root [object] with
    | (true, s) => return s.push root
    | (false, s) => return s
  | .superset superset subset => s.addEdge superset subset
  | .load value address => do
    let root ← s.pool.root address
    checkIndex s.links root
    return (s.modifyLinks root fun l => { l with loads := l.loads ++ [value] }).push root
  | .store address value => do
    let root ← s.pool.root address
    checkIndex s.links root
    return (s.modifyLinks root fun l => { l with stores := l.stores ++ [value] }).push root
  | .call callee site => do
    let root ← s.pool.root callee
    checkIndex s.links root
    let call := s.calls.size
    let s := s.modifyLinks root fun l => { l with calls := l.calls ++ [call] }
    return { s with calls := s.calls.push ⟨site, .empty⟩ }.push root
  | .external pointer => s.addEdge pointer s.externalHandle
  | .unknown pointer => s.addEdge pointer (s.pool.handle Pool.unknown)
  | .escapes pointer => s.addEdge s.externalHandle pointer

/-- The state in which propagation begins. -/
def seed (settings : Settings) (pool : Pool) (constraints : List Constraint) :
    Except Fault State := do
  let s := start settings pool
  let s := { s with stats := { s.stats with constraints := constraints.length } }
  let s ← s.seedSentinel Pool.unknown
  let s ← s.seedSentinel Pool.external
  constraints.foldlM addConstraint s

/-- The counters, those of the detector included. -/
def report (s : State) : Stats :=
  { s.stats with
    cycleAttempts := s.detector.attempts
    cyclesDetected := s.detector.cycles
    cycleUnifications := s.detector.unifications }

end State

/-- More roots than a run over `entities` entities and `constraints` constraints can take
off its worklist: a root waits because a constraint named it, because one of at most
`n * n` edges is new, because one of at most `n` sets of at most `n` members grew, or
because it survived a merge. -/
def popBound (entities constraints : Nat) : Nat :=
  2 * entities * entities + entities + constraints + 3

/-- Solve constraints over a pool. -/
def solve (settings : Settings) (order : SetOrder) (pool : Pool)
    (constraints : List Constraint) : Except Fault (Pool × Stats) := do
  let s ← State.seed settings pool constraints
  let s ← s.propagate order (popBound pool.size constraints.length)
  return (s.pool, s.report)

end PointerChannels.Inclusion
