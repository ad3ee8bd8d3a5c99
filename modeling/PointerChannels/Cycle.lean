import PointerChannels.Pool
import PointerChannels.Visit

/-!
# Subset cycles

Entities on a cycle of subset edges have equal points-to sets in every solution, so their
classes may be merged.  The detector looks for a cycle only when it is told that an edge
`source → target` carried nothing new, and for every unordered pair of roots at most once.  It
then merges the roots on the walks from `target` back to `source`, both ends included.

The detector keeps no edges.  It works on any `CycleHost`: a graph that knows the successors of
a root, resolves entities to roots, and can merge two roots.  A host that may fail to look at a
root says so through `inspect`, which a search runs at every root it meets.
-/

namespace PointerChannels

/-- A graph of subset edges between the roots of a pool. -/
class CycleHost (σ : Type) where
  /-- A number above every entity. -/
  size : σ → Nat
  /-- The root of an entity's class. -/
  rootOf : σ → Nat → Nat
  /-- Entities whose points-to sets must include that of a root. -/
  successors : σ → Nat → IndexSet
  /-- What looking up the successors of a root, and their roots, can run into. -/
  inspect : σ → Nat → Except Fault Unit
  /-- Merge two different roots; the survivor comes first. -/
  unifyRoots : σ → Nat → Nat → Except Fault (Nat × σ)

namespace Cycle

variable {σ : Type} [CycleHost σ]

open CycleHost

/-- The roots one edge after a root, itself apart.  The search ends at `source`. -/
def next (host : σ) (source node : Nat) : List Nat :=
  if node = source then []
  else ((successors host node).toList.map (rootOf host)).filter (· ≠ node)

/-- The roots that a search from `target` meets. -/
def reached (host : σ) (source target : Nat) : List Nat :=
  visit (next host source) (size host) [target]

/-- The roots met by the search from `target` that are one edge before a root. -/
def previous (host : σ) (source target node : Nat) : List Nat :=
  (reached host source target).filter fun x => (next host source x).contains node

/-- The roots on the walks from `target` to `source`; none when there is no such walk. -/
def members (host : σ) (source target : Nat) : IndexSet :=
  if source ∈ reached host source target then
    .ofList (visit (previous host source target) (size host) [source])
  else
    .empty

/-- Merge roots into one, left to right. -/
def collapse (host : σ) (first : Nat) (rest : List Nat) : Except Fault (Nat × σ) :=
  rest.foldlM (fun (root, host) member => unifyRoots host root member) (first, host)

/-- The detector's memory: the pairs it has searched, and its counters. -/
structure Detector where
  /-- The pairs of roots searched so far, smaller root first. -/
  probed : List (Nat × Nat)
  /-- How many searches there were. -/
  attempts : Nat
  /-- How many of them found a cycle. -/
  cycles : Nat
  /-- How many pairs of roots were merged. -/
  unifications : Nat
deriving DecidableEq, Repr

/-- A detector that has searched nothing. -/
def Detector.start : Detector := ⟨[], 0, 0, 0⟩

/-- Tell the detector that the edge `source → target` carried nothing new.  When it collapses a
cycle, the surviving root comes first. -/
def Detector.probe (d : Detector) (host : σ) (source target : Nat) :
    Except Fault (Option Nat × Detector × σ) :=
  let source := rootOf host source
  let target := rootOf host target
  let pair := (Nat.min source target, Nat.max source target)
  if source = target ∨ d.probed.contains pair then
    .ok (none, d, host)
  else do
    let d := { d with probed := pair :: d.probed, attempts := d.attempts + 1 }
    (reached host source target).forM (inspect host)
    match (members host source target).toList with
    | [] => return (none, d, host)
    | first :: rest =>
      let (root, host) ← collapse host first rest
      let d := { d with cycles := d.cycles + 1, unifications := d.unifications + rest.length }
      return (some root, d, host)

end Cycle

/-! ## A plain host -/

/-- A pool with a set of successors per entity, and nothing else. -/
structure SubsetGraph where
  /-- The entities and their classes. -/
  pool : Pool
  /-- The successors of each entity. -/
  successors : Array IndexSet
deriving DecidableEq, Repr

namespace SubsetGraph

/-- Add registers to a pool without a capacity. -/
def pushRegisters : Nat → Pool → Pool
  | 0, pool => pool
  | n + 1, pool => pushRegisters n (pool.push .register s!"n{pool.size - 2}" .synthetic)

/-- The graph over `n` registers without edges.  Register `i` is entity `i + 2`. -/
def new (n : Nat) : SubsetGraph :=
  let pool := pushRegisters n (Pool.new 0 none)
  ⟨pool, Array.replicate pool.size .empty⟩

/-- The successors of an entity. -/
def successorsOf (g : SubsetGraph) (index : Nat) : IndexSet := g.successors[index]?.getD .empty

/-- Add an edge between the roots of two entities; tells whether it is new. -/
def addEdge (g : SubsetGraph) (source target : Handle) :
    Except Fault (Bool × SubsetGraph) := do
  let source ← g.pool.root source
  let target ← g.pool.root target
  return (!(g.successorsOf source).contains target,
    { g with successors := g.successors.modify source (·.insert target) })

/-- Merge two different roots; the survivor takes over the successors of the other. -/
def unifyRoots (g : SubsetGraph) (a b : Nat) : Except Fault (Nat × SubsetGraph) := do
  let (survivor, pool) ← g.pool.unify (g.pool.handle a) (g.pool.handle b)
  let loser := if survivor = a then b else a
  let moved := g.successorsOf loser
  let successors := (g.successors.modify loser fun _ => .empty).modify survivor (·.union moved)
  return (survivor, { pool, successors })

instance : CycleHost SubsetGraph where
  size g := g.pool.size
  rootOf g := g.pool.rootOf
  successors := successorsOf
  inspect _ _ := .ok ()
  unifyRoots := unifyRoots

/-- Tell the detector that the edge between two entities carried nothing new. -/
def probe (g : SubsetGraph) (d : Cycle.Detector) (source target : Handle) :
    Except Fault (Option Nat × Cycle.Detector × SubsetGraph) := do
  let source ← g.pool.root source
  let target ← g.pool.root target
  d.probe g source target

end SubsetGraph
end PointerChannels
