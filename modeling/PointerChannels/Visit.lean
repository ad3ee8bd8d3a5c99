import PointerChannels.IndexSet

/-!
# Breadth-first visits

Three questions of this library are reachability questions: which memory escapes, which memory
a call can reach, and which roots lie on a subset cycle.  They share one search.

`visit next bound start` lists the indices reached from `start` through `next`, each once, in
breadth-first order.  At most `bound` indices are visited, so it is complete whenever every
index that can be reached lies below `bound`.
-/

namespace PointerChannels

/-- Continue a breadth-first visit: `seen` has been visited, in order, and `queue` waits.
Each step visits the first waiting index that is new. -/
def visitFrom (next : Nat → List Nat) : Nat → List Nat → List Nat → List Nat
  | 0, seen, _ => seen
  | steps + 1, seen, queue =>
    match queue.dropWhile (seen.contains ·) with
    | [] => seen
    | x :: rest => visitFrom next steps (seen ++ [x]) (rest ++ next x)

/-- The indices reached from `start` through `next`, in breadth-first order. -/
def visit (next : Nat → List Nat) (bound : Nat) (start : List Nat) : List Nat :=
  visitFrom next bound [] start

end PointerChannels
