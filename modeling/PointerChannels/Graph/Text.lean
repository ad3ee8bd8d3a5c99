import PointerChannels.Graph.Basic

/-!
# Texts of a graph

`Graph.dot` writes a graph in the dot language: a record per node in dump order, each followed
by the node's edges in ascending order of target.  In a label a backslash and a quotation mark
are written with a backslash before them, and every other character as it is.

`Graph.summary` writes the counts of a graph.
-/

namespace PointerChannels.Graph

/-- The shape of a kind's nodes. -/
def Kind.shape : Kind → String
  | register => "oval"
  | _ => "box"

/-- Write a label so that it ends at its closing quotation mark. -/
def escapeLabel : List Char → List Char
  | [] => []
  | c :: rest =>
    if c = '\\' ∨ c = '"' then '\\' :: c :: escapeLabel rest else c :: escapeLabel rest

/-- The record of a node. -/
def nodeRecord (index : Nat) (n : Node) : String :=
  s!"  {index} [label = \"" ++ String.ofList (escapeLabel n.label.toList) ++
    "\", shape = \"" ++ n.kind.shape ++ "\"];\n"

/-- The line of an edge. -/
def edgeLine (source target : Nat) : String := s!"  {source} -> {target};\n"

/-- The record of a node and the lines of its edges. -/
def nodeEntry (index : Nat) (n : Node) : String :=
  nodeRecord index n ++ String.join (n.targets.toList.map (edgeLine index))

/-- The graph in the dot language. -/
def dot (g : Graph) : String :=
  "digraph PointsToGraph \x7b\n" ++
    String.join (g.dumpOrder.map fun i => (g.nodes[i]?.map (nodeEntry i)).getD "") ++ "\x7d\n"

/-- The counts of the graph, a line each. -/
def summary (g : Graph) : String :=
  let s := g.stats
  "PointsToGraph \x7b\n" ++
    s!"  registers: {s.registers}\n" ++
    s!"  allocas: {s.allocas}\n" ++
    s!"  mallocs: {s.mallocs}\n" ++
    s!"  allocators: {s.allocators}\n" ++
    s!"  imports: {s.imports}\n" ++
    s!"  edges: {s.edges}\n" ++
    s!"  escaped: {s.escaped}\n" ++ "\x7d\n"

end PointerChannels.Graph
