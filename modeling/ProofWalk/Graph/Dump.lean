import ProofWalk.Graph.ProofGraph
import ProofWalk.Json.Value
/-!
# Graph.Dump — a proof graph as text

Three views of the edges of the expanded states: one line that determines the graph, a tree of the walks from a
state, and a JSON document.  Implied edges are left out.

The line gives the numbers of states and edges, the names of the features in use, ascending and each once, and then
the edges, with their features by number in that list.  The tree is indented, a number of edges deep; a state that
occurs above on its own walk is marked and not followed, so `treeBelow` takes along the path that it came by.  The
export holds the states with their descriptions, whether they are completed and expanded, and the edges with their
features.
-/
namespace ProofWalk

namespace ProofGraph

variable {K : Type} [Scalar K] [Written K]

def usedFeatures (edges : List (Nat × Edge K)) : List String :=
  ((edges.flatMap fun e => e.2.features.keys).foldl (fun m name => m.insert name ())
    (∅ : SortedMap String Unit)).keys

def dumpEdge (table : Symbols) (e : Nat × Edge K) : String :=
  let features := e.2.features.toList.map fun f => toString ((table.find? f.1).getD 0) ++ "@" ++ Written.text f.2
  s!"\t{e.1}->{e.2.child}:" ++ Text.join "," features

/-- **The graph on one line**: the numbers of states and edges, the features in use, and the edges. -/
def dump : Op K String := do
  let edges ← allEdges
  let names := usedFeatures edges
  return s!"{(← GraphM.graph).size}\t{edges.length}\t" ++ Text.join ":" names ++
    String.join (edges.map (dumpEdge (.ofList names)))

def treeLine (g : ProofGraph K) (id level : Nat) (label : String) (cycle : Bool) : String :=
  let description := match g.state? id with
    | some s => s.describe g.machine.symbols
    | none => ""
  String.join (List.replicate level "  ") ++ s!"{id}: " ++ description ++ label ++
    (if cycle then "  (cycle)" else "") ++ "\n"

def treeBelow (path : List Nat) (level : Nat) : Nat → Nat → String → Op K String
  | 0, id, label => do return treeLine (← GraphM.graph) id level label (id ∈ path)
  | depth + 1, id, label => do
    let here := treeLine (← GraphM.graph) id level label (id ∈ path)
    if id ∈ path then return here
    else
      let edges ← outlinks id
      let below ← edges.mapM fun e =>
        treeBelow (path ++ [id]) (level + 1) depth e.child ("  " ++ describeFeatures e.features.toList)
      return here ++ String.join below

/-- **The walks from a state as an indented tree**, a number of edges deep.  A state that occurs above on its own
walk is marked and not followed. -/
def tree (depth root : Nat) : Op K String := do
  let g ← GraphM.graph
  match g.state? root with
  | none => throw (.graph (.unknownState root g.size))
  | some _ => treeBelow [] 0 depth root ""

structure NodeExport where
  id : Nat
  description : String
  completed : Bool
  expanded : Bool

/-- **A graph to be stored elsewhere.** -/
structure Export (K : Type) where
  query : String
  nodes : List NodeExport
  edges : List (Nat × Edge K)

omit [Written K] in
def toExport : Op K (Export K) := do
  let edges ← allEdges
  let g ← GraphM.graph
  let nodes := g.states.toList.zipIdx.map fun (f, id) =>
    ⟨id, f.state.describe g.machine.symbols, f.state.completed, g.isExpanded id⟩
  return ⟨g.machine.query.query.text, nodes, edges⟩

def Export.toJson (e : Export Float) : Json :=
  .object [("query", .string e.query),
    ("nodes", .array (e.nodes.map fun v => .object [("id", .nat v.id), ("description", .string v.description),
      ("completed", .bool v.completed), ("expanded", .bool v.expanded)])),
    ("edges", .array (e.edges.map fun (src, edge) => .object [("src", .nat src), ("dst", .nat edge.child),
      ("features",
        .object (edge.features.toList.map fun (name, x) => (name, .number (Json.numberText.render x))))]))]

end ProofGraph

end ProofWalk
