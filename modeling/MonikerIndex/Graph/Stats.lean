import MonikerIndex.Graph.Basic
import MonikerIndex.Json.Basic

/-!
# Counting elements

How many vertices and edges of each kind a graph has. Only the kinds that occur are listed, in the
order of their words.
-/

namespace MonikerIndex

/-- The counts of a graph. -/
structure GraphStats where
  vertices : List (String × Nat)
  edges : List (String × Nat)
  lastId : Nat
  deriving DecidableEq, Repr, Inhabited

namespace Graph

/-- The number of vertices of one kind. -/
def countVertices (graph : Graph) (label : VertexLabel) : Nat :=
  graph.elements.toList.countP fun element => element.vertex?.any (·.label == label)

/-- The number of edges of one kind. -/
def countEdges (graph : Graph) (label : EdgeLabel) : Nat :=
  graph.elements.toList.countP fun element => element.edge?.any (·.label == label)

/-- The counts of a graph. -/
def stats (graph : Graph) : GraphStats where
  vertices := (VertexLabel.all.map fun label => (label.word, graph.countVertices label)).filter
    fun entry => entry.2 != 0
  edges := (EdgeLabel.alphabetical.map fun label => (label.word, graph.countEdges label)).filter
    fun entry => entry.2 != 0
  lastId := graph.lastId

end Graph

namespace GraphStats

/-- The number of vertices with the given word. -/
def vertexCount (stats : GraphStats) (word : String) : Nat :=
  (stats.vertices.lookup word).getD 0

/-- The number of edges with the given word. -/
def edgeCount (stats : GraphStats) (word : String) : Nat :=
  (stats.edges.lookup word).getD 0

/-- The counts in words, a line for each. -/
def describe (stats : GraphStats) : String :=
  "Graph Statistics:\n" ++ s!"  Elements: {stats.lastId}\n"
    ++ String.join (stats.vertices.map fun (word, count) => s!"  {word} vertices: {count}\n")
    ++ String.join (stats.edges.map fun (word, count) => s!"  {word} edges: {count}\n")

/-- The written form of the counts. -/
def toJson (stats : GraphStats) : Json :=
  let counts (entries : List (String × Nat)) : Json :=
    .record (entries.map fun (word, count) => (word, .nat count))
  .record [("vertices", counts stats.vertices), ("edges", counts stats.edges),
    ("last_id", .nat stats.lastId)]

end GraphStats

end MonikerIndex
