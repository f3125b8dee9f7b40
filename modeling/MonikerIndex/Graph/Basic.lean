import MonikerIndex.Graph.Element

/-!
# Graphs

A graph grows at its end only. Every element gets the next number, so the element numbered `id` is
the one at place `id - 1`. An edge is accepted only if it leads somewhere and connects nothing but
earlier elements; when one is refused the graph stays as it is.
-/

namespace MonikerIndex

/-- The elements emitted so far, in the order of their numbers. -/
structure Graph where
  elements : Array Element := #[]
  deriving DecidableEq, Repr, Inhabited

namespace Graph

/-- The graph without elements. -/
def empty : Graph := {}

/-- The number of the last element; zero if there is none. -/
def lastId (graph : Graph) : Nat :=
  graph.elements.size

/-- The number of the next element. -/
def nextId (graph : Graph) : Nat :=
  graph.lastId + 1

/-- Adds an element under the next number. -/
def push (graph : Graph) (payload : Payload) : Graph :=
  ⟨graph.elements.push ⟨graph.nextId, payload⟩⟩

/-- Whether an endpoint of the edge numbered `id` does not stand before it. -/
def isAhead (id endpoint : Nat) : Bool :=
  endpoint == 0 || id ≤ endpoint

/-- Checks an edge that is to get the number `id`. -/
def checkEdge (id : Nat) (edge : Edge) : Except Error Unit :=
  if edge.allTargets.isEmpty then .error (.edgeWithoutTarget edge.label.word id)
  else
    match edge.endpoints.find? (isAhead id) with
    | some endpoint => .error (.edgeAhead edge.label.word id endpoint)
    | none => .ok ()

/-- Adds a vertex. Returns the graph and the vertex's number. -/
def emitVertex (graph : Graph) (vertex : Vertex) : Graph × Nat :=
  (graph.push (.vertex vertex), graph.nextId)

/-- Adds an edge, if it is acceptable. Returns the graph and the edge's number. -/
def emitEdge (graph : Graph) (edge : Edge) : Except Error (Graph × Nat) := do
  checkEdge graph.nextId edge
  return (graph.push (.edge edge), graph.nextId)

/-- Adds a vertex or an edge. -/
def emit (graph : Graph) : Payload → Except Error (Graph × Nat)
  | .vertex node => .ok (graph.emitVertex node)
  | .edge connection => graph.emitEdge connection

/-- The element with the given number. -/
def get? (graph : Graph) (id : Nat) : Option Element :=
  if id = 0 then none else graph.elements[id - 1]?

/-- All edges of one kind, with their numbers. -/
def edges (graph : Graph) (label : EdgeLabel) : List (Nat × Edge) :=
  graph.elements.toList.filterMap fun element =>
    (element.edge?.filter (·.label == label)).map fun edge => (element.id, edge)

/-- All monikers, with their numbers. -/
def monikers (graph : Graph) : List (Nat × Moniker) :=
  graph.elements.toList.filterMap fun element =>
    element.moniker?.map fun name => (element.id, name)

end Graph

end MonikerIndex
