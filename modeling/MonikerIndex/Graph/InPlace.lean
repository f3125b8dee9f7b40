import MonikerIndex.Graph.Basic

/-!
# Graphs that are changed in place

A caller who hands over a graph to be changed has it back however a call ends. After an error it is
the graph as it was when the error came up, with whatever had been added by then. So it depends on
the order of the steps whether a refused edge leaves traces: the number is taken and the edge is
checked before anything is added.
-/

namespace MonikerIndex

/-- Work that changes a graph in place. An error leaves behind what has been added so far. -/
abbrev OnGraph := EStateM Error Graph

namespace OnGraph

/-- Goes on with the value of an outcome, or stops with its error. -/
def ofExcept {α : Type} : Except Error α → OnGraph α
  | .ok a => pure a
  | .error e => throw e

/-- Puts an element at the end of the graph, whatever its number. -/
def store (element : Element) : OnGraph Unit :=
  modify fun graph => ⟨graph.elements.push element⟩

/-- Adds a vertex, or an edge if it is acceptable. Returns the number. -/
def emit (payload : Payload) : OnGraph Nat := do
  let id := (← get).nextId
  match payload with
  | .vertex _ => pure ()
  | .edge connection => ofExcept (Graph.checkEdge id connection)
  store ⟨id, payload⟩
  return id

/-- Adds a vertex. Returns its number. -/
def emitVertex (vertex : Vertex) : OnGraph Nat := do
  let id := (← get).nextId
  store ⟨id, .vertex vertex⟩
  return id

/-- Adds an edge, if it is acceptable. Returns its number. -/
def emitEdge (edge : Edge) : OnGraph Nat :=
  emit (.edge edge)

end OnGraph

end MonikerIndex
