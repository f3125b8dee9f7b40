import MonikerIndex.Graph.Basic
import MonikerIndex.Alias.Publish
import MonikerIndex.Index.Occurrence

/-!
# Emitting documents and monikers

Documents come first, in the order of their paths. After its vertex, a document's occurrences
follow in order: for each a range and its edge to the result set of its record, and before the
range the result set itself where it is the record's first occurrence. An edge from the document to
all its ranges ends the document.

Then the monikers come, in the order of the result sets. Two public identifiers that are equal end
the run.
-/

namespace MonikerIndex

/-- What a run may choose. -/
structure IndexOptions where
  /-- The scheme of all monikers. -/
  scheme : String := "tsc"
  /-- The language of all documents. -/
  languageId : String := "typescript"
  /-- Stands for a text in the names of what is not public. -/
  digest : String → String := MonikerIndex.digest

/-! ### Documents -/

/-- The graph while documents are emitted. -/
structure Emission where
  graph : Graph
  /-- The records that have a result set, each with its vertex, in the order of emission. -/
  resultSets : List (Nat × Nat) := []
  deriving DecidableEq, Repr, Inhabited

namespace Emission

/-- The result set of a record. It is emitted where it is first needed. -/
def resultSet (state : Emission) (record : Nat) : Emission × Nat :=
  match state.resultSets.lookup record with
  | some vertex => (state, vertex)
  | none =>
      let (graph, vertex) := state.graph.emitVertex .resultSet
      (⟨graph, state.resultSets ++ [(record, vertex)]⟩, vertex)

/-- Emits the range of an occurrence. Returns the range's number. -/
def range (state : Emission) (occurrence : Occurrence) : Except Error (Emission × Nat) := do
  let (state, resultSet) := state.resultSet occurrence.record
  let (graph, vertex) := state.graph.emitVertex (.range occurrence.span occurrence.tag)
  let (graph, _) ← graph.emitEdge (.next vertex resultSet)
  return (⟨graph, state.resultSets⟩, vertex)

/-- Emits the ranges of several occurrences. -/
def ranges : Emission → List Occurrence → Except Error (Emission × List Nat)
  | state, [] => .ok (state, [])
  | state, occurrence :: occurrences => do
      let (state, vertex) ← state.range occurrence
      let (state, vertices) ← ranges state occurrences
      return (state, vertex :: vertices)

/-- Emits a document with its ranges. -/
def document (options : IndexOptions) (occurrences : List Occurrence) (state : Emission)
    (document : Document) : Except Error Emission := do
  let (graph, vertex) := state.graph.emitVertex
    (.document (.ofPath document.path) options.languageId document.actualKind)
  let (state, vertices) ←
    ranges ⟨graph, state.resultSets⟩ (Occurrence.inFile occurrences document.path)
  if vertices.isEmpty then return state
  let (graph, _) ← state.graph.emitEdge (.contains vertex vertices)
  return ⟨graph, state.resultSets⟩

end Emission

namespace Program

/-- The documents in the order of their paths. -/
def sortedDocuments (program : Program) : List Document :=
  sortBy (compareOn Document.path) program.documents

/-- Emits all documents. -/
def emitDocuments (program : Program) (options : IndexOptions) (occurrences : List Occurrence) :
    Except Error Emission :=
  program.sortedDocuments.foldlM (Emission.document options occurrences) { graph := .empty }

end Program

/-! ### Monikers -/

/-- The graph while monikers are emitted. -/
structure Labelling where
  graph : Graph
  /-- The canonical monikers so far, by record. -/
  canonical : List (Nat × Canonical) := []
  /-- The public identifiers so far. -/
  taken : List String := []
  deriving DecidableEq, Repr, Inhabited

namespace Labelling

/-- Emits an identity of the record that has the given result set. -/
def emit (state : Labelling) (scheme : String) (record resultSet : Nat) (identity : Identity) :
    Except Error Labelling :=
  if identity.kind = .exported ∧ identity.identifier ∈ state.taken then
    .error (.collision identity.identifier)
  else do
    let (graph, vertex) := state.graph.emitVertex (.moniker (identity.under scheme))
    let (graph, _) ← graph.emitEdge (.moniker resultSet vertex)
    return {
      graph := graph
      canonical := state.canonical ++ [(record, ⟨vertex, identity.identifier⟩)]
      taken :=
        if identity.kind = .exported then identity.identifier :: state.taken else state.taken }

/-- Emits the moniker of a record, if the record has an identity. -/
def label (scheme : String) (identity? : Nat → Option Identity) (state : Labelling) :
    Nat × Nat → Except Error Labelling
  | (record, resultSet) =>
      match identity? record with
      | none => .ok state
      | some identity => state.emit scheme record resultSet identity

end Labelling

/-- The identity of a record of the table. -/
def SymbolTable.identity? (table : SymbolTable) (naming : Naming) (id : Nat) : Option Identity := do
  let record ← table.record? id
  naming.identity? table record (table.visibility id)

/-- Emits the monikers of all result sets. -/
def Emission.label (state : Emission) (naming : Naming) (table : SymbolTable) (scheme : String) :
    Except Error Labelling :=
  state.resultSets.foldlM (Labelling.label scheme (table.identity? naming)) { graph := state.graph }

end MonikerIndex
