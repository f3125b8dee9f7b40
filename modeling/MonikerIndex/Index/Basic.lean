import MonikerIndex.Alias.Remark
import MonikerIndex.Index.Emission

/-!
# Indexing a program

A run merges the reported symbols, finds all occurrences, and emits documents, monikers and alias
monikers into one graph. It gives a graph only if every step succeeds.
-/

namespace MonikerIndex

/-- The outcome of a run. -/
structure Index where
  graph : Graph
  aliasStats : AliasStats
  deriving DecidableEq, Repr, Inhabited

namespace Program

/-- Checks that no two documents have the same path. -/
def checkDocuments : List String → List Document → Except Error Unit
  | _, [] => .ok ()
  | seen, document :: documents =>
      if seen.contains document.path then .error (.documentTwice document.path)
      else checkDocuments (document.path :: seen) documents

/-- How the records of a program are named. -/
def naming (program : Program) (options : IndexOptions) : Naming :=
  ⟨program.root, options.digest⟩

/-- Indexes a program. -/
def index (program : Program) (options : IndexOptions) : Except Error Index := do
  checkDocuments [] program.documents
  let table ← program.merge
  let occurrences ← program.occurrences table
  let emission ← program.emitDocuments options occurrences
  let naming := program.naming options
  let labelling ← emission.label naming table options.scheme
  let (graph, stats) ← program.publishAliases naming table (labelling.canonical.lookup ·)
    options.scheme labelling.graph
  return ⟨graph, stats⟩

/-- What the alias pass of a run leaves out. -/
def remarks (program : Program) (options : IndexOptions) : Except Error (List AliasRemark) := do
  let table ← program.merge
  let naming := program.naming options
  program.aliasRemarks naming table fun id => (table.identity? naming id).map Identity.identifier

end Program

end MonikerIndex
