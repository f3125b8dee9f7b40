import MonikerIndex.Graph.Element
import MonikerIndex.SymbolTable.Merge

/-!
# Occurrences

Every site of a record is a definition of it, and every reference to one of its handles is a
reference to the record. Within a document, occurrences are ordered by their start, definitions
before references, and then by their end.
-/

namespace MonikerIndex

/-- A place where a record is declared or mentioned. -/
structure Occurrence where
  file : String
  span : Span
  tag : RangeTag
  record : Nat
  deriving DecidableEq, Repr, Inhabited

namespace Occurrence

/-- The definition of a record at one of its sites. -/
def ofSite (record : Record) (site : Site) : Occurrence where
  file := site.file
  span := site.span
  tag := ⟨.definition, site.text, site.kind.lsp, site.fullSpan⟩
  record := record.id

/-- A reference to a record. -/
def ofReference (reference : Reference) (record : Record) : Occurrence where
  file := reference.file
  span := reference.span
  tag := ⟨.reference, reference.text, record.kind.lsp, none⟩
  record := record.id

/-- By start, definitions before references, then by end. -/
def order : Occurrence → Occurrence → Ordering :=
  compareLex (compareOn fun occurrence => occurrence.span.start)
    (compareLex (compareOn fun occurrence => occurrence.tag.role.rank)
      (compareOn fun occurrence => occurrence.span.stop))

end Occurrence

/-- All definitions of all records. -/
def SymbolTable.definitions (table : SymbolTable) : List Occurrence :=
  table.records.flatMap fun record => record.sites.map (Occurrence.ofSite record)

namespace Program

/-- The occurrence at a reference. -/
def findReference (program : Program) (table : SymbolTable) (reference : Reference) :
    Except Error Occurrence :=
  if !program.hasDocument reference.file then
    .error (.referenceOutside reference.text reference.file)
  else
    match (table.resolve reference.target).bind table.record? with
    | some record => .ok (.ofReference reference record)
    | none => .error (.unknownReference reference.text reference.file reference.target)

/-- All occurrences: the definitions in the order of the table, then the references in the order
    in which they were reported. -/
def occurrences (program : Program) (table : SymbolTable) : Except Error (List Occurrence) :=
  (program.references.mapM (program.findReference table)).map (table.definitions ++ ·)

end Program

/-- The occurrences in one file, in order. -/
def Occurrence.inFile (occurrences : List Occurrence) (file : String) : List Occurrence :=
  sortBy Occurrence.order (occurrences.filter (·.file == file))

end MonikerIndex
