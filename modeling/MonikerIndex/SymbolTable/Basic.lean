import MonikerIndex.Program.Basic

/-!
# The table of records

One logical symbol may be reported many times: once per overload, once for an interface and once
for the namespace of the same name, once per file that extends a global interface. The table holds
one record for each logical symbol, with all the places where it is declared. A record is known by
its place in the table.

The parent of a record stands before it in the table, so the way up from a record ends.
-/

namespace MonikerIndex

/-- The space in which a symbol is declared. Symbols of one space with one name are the same. -/
inductive Space where
  /-- The global scope of the program. -/
  | global
  /-- The top level of one module file. -/
  | moduleFile (file : String)
  /-- The members of a record. -/
  | container (id : Nat)
  /-- A space of its own: for what has no name, and for what is confined to a body. -/
  | alone (handle : Handle)
  deriving DecidableEq, Repr, Inhabited

/-- A declaration with its kind and text settled. -/
structure Site where
  file : String
  span : Span
  fullSpan : Option Span
  exported : Bool
  kind : SymbolKind
  text : String
  deriving DecidableEq, Repr, Inhabited

namespace Site

/-- The site of a declaration of the given symbol. -/
def ofDeclaration (symbol : Symbol) (declaration : Declaration) : Site where
  file := declaration.file
  span := declaration.span
  fullSpan := declaration.fullSpan
  exported := declaration.exported
  kind := declaration.kind.getD symbol.kind
  text := (declaration.text.or symbol.name).getD ""

/-- Where a site is. -/
def place (site : Site) : Place :=
  ⟨site.file, site.span⟩

end Site

/-- One logical symbol. -/
structure Record where
  /-- The record's place in the table. -/
  id : Nat
  name : Option String
  /-- The kind of the first site. -/
  kind : SymbolKind
  parent : Option Nat
  scope : SymbolScope
  space : Space
  /-- Whether some declaration exports the symbol from its container. -/
  exported : Bool
  exportForm : Option ExportForm
  /-- Where the symbol is declared, in the order of places and each place once. -/
  sites : List Site
  /-- The members, in the order of their first sites. -/
  children : List Nat
  /-- The handles under which the symbol was reported. -/
  handles : List Handle
  deriving DecidableEq, Repr, Inhabited

namespace Record

/-- The first site of a record. -/
def canonical? (record : Record) : Option Site :=
  record.sites.head?

/-- Whether the record is a module block at the top level. -/
def isAmbientModule (record : Record) : Bool :=
  record.kind == .moduleBlock && record.parent.isNone

end Record

/-- The records of a program. -/
structure SymbolTable where
  records : List Record
  deriving DecidableEq, Repr, Inhabited

namespace SymbolTable

/-- The record at the given place. -/
def record? (table : SymbolTable) (id : Nat) : Option Record :=
  table.records[id]?

/-- The record that a handle was merged into. -/
def resolve (table : SymbolTable) (handle : Handle) : Option Nat :=
  table.records.findIdx? (·.handles.contains handle)

/-- The way up from a record, for at most so many records. -/
def ascend (table : SymbolTable) : Nat → Nat → List Record
  | 0, _ => []
  | steps + 1, id =>
      match table.record? id with
      | none => []
      | some record =>
          record :: match record.parent with
            | none => []
            | some parent => ascend table steps parent

/-- The record and all records it lies in, from the inside out. Each has a smaller place in the
    table than the one before, so there are at most `id + 1` of them. -/
def chain (table : SymbolTable) (id : Nat) : List Record :=
  table.ascend (id + 1) id

end SymbolTable

end MonikerIndex
