import MonikerIndex.Path
import MonikerIndex.Span
import MonikerIndex.SymbolKind

/-!
# Reported programs

A program is known by what an analyser reports of it: its documents, its symbols with the places
where they are declared, the references to them, and the aliases under which they are exported a
second time. The analyser identifies symbols by handles of its own.

A symbol is a member of its parent, or of its file if it has no parent. It may instead belong to
the global scope, or be confined to a body of code that nothing outside can name.
-/

namespace MonikerIndex

/-- Where a symbol lives relative to its parent. -/
inductive SymbolScope where
  /-- A member of the parent, or of the file. -/
  | member
  /-- The top level of a block that extends the global scope. -/
  | global
  /-- Inside the body of a function or block. -/
  | confined
  deriving DecidableEq, Repr, Inhabited

/-- All scopes with their words. -/
def SymbolScope.words : List (String × SymbolScope) :=
  [("member", .member), ("global", .global), ("local", .confined)]

/-- The word of a scope. -/
def SymbolScope.word : SymbolScope → String
  | .member => "member"
  | .global => "global"
  | .confined => "local"

/-- The forms of export that replace a symbol's name. -/
inductive ExportForm where
  | defaultExport
  | assignment
  deriving DecidableEq, Repr, Inhabited

/-- Both export forms with their words. -/
def ExportForm.words : List (String × ExportForm) :=
  [("default", .defaultExport), ("assignment", .assignment)]

/-- The word of an export form. -/
def ExportForm.word : ExportForm → String
  | .defaultExport => "default"
  | .assignment => "assignment"

/-- The name that stands in an export path for what is exported in this form. -/
def ExportForm.segment : ExportForm → String
  | .defaultExport => "default"
  | .assignment => "export="

/-! ### Documents -/

/-- An analysed file. -/
structure Document where
  path : String
  /-- The kind, where it is not the one that the path tells. -/
  kind : Option DocumentKind
  /-- Whether the file imports or exports anything. -/
  isModule : Bool
  deriving DecidableEq, Repr, Inhabited

namespace Document

/-- A file without imports and exports. -/
def script (path : String) : Document := ⟨path, none, false⟩

/-- A file with imports or exports. -/
def moduleFile (path : String) : Document := ⟨path, none, true⟩

/-- The kind of a document, by its path unless it is given. -/
def actualKind (document : Document) : DocumentKind :=
  document.kind.getD (DocumentKind.ofPath document.path)

end Document

/-! ### Symbols -/

/-- One place where a symbol is declared. -/
structure Declaration where
  file : String
  /-- The span of the name. -/
  span : Span
  /-- The span of the whole declaration, where it is longer. -/
  fullSpan : Option Span := none
  /-- Whether this declaration exports the symbol from its container. -/
  exported : Bool := false
  /-- The kind, where this declaration has another one than the symbol. -/
  kind : Option SymbolKind := none
  /-- The text to show, where it is not the symbol's name. -/
  text : Option String := none
  deriving DecidableEq, Repr, Inhabited

/-- Where a declaration stands. -/
def Declaration.place (declaration : Declaration) : Place :=
  ⟨declaration.file, declaration.span⟩

/-- What is reported of one symbol. -/
structure Symbol where
  handle : Handle
  /-- The name; some declarations have none. -/
  name : Option String
  kind : SymbolKind
  parent : Option Handle := none
  scope : SymbolScope := .member
  exportForm : Option ExportForm := none
  declarations : List Declaration := []
  deriving DecidableEq, Repr, Inhabited

namespace Symbol

/-- Whether some declaration exports the symbol. -/
def exported (symbol : Symbol) : Bool :=
  symbol.declarations.any (·.exported)

/-- The symbol with one more declaration. -/
def declaredAt (symbol : Symbol) (declaration : Declaration) : Symbol :=
  { symbol with declarations := symbol.declarations ++ [declaration] }

/-- The least place of a declaration, if there is any. -/
def leastPlace? (symbol : Symbol) : Option Place :=
  match symbol.declarations.map Declaration.place with
  | [] => none
  | first :: others => some (Place.least first others)

end Symbol

/-! ### References and aliases -/

/-- A mention of a symbol. -/
structure Reference where
  file : String
  span : Span
  text : String
  target : Handle
  deriving DecidableEq, Repr, Inhabited

/-- Exports a symbol once more: from a container, or from a file, under a name. -/
structure Alias where
  file : String
  span : Span
  /-- What the alias is exported from; the file itself if there is none. -/
  container : Option Handle
  name : String
  target : Handle
  deriving DecidableEq, Repr, Inhabited

/-- An alias that takes an export form instead of a name. -/
def Alias.ofForm (form : ExportForm) (file : String) (span : Span) (container : Option Handle)
    (target : Handle) : Alias :=
  ⟨file, span, container, form.segment, target⟩

/-! ### Programs -/

/-- All that is reported of a program. -/
structure Program where
  /-- The directory that module names are relative to. -/
  root : String
  documents : List Document := []
  symbols : List Symbol := []
  references : List Reference := []
  aliases : List Alias := []
  deriving DecidableEq, Repr, Inhabited

namespace Program

/-- The first document with the given path. -/
def document? (program : Program) (path : String) : Option Document :=
  program.documents.find? (·.path == path)

/-- Whether a file is a document of the program. -/
def hasDocument (program : Program) (path : String) : Bool :=
  program.documents.any (·.path == path)

/-- Whether a file is a document with imports or exports. -/
def isModuleFile (program : Program) (path : String) : Bool :=
  program.documents.any fun document => document.isModule && document.path == path

/-- The symbol with the given handle. -/
def symbol? (program : Program) (handle : Handle) : Option Symbol :=
  program.symbols.find? (·.handle == handle)

/-- The program with one more document. -/
def addDocument (program : Program) (document : Document) : Program :=
  { program with documents := program.documents ++ [document] }

/-- The program with one more symbol. -/
def addSymbol (program : Program) (symbol : Symbol) : Program :=
  { program with symbols := program.symbols ++ [symbol] }

/-- The program with one more declaration of its last symbol. -/
def addDeclaration (program : Program) (declaration : Declaration) : Program :=
  { program with
    symbols := program.symbols.dropLast ++
      (program.symbols.getLast?.map (·.declaredAt declaration)).toList }

/-- The program with one more reference. -/
def addReference (program : Program) (reference : Reference) : Program :=
  { program with references := program.references ++ [reference] }

/-- The program with one more alias. -/
def addAlias (program : Program) (aliasFact : Alias) : Program :=
  { program with aliases := program.aliases ++ [aliasFact] }

end Program

end MonikerIndex
