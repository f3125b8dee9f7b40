import MonikerIndex.Json.Decoder
import MonikerIndex.Program.Basic

/-!
# Facts files

The written form of a program, and how to read it. Writing gives every field, in declared order,
with null for what is absent. Reading is more liberal: fields may come in any order, most fields
that can be absent may be left out, unknown ones are passed over, and every record may be written
as a list of its fields.
-/

namespace MonikerIndex

open Decoder (field)

/-! ### Positions and spans -/

/-- The written form of a position. -/
def Position.toJson (position : Position) : Json :=
  .record [("line", .nat position.line.toNat), ("character", .nat position.character.toNat)]

/-- The written form of a span. -/
def Span.toJson (span : Span) : Json :=
  .record [("start", span.start.toJson), ("end", span.stop.toJson)]

/-- A position with fields still to come. -/
structure Position.Draft where
  line : Option UInt32 := none
  character : Option UInt32 := none

/-- The fields of a position. -/
def Position.fields : List (Decoder.Field Position.Draft) :=
  [field "line" false (·.line) (fun draft value => { draft with line := some value })
      Decoder.word32,
    field "character" false (·.character)
      (fun draft value => { draft with character := some value }) Decoder.word32]

/-- Reads a position. -/
def Position.decoder : Decoder Position :=
  Decoder.record Position.fields {} fun draft =>
    return ⟨← draft.line, ← draft.character⟩

/-- A span with fields still to come. -/
structure Span.Draft where
  start : Option Position := none
  stop : Option Position := none

/-- The fields of a span. -/
def Span.fields : List (Decoder.Field Span.Draft) :=
  [field "start" false (·.start) (fun draft value => { draft with start := some value })
      Position.decoder,
    field "end" false (·.stop) (fun draft value => { draft with stop := some value })
      Position.decoder]

/-- Reads a span. -/
def Span.decoder : Decoder Span :=
  Decoder.record Span.fields {} fun draft =>
    return ⟨← draft.start, ← draft.stop⟩

/-! ### Documents -/

/-- The written form of a document. -/
def Document.toJson (document : Document) : Json :=
  .record [("path", .text document.path),
    ("kind", Json.ofOption (fun kind => .text kind.word) document.kind),
    ("module", .bool document.isModule)]

/-- A document with fields still to come. -/
structure Document.Draft where
  path : Option String := none
  kind : Option (Option DocumentKind) := none
  isModule : Option Bool := none

/-- The fields of a document. -/
def Document.fields : List (Decoder.Field Document.Draft) :=
  [field "path" false (·.path) (fun draft value => { draft with path := some value }) Decoder.text,
    field "kind" true (·.kind) (fun draft value => { draft with kind := some value })
      (Decoder.optional (Decoder.oneOf DocumentKind.words)),
    field "module" true (·.isModule) (fun draft value => { draft with isModule := some value })
      Decoder.flag]

/-- Reads a document. -/
def Document.decoder : Decoder Document :=
  Decoder.record Document.fields {} fun draft =>
    return ⟨← draft.path, draft.kind.join, draft.isModule.getD false⟩

/-! ### Declarations -/

/-- The written form of a declaration. -/
def Declaration.toJson (declaration : Declaration) : Json :=
  .record [("file", .text declaration.file), ("span", declaration.span.toJson),
    ("full_span", Json.ofOption Span.toJson declaration.fullSpan),
    ("exported", .bool declaration.exported),
    ("kind", Json.ofOption (fun kind => .text kind.word) declaration.kind),
    ("text", Json.ofOption .text declaration.text)]

/-- A declaration with fields still to come. -/
structure Declaration.Draft where
  file : Option String := none
  span : Option Span := none
  fullSpan : Option (Option Span) := none
  exported : Option Bool := none
  kind : Option (Option SymbolKind) := none
  text : Option (Option String) := none

/-- The fields of a declaration. -/
def Declaration.fields : List (Decoder.Field Declaration.Draft) :=
  [field "file" false (·.file) (fun draft value => { draft with file := some value }) Decoder.text,
    field "span" false (·.span) (fun draft value => { draft with span := some value })
      Span.decoder,
    field "full_span" true (·.fullSpan) (fun draft value => { draft with fullSpan := some value })
      (Decoder.optional Span.decoder),
    field "exported" true (·.exported) (fun draft value => { draft with exported := some value })
      Decoder.flag,
    field "kind" true (·.kind) (fun draft value => { draft with kind := some value })
      (Decoder.optional (Decoder.oneOf SymbolKind.words)),
    field "text" true (·.text) (fun draft value => { draft with text := some value })
      (Decoder.optional Decoder.text)]

/-- Reads a declaration. -/
def Declaration.decoder : Decoder Declaration :=
  Decoder.record Declaration.fields {} fun draft =>
    return ⟨← draft.file, ← draft.span, draft.fullSpan.join, draft.exported.getD false,
      draft.kind.join, draft.text.join⟩

/-! ### Symbols -/

/-- The written form of a symbol. -/
def Symbol.toJson (symbol : Symbol) : Json :=
  .record [("handle", .nat symbol.handle.toNat), ("name", Json.ofOption .text symbol.name),
    ("kind", .text symbol.kind.word),
    ("parent", Json.ofOption (fun handle => .nat handle.toNat) symbol.parent),
    ("scope", .text symbol.scope.word),
    ("export_form", Json.ofOption (fun form => .text form.word) symbol.exportForm),
    ("declarations", Json.ofList Declaration.toJson symbol.declarations)]

/-- A symbol with fields still to come. -/
structure Symbol.Draft where
  handle : Option Handle := none
  name : Option (Option String) := none
  kind : Option SymbolKind := none
  parent : Option (Option Handle) := none
  scope : Option SymbolScope := none
  exportForm : Option (Option ExportForm) := none
  declarations : Option (List Declaration) := none

/-- The fields of a symbol. The name may be left out of the record form, but not of the list
    form. -/
def Symbol.fields : List (Decoder.Field Symbol.Draft) :=
  [field "handle" false (·.handle) (fun draft value => { draft with handle := some value })
      Decoder.word32,
    field "name" false (·.name) (fun draft value => { draft with name := some value })
      (Decoder.optional Decoder.text),
    field "kind" false (·.kind) (fun draft value => { draft with kind := some value })
      (Decoder.oneOf SymbolKind.words),
    field "parent" true (·.parent) (fun draft value => { draft with parent := some value })
      (Decoder.optional Decoder.word32),
    field "scope" true (·.scope) (fun draft value => { draft with scope := some value })
      (Decoder.oneOf SymbolScope.words),
    field "export_form" true (·.exportForm)
      (fun draft value => { draft with exportForm := some value })
      (Decoder.optional (Decoder.oneOf ExportForm.words)),
    field "declarations" false (·.declarations)
      (fun draft value => { draft with declarations := some value })
      (Decoder.list Declaration.decoder)]

/-- Reads a symbol. -/
def Symbol.decoder : Decoder Symbol :=
  Decoder.record Symbol.fields {} fun draft =>
    return ⟨← draft.handle, draft.name.join, ← draft.kind, draft.parent.join,
      draft.scope.getD .member, draft.exportForm.join, ← draft.declarations⟩

/-! ### References and aliases -/

/-- The written form of a reference. -/
def Reference.toJson (reference : Reference) : Json :=
  .record [("file", .text reference.file), ("span", reference.span.toJson),
    ("text", .text reference.text), ("target", .nat reference.target.toNat)]

/-- A reference with fields still to come. -/
structure Reference.Draft where
  file : Option String := none
  span : Option Span := none
  text : Option String := none
  target : Option Handle := none

/-- The fields of a reference. -/
def Reference.fields : List (Decoder.Field Reference.Draft) :=
  [field "file" false (·.file) (fun draft value => { draft with file := some value }) Decoder.text,
    field "span" false (·.span) (fun draft value => { draft with span := some value })
      Span.decoder,
    field "text" false (·.text) (fun draft value => { draft with text := some value }) Decoder.text,
    field "target" false (·.target) (fun draft value => { draft with target := some value })
      Decoder.word32]

/-- Reads a reference. -/
def Reference.decoder : Decoder Reference :=
  Decoder.record Reference.fields {} fun draft =>
    return ⟨← draft.file, ← draft.span, ← draft.text, ← draft.target⟩

/-- The written form of an alias. -/
def Alias.toJson (aliasFact : Alias) : Json :=
  .record [("file", .text aliasFact.file), ("span", aliasFact.span.toJson),
    ("container", Json.ofOption (fun handle => .nat handle.toNat) aliasFact.container),
    ("name", .text aliasFact.name), ("target", .nat aliasFact.target.toNat)]

/-- An alias with fields still to come. -/
structure Alias.Draft where
  file : Option String := none
  span : Option Span := none
  container : Option (Option Handle) := none
  name : Option String := none
  target : Option Handle := none

/-- The fields of an alias. -/
def Alias.fields : List (Decoder.Field Alias.Draft) :=
  [field "file" false (·.file) (fun draft value => { draft with file := some value }) Decoder.text,
    field "span" false (·.span) (fun draft value => { draft with span := some value })
      Span.decoder,
    field "container" true (·.container)
      (fun draft value => { draft with container := some value })
      (Decoder.optional Decoder.word32),
    field "name" false (·.name) (fun draft value => { draft with name := some value }) Decoder.text,
    field "target" false (·.target) (fun draft value => { draft with target := some value })
      Decoder.word32]

/-- Reads an alias. -/
def Alias.decoder : Decoder Alias :=
  Decoder.record Alias.fields {} fun draft =>
    return ⟨← draft.file, ← draft.span, draft.container.join, ← draft.name, ← draft.target⟩

/-! ### Programs -/

/-- The written form of a program. -/
def Program.toJson (program : Program) : Json :=
  .record [("root", .text program.root),
    ("documents", Json.ofList Document.toJson program.documents),
    ("symbols", Json.ofList Symbol.toJson program.symbols),
    ("references", Json.ofList Reference.toJson program.references),
    ("aliases", Json.ofList Alias.toJson program.aliases)]

/-- A program with fields still to come. -/
structure Program.Draft where
  root : Option String := none
  documents : Option (List Document) := none
  symbols : Option (List Symbol) := none
  references : Option (List Reference) := none
  aliases : Option (List Alias) := none

/-- The fields of a program. -/
def Program.fields : List (Decoder.Field Program.Draft) :=
  [field "root" false (·.root) (fun draft value => { draft with root := some value }) Decoder.text,
    field "documents" false (·.documents)
      (fun draft value => { draft with documents := some value })
      (Decoder.list Document.decoder),
    field "symbols" false (·.symbols) (fun draft value => { draft with symbols := some value })
      (Decoder.list Symbol.decoder),
    field "references" true (·.references)
      (fun draft value => { draft with references := some value })
      (Decoder.list Reference.decoder),
    field "aliases" true (·.aliases) (fun draft value => { draft with aliases := some value })
      (Decoder.list Alias.decoder)]

/-- Reads a program. -/
def Program.decoder : Decoder Program :=
  Decoder.record Program.fields {} fun draft =>
    return ⟨← draft.root, ← draft.documents, ← draft.symbols, draft.references.getD [],
      draft.aliases.getD []⟩

/-! ### Texts and files -/

/-- The text of a facts file. -/
def Program.render (program : Program) : String :=
  program.toJson.pretty

/-- Reads the text of a facts file. -/
def Program.parse (text : String) : Except Error Program :=
  match (Page.ofText text).decode Program.decoder with
  | .ok program => .ok program
  | .error fault => .error (.json fault)

/-- Reads the bytes of a facts file. -/
def Program.ofBytes (bytes : ByteArray) : Except Error Program :=
  match String.fromUTF8? bytes with
  | some text => Program.parse text
  | none => .error (.unreadable .notText)

end MonikerIndex
