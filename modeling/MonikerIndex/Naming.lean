import MonikerIndex.Digest.Basic
import MonikerIndex.ExportPath
import MonikerIndex.Moniker
import MonikerIndex.Visibility

/-!
# The identities of records

What can be seen everywhere is named by its export path, and such a name is unique in the whole
program. Everything else is named by a digest of its file, its names from the outside in, and its
position; such a name is unique in its document. What has no name of its own has no identity, and
neither has what can only be exported through something without a name.

The digest is a parameter of the naming: what is proved here of identities holds for every digest,
or for every digest of which no two texts have the same.
-/

namespace MonikerIndex

/-! ### Segments -/

/-- A name without the quotation marks around it. -/
def unquote (name : String) : String :=
  let inner? (quote : Char) : Option (List Char) :=
    match name.toList with
    | first :: second :: rest =>
        if first = quote ∧ (second :: rest).getLast? = some quote then
          some (second :: rest).dropLast
        else none
    | _ => none
  match inner? '\'' with
  | some inner => String.ofList inner
  | none =>
      match inner? '"' with
      | some inner => String.ofList inner
      | none => name

namespace Record

/-- What a record adds to an export path: the segment of its export form, or else its name. -/
def segment? (record : Record) : Option String :=
  match record.exportForm with
  | some form => some form.segment
  | none => record.name.map fun name => if record.isAmbientModule then unquote name else name

/-- Whether the record is a module block whose name is in quotation marks. Such a module is not in
    the global scope. -/
def isQuotedModule (record : Record) : Bool :=
  record.isAmbientModule && record.name.any fun name => (unquote name).length != name.length

end Record

/-! ### Naming -/

/-- What identities depend on besides the table. -/
structure Naming where
  /-- The directory that module names are relative to. -/
  root : String
  /-- Stands for a text in the names of what is not public. -/
  digest : String → String

namespace Naming

/-- The base of the paths to what a file exports. -/
def fileBase (naming : Naming) (file : String) (isModule : Bool) : PathBase :=
  if isModule then .moduleFile (Path.moduleName naming.root file) else .global

/-- The base of the path to a record without a parent. -/
def topBase (naming : Naming) (record : Record) : PathBase :=
  match record.space with
  | .moduleFile file => .moduleFile (Path.moduleName naming.root file)
  | _ => .global

/-- The export path of the first of some nested records, given from the inside out. -/
def nestedPath (naming : Naming) : List Record → Option ExportPath
  | [] => none
  | record :: outer => do
      let segment ← record.segment?
      if record.isQuotedModule then return .bare (.ambient segment)
      match outer with
      | [] => return (ExportPath.bare (naming.topBase record)).child segment
      | container :: _ =>
          let path ←
            if container.isAmbientModule then
              container.segment?.map fun name => ExportPath.bare (.ambient name)
            else nestedPath naming outer
          return path.child segment

/-- The path under which the members of the first of some nested records are exported. A module
    block gives its name to the base instead of continuing its own path. -/
def nestedMemberPath (naming : Naming) (records : List Record) : Option ExportPath :=
  match records with
  | [] => none
  | record :: _ =>
      if record.isAmbientModule then
        record.segment?.map fun name => ExportPath.bare (.ambient name)
      else naming.nestedPath records

/-- The export path of a record. -/
def exportPath (naming : Naming) (table : SymbolTable) (id : Nat) : Option ExportPath :=
  naming.nestedPath (table.chain id)

/-- The path under which the members of a record are exported. -/
def memberPath (naming : Naming) (table : SymbolTable) (id : Nat) : Option ExportPath :=
  naming.nestedMemberPath (table.chain id)

/-- What the identifier of an internal record is a digest of: the file, the names from the outside
    in, and the position. -/
def localText (table : SymbolTable) (record : Record) : String :=
  let site := record.canonical?.getD default
  let names := (table.chain record.id).reverse.map fun outer => outer.name.getD "<anonymous>"
  String.ofList (site.file.toList ++ '|' :: (dotted names ++ '|' ::
    (Nat.toDigits 10 site.span.start.line.toNat ++ ':' ::
      Nat.toDigits 10 site.span.start.character.toNat)))

/-- The identifier of a record that is not public. -/
def localIdentifier (naming : Naming) (table : SymbolTable) (record : Record) : String :=
  naming.digest (localText table record)

/-- The identity of a record of the given visibility. -/
def identity? (naming : Naming) (table : SymbolTable) (record : Record) (visibility : Visibility) :
    Option Identity :=
  if record.name.isNone then none
  else if visibility = .everywhere then
    (naming.exportPath table record.id).map fun path => .exported path.identifier
  else some (.internal (naming.localIdentifier table record))

end Naming

end MonikerIndex
