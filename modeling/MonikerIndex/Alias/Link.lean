import MonikerIndex.Naming
import MonikerIndex.SymbolTable.Merge

/-!
# Links

An alias names a target, and what it is exported from: a container, or its file. A link is an alias
of which all this has been found. It has a base path if it is public on its own: when it is
exported from a file, or from a container that is seen everywhere. Any other link becomes public
only where something else makes its container public.
-/

namespace MonikerIndex

/-- An alias whose target and container have been found. -/
structure Link where
  name : String
  /-- The record that is exported once more. -/
  target : Nat
  /-- The record that it is exported from, if it is not a file. -/
  container : Option Nat
  /-- The path that the name is added to, if the link is public on its own. -/
  base : Option ExportPath
  deriving DecidableEq, Repr, Inhabited

namespace Alias

/-- The target of an alias. -/
def findTarget (aliasFact : Alias) (table : SymbolTable) : Except Error Nat :=
  match table.resolve aliasFact.target with
  | some id => .ok id
  | none => .error (.unknownAliasTarget aliasFact.name aliasFact.file aliasFact.target)

/-- The container of an alias, if it has one. -/
def findContainer (aliasFact : Alias) (table : SymbolTable) : Except Error (Option Nat) :=
  match aliasFact.container with
  | none => .ok none
  | some handle =>
      match table.resolve handle with
      | some id => .ok (some id)
      | none => .error (.unknownAliasContainer aliasFact.name aliasFact.file handle)

/-- The base path of an alias with the given container. -/
def findBase (aliasFact : Alias) (program : Program) (naming : Naming) (table : SymbolTable) :
    Option Nat → Except Error (Option ExportPath)
  | none =>
      match program.document? aliasFact.file with
      | some document =>
          .ok (some (.bare (naming.fileBase aliasFact.file document.isModule)))
      | none => .error (.aliasOutside aliasFact.name aliasFact.file)
  | some container =>
      if table.visibility container = .everywhere then .ok (naming.memberPath table container)
      else .ok none

/-- The link of an alias. -/
def link (aliasFact : Alias) (program : Program) (naming : Naming) (table : SymbolTable) :
    Except Error Link := do
  let target ← aliasFact.findTarget table
  let container ← aliasFact.findContainer table
  let base ← aliasFact.findBase program naming table container
  return ⟨aliasFact.name, target, container, base⟩

end Alias

namespace Program

/-- The aliases by file and start. Those at one place keep the order in which they were
    reported. -/
def sortedAliases (program : Program) : List Alias :=
  sortBy (compareLex (compareOn Alias.file) (compareOn fun aliasFact => aliasFact.span.start))
    program.aliases

/-- The links of all aliases. -/
def links (program : Program) (naming : Naming) (table : SymbolTable) :
    Except Error (List Link) :=
  program.sortedAliases.mapM (·.link program naming table)

end Program

end MonikerIndex
