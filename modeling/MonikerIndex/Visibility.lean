import MonikerIndex.SymbolTable.Basic

/-!
# Visibility

How far a record can be seen is decided from the outside in. At the top level, everything is seen
everywhere except what a module file does not export and what is confined to a body. Further in,
an exported member of what is seen everywhere is seen everywhere; an exported member of anything
else is seen as far as its container; and whatever is not exported, or is confined to a body, is
hidden.
-/

namespace MonikerIndex

/-- How far a record can be seen. -/
inductive Visibility where
  /-- Reachable from the top through exported records only. -/
  | everywhere
  /-- Exported from something that is not seen everywhere. -/
  | scoped
  /-- Not exported, or confined to a body. -/
  | hidden
  deriving DecidableEq, Repr, Inhabited

namespace Visibility

/-- The word of a visibility. -/
def word : Visibility → String
  | .everywhere => "global-export"
  | .scoped => "scoped-export"
  | .hidden => "local"

/-- Whether a record is seen outside its container. -/
def isExport (visibility : Visibility) : Bool :=
  visibility != .hidden

/-- The visibility of a record without a parent. -/
def ofTop (record : Record) : Visibility :=
  if record.scope = .confined then .hidden
  else
    match record.space with
    | .moduleFile _ => if record.exported then .everywhere else .hidden
    | _ => .everywhere

/-- The visibility of a record in a container of the given visibility. -/
def ofMember (container : Visibility) (record : Record) : Visibility :=
  if record.scope = .confined then .hidden
  else if !record.exported then .hidden
  else if container = .everywhere then .everywhere
  else .scoped

/-- The visibility of the innermost of some nested records, given from the outside in. -/
def ofNested : List Record → Visibility
  | [] => .hidden
  | top :: members => members.foldl ofMember (ofTop top)

end Visibility

namespace SymbolTable

/-- The visibility of a record. -/
def visibility (table : SymbolTable) (id : Nat) : Visibility :=
  Visibility.ofNested (table.chain id).reverse

/-- The visibilities of all records, in their order. -/
def visibilities (table : SymbolTable) : List Visibility :=
  table.records.map fun record => table.visibility record.id

end SymbolTable

end MonikerIndex
