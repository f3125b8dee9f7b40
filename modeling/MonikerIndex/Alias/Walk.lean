import MonikerIndex.Alias.Link

/-!
# Walks along exports

From a record one can step to its exported members, and to the targets of the links that have it
as their container; either adds a name to the path. A walk starts at the target of a link that is
public on its own and never comes back to a record it has passed, so there are finitely many walks
even where aliases lead in circles.

Each walk is a path under which its last record is exported. The walks are listed in the order in
which they are met: a walk before those that continue it, members before links.
-/

namespace MonikerIndex

/-- A step to a record, under a name. -/
structure Step where
  name : String
  target : Nat
  deriving DecidableEq, Repr, Inhabited

/-- A record met under a path. -/
structure Visit where
  record : Nat
  path : ExportPath
  deriving DecidableEq, Repr, Inhabited

/-! ### Steps -/

/-- The step to a member, if the member is named, exported and not hidden. -/
def SymbolTable.memberStep? (table : SymbolTable) (id : Nat) : Option Step := do
  let member ← table.record? id
  let name ← member.name
  if member.exported && (table.visibility id).isExport then some ⟨name, id⟩ else none

/-- The step along a link, if it starts at the given record. -/
def Link.step? (link : Link) (id : Nat) : Option Step :=
  if link.container = some id then some ⟨link.name, link.target⟩ else none

/-- All steps from a record: to its members, then along links. -/
def Record.steps (record : Record) (table : SymbolTable) (links : List Link) : List Step :=
  record.children.filterMap table.memberStep? ++ links.filterMap (·.step? record.id)

/-- The steps from each record, in the order of the table. -/
def SymbolTable.steps (table : SymbolTable) (links : List Link) : List (List Step) :=
  table.records.map fun record => record.steps table links

/-! ### Visits -/

/-- All visits of the walks that start with the given one. `passed` holds the records passed so
    far, and `room` is the number of records that a walk can still pass. -/
def visitsFrom (steps : List (List Step)) : Nat → List Nat → Visit → List Visit
  | 0, _, _ => []
  | room + 1, passed, visit =>
      if passed.contains visit.record then []
      else
        visit :: ((steps[visit.record]?).getD []).flatMap fun step =>
          visitsFrom steps room (visit.record :: passed) ⟨step.target, visit.path.child step.name⟩

/-- The first visit of the walks along a link that is public on its own. -/
def Link.start? (link : Link) : Option Visit :=
  link.base.map fun base => ⟨link.target, base.child link.name⟩

/-- All visits of all walks. A walk passes each record at most once, so there is room for as many
    records as the table has. -/
def SymbolTable.visits (table : SymbolTable) (links : List Link) : List Visit :=
  (links.filterMap Link.start?).flatMap
    (visitsFrom (table.steps links) table.records.length [])

end MonikerIndex
