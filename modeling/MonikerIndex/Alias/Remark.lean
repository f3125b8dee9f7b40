import MonikerIndex.Alias.Publish

/-!
# Remarks on aliases

The alias pass leaves out three things without an error: a walk that comes back to a record it has
passed, a path whose identifier is taken already, and an alias that nothing makes public. A remark
names one of them.

The meetings of a walk are its visits and its returns, in the order in which they come about.
-/

namespace MonikerIndex

/-- What was left out in an alias pass. -/
inductive AliasRemark where
  /-- A walk came back to a record it had passed, under a path with this identifier. -/
  | circle (identifier : String)
  /-- A path has an identifier that was taken. -/
  | duplicate (identifier : String)
  /-- Nothing makes the alias public. -/
  | hidden (name file : String)
  deriving DecidableEq, Repr, Inhabited

/-- A step of a walk: to a new record, or back to one that the walk has passed. -/
inductive Meeting where
  | fresh (visit : Visit)
  | again (path : ExportPath)
  deriving DecidableEq, Repr, Inhabited

/-- The visit of a meeting, if the record is new. -/
def Meeting.visit? : Meeting → Option Visit
  | .fresh visit => some visit
  | .again _ => none

/-! ### Meetings -/

/-- All meetings of the walks that start with the given visit. When there is no room for a further
    record, the walk has passed them all. -/
def meetingsFrom (steps : List (List Step)) : Nat → List Nat → Visit → List Meeting
  | 0, _, visit => [.again visit.path]
  | room + 1, passed, visit =>
      if passed.contains visit.record then [.again visit.path]
      else
        .fresh visit :: ((steps[visit.record]?).getD []).flatMap fun step =>
          meetingsFrom steps room (visit.record :: passed)
            ⟨step.target, visit.path.child step.name⟩

/-- All meetings of all walks. -/
def SymbolTable.meetings (table : SymbolTable) (links : List Link) : List Meeting :=
  (links.filterMap Link.start?).flatMap
    (meetingsFrom (table.steps links) table.records.length [])

/-! ### Remarks -/

/-- The remarks on meetings. `identifier?` gives the canonical identifiers of records, and `taken`
    holds the identifiers that are taken so far. -/
def Meeting.remarks (identifier? : Nat → Option String) : List String → List Meeting →
    List AliasRemark
  | _, [] => []
  | taken, .again path :: meetings =>
      .circle path.identifier :: remarks identifier? taken meetings
  | taken, .fresh visit :: meetings =>
      let identifier := visit.path.identifier
      match identifier? visit.record with
      | none => remarks identifier? taken meetings
      | some canonical =>
          if identifier == canonical || taken.contains identifier then
            .duplicate identifier :: remarks identifier? taken meetings
          else remarks identifier? (identifier :: taken) meetings

/-- The remarks on aliases that nothing makes public, in the order of their links. -/
def Program.hiddenRemarks (program : Program) (links : List Link) (visits : List Visit) :
    List AliasRemark :=
  let pairs := program.sortedAliases.zip links
  (pairs.filter fun (_, link) => !link.isReached visits).map fun (aliasFact, _) =>
    .hidden aliasFact.name aliasFact.file

/-- All remarks on the aliases of a program. -/
def Program.aliasRemarks (program : Program) (naming : Naming) (table : SymbolTable)
    (identifier? : Nat → Option String) : Except Error (List AliasRemark) := do
  let links ← program.links naming table
  let taken := table.records.filterMap fun record => identifier? record.id
  return Meeting.remarks identifier? taken (table.meetings links)
    ++ program.hiddenRemarks links (table.visits links)

end MonikerIndex
