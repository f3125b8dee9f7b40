import MonikerIndex.Alias.Walk
import MonikerIndex.Graph.Basic

/-!
# Alias monikers

Every path under which a record is exported once more becomes a moniker of its own, attached to the
record's canonical moniker. An identifier that is taken already is only counted. Nothing is emitted
before all aliases have been found to be in order.
-/

namespace MonikerIndex

/-- The moniker vertex that belongs to a record's result set. -/
structure Canonical where
  vertex : Nat
  identifier : String
  deriving DecidableEq, Repr, Inhabited

/-- The counts of an alias pass. -/
structure AliasStats where
  /-- All aliases. -/
  total : Nat
  /-- Aliases that are public, on their own or through others. -/
  linked : Nat
  /-- Aliases in containers that nothing makes public. -/
  skipped : Nat
  /-- Alias monikers emitted. -/
  attached : Nat
  /-- Paths whose identifier was taken already. -/
  duplicates : Nat
  deriving DecidableEq, Repr, Inhabited

/-- The counts in words, a line for each. -/
def AliasStats.describe (stats : AliasStats) : String :=
  "Alias Linker Stats:\n" ++ s!"  Total Aliases: {stats.total}\n"
    ++ s!"  ✅ Linked: {stats.linked}\n"
    ++ s!"  🙈 Hidden Container: {stats.skipped}\n" ++ s!"  🔗 Attach Edges: {stats.attached}\n"
    ++ s!"  ♻️  Duplicate Identifiers: {stats.duplicates}\n"

/-- The state while visits are published. -/
structure Publication where
  graph : Graph
  /-- The identifiers that are taken. -/
  taken : List String
  attached : Nat := 0
  duplicates : Nat := 0
  deriving DecidableEq, Repr, Inhabited

namespace Publication

/-- Publishes one visit. A record without a canonical moniker gets no alias moniker either. -/
def publish (scheme : String) (canonical : Nat → Option Canonical) (state : Publication)
    (visit : Visit) : Except Error Publication :=
  match canonical visit.record with
  | none => .ok state
  | some moniker =>
      let identifier := visit.path.identifier
      if identifier == moniker.identifier || state.taken.contains identifier then
        .ok { state with duplicates := state.duplicates + 1 }
      else do
        let (graph, vertex) :=
          state.graph.emitVertex (.moniker ((Identity.exported identifier).under scheme))
        let (graph, _) ← graph.emitEdge (.attach vertex moniker.vertex)
        return { state with
          graph := graph
          taken := identifier :: state.taken
          attached := state.attached + 1 }

end Publication

namespace Link

/-- Whether a link is public on its own or through one of the visits. -/
def isReached (link : Link) (visits : List Visit) : Bool :=
  link.base.isSome || visits.any fun visit => link.container == some visit.record

end Link

/-- The identifiers of all canonical monikers. -/
def SymbolTable.identifiers (table : SymbolTable) (canonical : Nat → Option Canonical) :
    List String :=
  table.records.filterMap fun record => (canonical record.id).map Canonical.identifier

/-- Emits the alias monikers of a program. -/
def Program.publishAliases (program : Program) (naming : Naming) (table : SymbolTable)
    (canonical : Nat → Option Canonical) (scheme : String) (graph : Graph) :
    Except Error (Graph × AliasStats) := do
  let links ← program.links naming table
  let visits := table.visits links
  let start : Publication := { graph := graph, taken := table.identifiers canonical }
  let state ← visits.foldlM (Publication.publish scheme canonical) start
  let linked := links.countP (·.isReached visits)
  return (state.graph,
    { total := links.length
      linked := linked
      skipped := links.length - linked
      attached := state.attached
      duplicates := state.duplicates })

end MonikerIndex
