import MonikerIndex.Command.Arguments
import MonikerIndex.Config.File
import MonikerIndex.Index.Basic
import MonikerIndex.Program.Codec
import MonikerIndex.Report.Notice
import MonikerIndex.Report.Table

/-!
# Commands

A command works on a disk and leaves an outcome: what goes to the ordinary output, the notices, and
the failure if there is one. Settings are loaded before any command, also before the one that
writes them.
-/

namespace MonikerIndex

/-- Why a command failed. -/
inductive Failure where
  | program (cause : Error)
  | config (cause : ConfigError)
  /-- The output could not be written. -/
  | output (cause : FileError)
  deriving DecidableEq, Repr, Inhabited

/-- The words for a failure. -/
def Failure.message : Failure → String
  | .program cause => cause.message
  | .config cause => cause.message
  | .output cause => cause.message

/-- What a command leaves. -/
structure Outcome where
  output : String := ""
  notices : List Notice := []
  failure : Option Failure := none
  deriving DecidableEq, Repr, Inhabited

namespace Outcome

/-- The number that the process ends with. -/
def code (outcome : Outcome) : UInt32 :=
  if outcome.failure.isSome then 1 else 0

/-- The outcome of a command that failed after some notices. -/
def failed (failure : Failure) (notices : List Notice) : Outcome :=
  { notices := notices, failure := some failure }

end Outcome

namespace Command

/-- Whether a setting of the environment asks for no notices. -/
def isQuiet (setting : Option String) : Bool :=
  setting.any fun value => value == "1" || Text.sameAscii value "true"

/-- The name and version of the program. -/
def version : String := "lsif-moniker 0.0.1"

/-- How the program is used. -/
def usage : String :=
  "Usage: lsif-moniker [-v] [-c FILE] COMMAND\n\n"
    ++ "Commands:\n"
    ++ "  index -f FILE [-o FILE] [--format line|json] [-s SCHEME]  write the graph of a program\n"
    ++ "  stats -f FILE                                             count its elements\n"
    ++ "  init [--force]                                            write a settings file\n"
    ++ "\nOptions:\n"
    ++ "  -v, --verbose      log more\n"
    ++ "  -c, --config FILE  the settings file\n"
    ++ "  -V, --version      print the version\n"
    ++ "  -h, --help         print this text"

/-- Notices that show only if notices are wanted. -/
def ifLoud (quiet : Bool) (notices : List Notice) : List Notice :=
  if quiet then [] else notices

/-- The log entry for a remark. -/
def remarkEntry : AliasRemark → LogEntry
  | .circle identifier => ⟨"Alias cycle", [("identifier", identifier)]⟩
  | .duplicate identifier => ⟨"Alias identifier already emitted", [("identifier", identifier)]⟩
  | .hidden name file =>
      ⟨"Skipping alias exported from a hidden container", [("alias", name), ("file", file)]⟩

/-- Whether a remark is logged even if no more than usual is to be logged. -/
def isWarning : AliasRemark → Bool
  | .hidden .. => true
  | _ => false

/-- The log entries on the aliases of a program: on what was left out, and, if more is to be logged,
    on how many there are. -/
def aliasLog (verbose : Bool) (program : Program) (options : IndexOptions) (stats : AliasStats) :
    Except Error (List LogEntry) := do
  if verbose then
    return (← program.remarks options).map remarkEntry ++ [⟨stats.describe, []⟩]
  else if stats.skipped = 0 then return []
  else return ((← program.remarks options).filter isWarning).map remarkEntry

/-- The log entries on what is read. -/
def readingLog (verbose : Bool) (facts : String) (root : Option String) : List LogEntry :=
  if verbose then
    ⟨"Reading program facts from " ++ facts, []⟩
      :: (root.map fun root => ⟨"Overriding project root", [("root", root)]⟩).toList
  else []

/-- Reads a facts file and indexes its program. A root from the settings replaces its own. The log
    comes with the outcome. -/
def indexFile [Monad m] (disk : Disk m) (verbose : Bool) (facts : String) (options : IndexOptions)
    (root : Option String) : m (Except Error (Index × List Notice)) := do
  match ← disk.read facts with
  | .error cause => return .error (.unreadable cause)
  | .ok text =>
      return do
        let program ← Program.parse text
        let program := { program with root := root.getD program.root }
        let result ← program.index options
        let log ← aliasLog verbose program options result.aliasStats
        return (result, (readingLog verbose facts root ++ log).map .log)

/-- The notices on a finished graph. -/
def summary (graph : Graph) (out : Option String) : List Notice :=
  let stats := graph.stats
  let monikers := stats.vertexCount "moniker"
  [.part "Graph", .text stats.table, .count "Elements:" stats.lastId,
    .count "Monikers:" monikers, .count "Attach edges:" (stats.edgeCount "attach")]
    ++ (if monikers = 0 then [.warning "No monikers were emitted"] else [])
    ++ (out.map fun path => Notice.detail "📄" "Written to" path).toList
    ++ [.elapsed, .success "Indexing complete"]

/-- Writes the graph of a facts file. -/
def index [Monad m] (disk : Disk m) (quiet verbose : Bool) (facts : String) (out : Option String)
    (format : OutputFormat) (options : IndexOptions) (root : Option String) : m Outcome := do
  let opening :=
    ifLoud quiet [.header s!"Indexing {facts}", .detail "🏷️" "Scheme" options.scheme]
  match ← indexFile disk verbose facts options root with
  | .error cause => return .failed (.program cause) opening
  | .ok (result, log) =>
      let text := result.graph.render format
      let started := opening ++ log
      let notices := started ++ ifLoud quiet (summary result.graph out)
      match out with
      | none => return { output := text, notices := notices }
      | some path =>
          match ← disk.write path text with
          | .ok () => return { notices := notices }
          | .error cause => return .failed (.output cause) started

/-- Counts the elements of the graph of a facts file. -/
def stats [Monad m] (disk : Disk m) (quiet verbose : Bool) (facts : String)
    (options : IndexOptions) (root : Option String) : m Outcome := do
  match ← indexFile disk verbose facts options root with
  | .error cause => return .failed (.program cause) []
  | .ok (result, log) =>
      let stats := result.graph.stats
      if quiet then return { output := stats.toJson.pretty ++ "\n", notices := log }
      return {
        output := stats.table ++ "\n"
        notices := log ++ [.header s!"📊 Graph statistics for {facts}",
          .count "Elements:" stats.lastId] }

/-- Writes a settings file to start with. -/
def init [Monad m] (disk : Disk m) (quiet : Bool) (path : String) (force : Bool) : m Outcome := do
  match ← Config.starter.save disk path force with
  | .error cause => return .failed (.config cause) []
  | .ok () =>
      return { notices := ifLoud quiet [.success s!"Wrote {path}",
        .detail "⚙️" "Edit it to change" "scheme, language_id, format, root"] }

/-- Runs a command. -/
def run [Monad m] (disk : Disk m) (quiet : Bool) (invocation : Invocation) : m Outcome := do
  let path := invocation.config.getD Config.defaultPath
  match ← Config.load disk path with
  | .error cause => return .failed (.config cause) []
  | .ok config? =>
      let config := config?.getD {}
      match invocation.action with
      | .index facts out format scheme =>
          let options := { config.options with scheme := scheme.getD config.options.scheme }
          let format := (format.or config.format).getD .line
          index disk quiet invocation.verbose facts out format options config.root
      | .stats facts => stats disk quiet invocation.verbose facts config.options config.root
      | .init force => init disk quiet path force

end Command

end MonikerIndex
