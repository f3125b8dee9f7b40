import MonikerIndex.Report.Log
import MonikerIndex.Report.Theme

/-!
# Notices

While a command runs it tells what it does. A notice is one such message; it goes to the error
output, since the ordinary output is for results.
-/

namespace MonikerIndex

/-- A message about a run. -/
inductive Notice where
  /-- What is about to happen. -/
  | header (text : String)
  | success (text : String)
  | warning (text : String)
  /-- A labelled value behind an icon. -/
  | detail (icon label value : String)
  /-- The title of a part of the report. -/
  | part (title : String)
  /-- A labelled count. -/
  | count (label : String) (value : Nat)
  /-- A text as it stands. -/
  | text (content : String)
  /-- How long the run took. The time is for the outer layer to add. -/
  | elapsed
  /-- An entry of the log, whose first line is to be stamped with the time. -/
  | log (entry : LogEntry)
  deriving DecidableEq, Repr, Inhabited

namespace Notice

/-- The words of a notice. -/
def render (theme : Theme) : Notice → String
  | .header content => "🚀 " ++ theme.paint .header content
  | .success content => "✅ " ++ theme.paint .success content
  | .warning content => "⚠️ " ++ theme.paint .warn content
  | .detail icon label value =>
      theme.paint .info icon ++ " " ++ theme.paint .dim label ++ ": "
        ++ theme.paint .identifier value
  | .part title => "\n━" ++ theme.paint .header title ++ "━"
  | .count label value => "  " ++ theme.paint .dim label ++ " " ++ toString value
  | .text content => content
  | .elapsed => theme.paint .dim "⏱️"
  | .log entry => entry.render

/-- The lines of a notice. What it names may hold line ends of its own. -/
def lines (theme : Theme) (notice : Notice) : List String :=
  (notice.render theme).splitOn "\n"

end Notice

end MonikerIndex
