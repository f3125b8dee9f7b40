/-!
# Styles

On a terminal, parts of the report are set off by colour. Elsewhere all text is plain.
-/

namespace MonikerIndex

/-- The roles of text in a report. -/
inductive Style where
  | header
  | success
  | error
  | warn
  | info
  | dim
  | identifier
  deriving DecidableEq, Repr, Inhabited

namespace Style

/-- All styles with their words. -/
def words : List (String × Style) :=
  [("header", .header), ("success", .success), ("error", .error), ("warn", .warn), ("info", .info),
    ("dim", .dim), ("identifier", .identifier)]

/-- The terminal codes of a style. -/
def codes : Style → String
  | .header => "36;1"
  | .success => "32;1"
  | .error => "31;1"
  | .warn => "33;1"
  | .info => "35"
  | .dim => "37;2"
  | .identifier => "94"

end Style

/-- Whether styles show. -/
inductive Theme where
  | plain
  | colored
  deriving DecidableEq, Repr, Inhabited

/-- A text in a style. -/
def Theme.paint (theme : Theme) (style : Style) (text : String) : String :=
  match theme with
  | .plain => text
  | .colored => "\x1b[" ++ style.codes ++ "m" ++ text ++ "\x1b[0m"

end MonikerIndex
