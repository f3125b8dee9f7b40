import MonikerIndex.Graph.Codec

/-!
# The text of a graph

A graph is written either as lines, with one element on each, or as one array. In both forms the
elements stand in the order of their numbers.
-/

namespace MonikerIndex

/-- The two written forms of a graph. -/
inductive OutputFormat where
  /-- One element on each line. -/
  | line
  /-- One array of elements. -/
  | json
  deriving DecidableEq, Repr, Inhabited

namespace OutputFormat

/-- The word of a form. -/
def word : OutputFormat → String
  | .line => "line"
  | .json => "json"

/-- Both forms with their words. -/
def words : List (String × OutputFormat) :=
  [("line", .line), ("json", .json)]

end OutputFormat

namespace Graph

/-- One line for each element. -/
def lines (graph : Graph) : List Char :=
  graph.elements.toList.flatMap fun element => element.toJson.compactChars ++ ['\n']

/-- All elements as one array. -/
def toJson (graph : Graph) : Json :=
  Json.ofList Element.toJson graph.elements.toList

/-- The text of a graph. -/
def render (graph : Graph) : OutputFormat → String
  | .line => String.ofList graph.lines
  | .json => String.ofList (graph.toJson.compactChars ++ ['\n'])

end Graph

end MonikerIndex
