import MonikerIndex.DocumentUri
import MonikerIndex.Moniker
import MonikerIndex.Path
import MonikerIndex.Span
import MonikerIndex.Text.Casing

/-!
# The elements of a graph

The vertices are documents, ranges in them, result sets that gather the ranges of one symbol, and
monikers. The edges lead from a range to its result set, from a result set to its moniker, from an
alias moniker to the moniker it stands for, and from a document to its ranges.

Elements are numbered from one.
-/

namespace MonikerIndex

/-! ### Labels -/

/-- The kinds of vertices, in the order of their words. -/
inductive VertexLabel where
  | document
  | moniker
  | range
  | resultSet
  deriving DecidableEq, Repr, Inhabited

namespace VertexLabel

/-- All kinds of vertices. -/
def all : List VertexLabel := [.document, .moniker, .range, .resultSet]

/-- The word of a kind of vertices. -/
def word : VertexLabel → String
  | .document => "document"
  | .moniker => "moniker"
  | .range => "range"
  | .resultSet => "resultSet"

end VertexLabel

/-- The kinds of edges. -/
inductive EdgeLabel where
  /-- From a range to its result set. -/
  | next
  /-- From a result set to its moniker. -/
  | moniker
  /-- From an alias moniker to the moniker it stands for. -/
  | attach
  /-- From a document to all of its ranges. -/
  | contains
  deriving DecidableEq, Repr, Inhabited

namespace EdgeLabel

/-- All kinds of edges. -/
def all : List EdgeLabel := [.next, .moniker, .attach, .contains]

/-- All kinds of edges in the order of their words. -/
def alphabetical : List EdgeLabel := [.attach, .contains, .moniker, .next]

/-- The word of a kind of edges. -/
def word : EdgeLabel → String
  | .next => "next"
  | .moniker => "moniker"
  | .attach => "attach"
  | .contains => "contains"

/-- All kinds of edges with their words. -/
def words : List (String × EdgeLabel) :=
  all.map fun label => (label.word, label)

/-- Whether edges of this kind have any number of targets. -/
def isOneToMany (label : EdgeLabel) : Bool :=
  label == .contains

/-- The kind of edges that a word in any letter case stands for. -/
def parse (text : String) : Except Error EdgeLabel :=
  match words.lookup (Text.lower text) with
  | some label => .ok label
  | none => .error (.unknownEdgeLabel text)

end EdgeLabel

/-! ### Vertices -/

/-- Whether a range declares its symbol or mentions it. -/
inductive RangeRole where
  | definition
  | reference
  deriving DecidableEq, Repr, Inhabited

namespace RangeRole

/-- The word of a role. -/
def word : RangeRole → String
  | .definition => "definition"
  | .reference => "reference"

/-- Both roles with their words. -/
def words : List (String × RangeRole) :=
  [("definition", .definition), ("reference", .reference)]

/-- Definitions come before references. -/
def rank : RangeRole → Nat
  | .definition => 0
  | .reference => 1

end RangeRole

/-- What is known of the symbol at a range. -/
structure RangeTag where
  role : RangeRole
  text : String
  /-- The number of the symbol's kind in the language server protocol. -/
  kind : UInt32
  /-- The span of the whole declaration. -/
  fullSpan : Option Span
  deriving DecidableEq, Repr, Inhabited

/-- A node of the graph. -/
inductive Vertex where
  | document (uri : DocumentUri) (languageId : String) (kind : DocumentKind)
  | range (span : Span) (tag : RangeTag)
  | resultSet
  | moniker (name : Moniker)
  deriving DecidableEq, Repr, Inhabited

/-- The kind of a vertex. -/
def Vertex.label : Vertex → VertexLabel
  | .document .. => .document
  | .range .. => .range
  | .resultSet => .resultSet
  | .moniker .. => .moniker

/-! ### Edges -/

/-- A connection from one element to others, by their numbers. -/
structure Edge where
  label : EdgeLabel
  source : Nat
  /-- The target, of an edge that has one. -/
  target : Option Nat := none
  /-- The targets of an edge that may have many. -/
  targets : List Nat := []
  deriving DecidableEq, Repr, Inhabited

namespace Edge

/-- The edge from a range to its result set. -/
def next (range resultSet : Nat) : Edge :=
  { label := .next, source := range, target := some resultSet }

/-- The edge from a result set to its moniker. -/
def moniker (resultSet vertex : Nat) : Edge :=
  { label := .moniker, source := resultSet, target := some vertex }

/-- The edge from an alias moniker to the moniker it stands for. -/
def attach (aliasVertex vertex : Nat) : Edge :=
  { label := .attach, source := aliasVertex, target := some vertex }

/-- The edge from a document to its ranges. -/
def contains (document : Nat) (ranges : List Nat) : Edge :=
  { label := .contains, source := document, targets := ranges }

/-- All that an edge leads to. -/
def allTargets (edge : Edge) : List Nat :=
  edge.target.toList ++ edge.targets

/-- All that an edge connects, beginning with its source. -/
def endpoints (edge : Edge) : List Nat :=
  edge.source :: edge.allTargets

end Edge

/-! ### Elements -/

/-- The two sorts of elements. -/
inductive Payload where
  | vertex (node : Vertex)
  | edge (connection : Edge)
  deriving DecidableEq, Repr, Inhabited

/-- The word for the kind of a vertex or edge. -/
def Payload.label : Payload → String
  | .vertex node => node.label.word
  | .edge connection => connection.label.word

/-- A numbered vertex or edge. -/
structure Element where
  id : Nat
  payload : Payload
  deriving DecidableEq, Repr, Inhabited

namespace Element

/-- The vertex, of an element that is one. -/
def vertex? (element : Element) : Option Vertex :=
  match element.payload with
  | .vertex node => some node
  | .edge _ => none

/-- The edge, of an element that is one. -/
def edge? (element : Element) : Option Edge :=
  match element.payload with
  | .vertex _ => none
  | .edge connection => some connection

/-- The moniker, of an element that is one. -/
def moniker? (element : Element) : Option Moniker :=
  match element.payload with
  | .vertex (.moniker name) => some name
  | _ => none

/-- Whether an element is a range. -/
def isRange (element : Element) : Bool :=
  match element.payload with
  | .vertex (.range ..) => true
  | _ => false

end Element

end MonikerIndex
