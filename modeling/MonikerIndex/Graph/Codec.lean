import MonikerIndex.Graph.Basic
import MonikerIndex.Program.Codec

/-!
# Elements as JSON

An element is written as one flat record: its number, whether it is a vertex or an edge, its label,
and then what belongs to that label. Absent targets and spans are left out.

Reading an element happens in two steps, because the members that decide on the meaning of the
others may come last. The number is read where it stands; every other member is kept. The kept
members are then read as a vertex or an edge, and nothing can be wrong with them any more but their
shape.
-/

namespace MonikerIndex

open Decoder (field)

/-! ### Writing -/

/-- The members of a range's tag. -/
def RangeTag.toJson (tag : RangeTag) : Json :=
  .record ([("type", .text tag.role.word), ("text", .text tag.text), ("kind", .nat tag.kind.toNat)]
    ++ (tag.fullSpan.map fun span => ("fullRange", span.toJson)).toList)

/-- The members of a moniker. -/
def Moniker.members (name : Moniker) : List (String × Json) :=
  [("scheme", .text name.scheme), ("identifier", .text name.identifier),
    ("unique", .text name.unique.word), ("kind", .text name.kind.word)]

/-- The members of a vertex, beginning with its label. -/
def Vertex.members (vertex : Vertex) : List (String × Json) :=
  ("label", .text vertex.label.word) :: match vertex with
    | .document uri languageId kind =>
        [("uri", .text uri.text), ("languageId", .text languageId), ("kind", .text kind.word)]
    | .range span tag =>
        [("start", span.start.toJson), ("end", span.stop.toJson), ("tag", tag.toJson)]
    | .resultSet => []
    | .moniker name => name.members

/-- The members of an edge, beginning with its label. -/
def Edge.members (edge : Edge) : List (String × Json) :=
  [("label", .text edge.label.word), ("outV", .nat edge.source)]
    ++ (edge.target.map fun id => ("inV", Json.nat id)).toList
    ++ (if edge.targets.isEmpty then [] else [("inVs", Json.ofList .nat edge.targets)])

/-- The members of a vertex or an edge. -/
def Payload.members : Payload → List (String × Json)
  | .vertex node => ("type", .text "vertex") :: node.members
  | .edge connection => ("type", .text "edge") :: connection.members

/-- The written form of an element. -/
def Element.toJson (element : Element) : Json :=
  .record (("id", .nat element.id) :: element.payload.members)

/-! ### Tags -/

namespace Decoder

/-- The value that a word stands for. -/
def ofWord (words : List (String × α)) (word : String) : Except Fault α :=
  (words.lookup word).elim (.error .mismatch) .ok

/-- A word. -/
def word (words : List (String × α)) : Decoder α
  | .text text => ofWord words text
  | _ => .error .mismatch

/-- A word, or its place in the list of words. -/
def wordOrPlace (words : List (String × α)) : Decoder α
  | .text text => ofWord words text
  | .nat place => (words[place]?).elim (.error .mismatch) fun entry => .ok entry.2
  | _ => .error .mismatch

/-- One of several words in a kept value. A word may also be the only key of a record, with null or
    an empty record as its value. -/
def keptOneOf (words : List (String × α)) : Decoder α
  | .text text => ofWord words text
  | .record [(some text, .null)] _ => ofWord words text
  | .record [(some text, .record [] _)] _ => ofWord words text
  | _ => .error .mismatch

/-- A value whose shape depends on a tag: the one member of the given name, or the first item of
    the list form. The tag itself is taken out before the rest is read. -/
def tagged (name : String) (tag : Decoder τ) (body : τ → Decoder α) : Decoder α
  | .record members ending => do
      match members.filter (·.1 == some name) with
      | [(_, reading)] =>
          let value ← tag reading
          body value (.record (members.filter (·.1 != some name)) ending)
      | _ => throw .mismatch
  | .list (first :: items) ending => do
      let value ← tag first
      body value (.list items ending)
  | _ => .error .mismatch

end Decoder

/-! ### Vertices -/

/-- Reads a number of an element. -/
def Element.idDecoder : Decoder Nat :=
  Decoder.below UInt64.size

/-- A range's tag with fields still to come. -/
structure RangeTag.Draft where
  role : Option RangeRole := none
  text : Option String := none
  kind : Option UInt32 := none
  fullSpan : Option (Option Span) := none

/-- The fields of a range's tag. -/
def RangeTag.fields : List (Decoder.Field RangeTag.Draft) :=
  [field "type" false (·.role) (fun draft value => { draft with role := some value })
      (Decoder.keptOneOf RangeRole.words),
    field "text" false (·.text) (fun draft value => { draft with text := some value }) Decoder.text,
    field "kind" false (·.kind) (fun draft value => { draft with kind := some value })
      Decoder.word32,
    field "fullRange" true (·.fullSpan) (fun draft value => { draft with fullSpan := some value })
      (Decoder.optional Span.decoder)]

/-- Reads a range's tag. -/
def RangeTag.decoder : Decoder RangeTag :=
  Decoder.record RangeTag.fields {} fun draft =>
    return ⟨← draft.role, ← draft.text, ← draft.kind, draft.fullSpan.join⟩

/-- A document vertex with fields still to come. -/
structure Vertex.DocumentDraft where
  uri : Option DocumentUri := none
  languageId : Option String := none
  kind : Option DocumentKind := none

/-- Reads the URI of a document. -/
def DocumentUri.decoder : Decoder DocumentUri := fun reading => do
  let text ← Decoder.text reading
  match DocumentUri.parse text with
  | .ok uri => return uri
  | .error _ => throw .mismatch

/-- The fields of a document vertex. -/
def Vertex.documentFields : List (Decoder.Field Vertex.DocumentDraft) :=
  [field "uri" false (·.uri) (fun draft value => { draft with uri := some value })
      DocumentUri.decoder,
    field "languageId" false (·.languageId)
      (fun draft value => { draft with languageId := some value }) Decoder.text,
    field "kind" false (·.kind) (fun draft value => { draft with kind := some value })
      (Decoder.keptOneOf DocumentKind.words)]

/-- A range vertex with fields still to come. -/
structure Vertex.RangeDraft where
  start : Option Position := none
  stop : Option Position := none
  tag : Option RangeTag := none

/-- The fields of a range vertex. -/
def Vertex.rangeFields : List (Decoder.Field Vertex.RangeDraft) :=
  [field "start" false (·.start) (fun draft value => { draft with start := some value })
      Position.decoder,
    field "end" false (·.stop) (fun draft value => { draft with stop := some value })
      Position.decoder,
    field "tag" false (·.tag) (fun draft value => { draft with tag := some value })
      RangeTag.decoder]

/-- A moniker with fields still to come. -/
structure Moniker.Draft where
  scheme : Option String := none
  identifier : Option String := none
  unique : Option Uniqueness := none
  kind : Option MonikerKind := none

/-- The fields of a moniker. -/
def Moniker.fields : List (Decoder.Field Moniker.Draft) :=
  [field "scheme" false (·.scheme) (fun draft value => { draft with scheme := some value })
      Decoder.text,
    field "identifier" false (·.identifier)
      (fun draft value => { draft with identifier := some value }) Decoder.text,
    field "unique" false (·.unique) (fun draft value => { draft with unique := some value })
      (Decoder.keptOneOf Uniqueness.words),
    field "kind" false (·.kind) (fun draft value => { draft with kind := some value })
      (Decoder.keptOneOf MonikerKind.words)]

/-- Reads what belongs to a vertex of the given kind. A range has no list form. -/
def Vertex.body : VertexLabel → Decoder Vertex
  | .document => Decoder.record Vertex.documentFields {} fun draft =>
      return .document (← draft.uri) (← draft.languageId) (← draft.kind)
  | .range => fun reading =>
      match reading with
      | .list .. => .error .mismatch
      | other =>
          Decoder.record Vertex.rangeFields {} (fun draft =>
            return .range ⟨← draft.start, ← draft.stop⟩ (← draft.tag)) other
  | .resultSet => fun reading =>
      match reading with
      | .record .. => .ok .resultSet
      | .list [] _ => .ok .resultSet
      | _ => .error .mismatch
  | .moniker => Decoder.record Moniker.fields {} fun draft =>
      return .moniker ⟨⟨← draft.identifier, ← draft.unique, ← draft.kind⟩, ← draft.scheme⟩

/-- The kinds of vertices with their words, in the order in which places count. -/
def VertexLabel.words : List (String × VertexLabel) :=
  [("document", .document), ("range", .range), ("resultSet", .resultSet), ("moniker", .moniker)]

/-- Reads a vertex, given how its label is read. -/
def Vertex.taggedDecoder (label : Decoder VertexLabel) : Decoder Vertex :=
  Decoder.tagged "label" label Vertex.body

/-- Reads a vertex. -/
def Vertex.decoder : Decoder Vertex :=
  Vertex.taggedDecoder (Decoder.word VertexLabel.words)

/-! ### Edges -/

/-- An edge with fields still to come. -/
structure Edge.Draft where
  label : Option EdgeLabel := none
  source : Option Nat := none
  target : Option (Option Nat) := none
  targets : Option (List Nat) := none

/-- The fields of an edge. -/
def Edge.fields : List (Decoder.Field Edge.Draft) :=
  [field "label" false (·.label) (fun draft value => { draft with label := some value })
      (Decoder.keptOneOf EdgeLabel.words),
    field "outV" false (·.source) (fun draft value => { draft with source := some value })
      Element.idDecoder,
    field "inV" true (·.target) (fun draft value => { draft with target := some value })
      (Decoder.optional Element.idDecoder),
    field "inVs" true (·.targets) (fun draft value => { draft with targets := some value })
      (Decoder.list Element.idDecoder)]

/-- Reads an edge. -/
def Edge.decoder : Decoder Edge :=
  Decoder.record Edge.fields {} fun draft =>
    return ⟨← draft.label, ← draft.source, draft.target.join, draft.targets.getD []⟩

/-! ### Elements -/

/-- The words for the two sorts of elements; the values say whether it is an edge. -/
def Payload.words : List (String × Bool) :=
  [("vertex", false), ("edge", true)]

/-- Reads a vertex or an edge, given how it is told which. -/
def Payload.taggedDecoder (isEdge : Decoder Bool) : Decoder Payload :=
  Decoder.tagged "type" isEdge fun edge reading =>
    if edge then (Edge.decoder reading).map .edge
    else (Vertex.taggedDecoder (Decoder.wordOrPlace VertexLabel.words) reading).map .vertex

/-- Reads a vertex or an edge. -/
def Payload.decoder : Decoder Payload :=
  Payload.taggedDecoder (Decoder.word Payload.words)

/-- How deep the members of an element may be nested. -/
def Element.depth : Nat := 127

/-- Goes through the members of an element. The number is read at once, everything else is
    kept. -/
def Element.gather : Option Nat → List (Option String × Reading) →
    List (Option String × Reading) → Except Fault (Option Nat × List (Option String × Reading))
  | id, kept, [] => .ok (id, kept.reverse)
  | _, _, (none, _) :: _ => .error .malformed
  | id, kept, (some key, reading) :: members =>
      if key = "id" then
        if id.isSome then .error .mismatch
        else do
          let number ← Element.idDecoder reading
          gather (some number) kept members
      else do
        reading.keep Element.depth
        gather id ((some key, reading) :: kept) members

/-- Reads an element. -/
def Element.decoder : Decoder Element
  | .record members ending => do
      let (id, kept) ← Element.gather none [] members
      Reading.passEnd ending
      let payload := Payload.taggedDecoder (Decoder.wordOrPlace Payload.words) (.record kept none)
      match id, payload with
      | some id, .ok payload => return ⟨id, payload⟩
      | _, _ => throw .mismatch
  | other => .error other.unexpected

/-- Reads the text of an element. -/
def Element.parse (text : String) : Except Error Element :=
  match (Page.ofText text).decode Element.decoder with
  | .ok element => .ok element
  | .error fault => .error (.json fault)

end MonikerIndex
