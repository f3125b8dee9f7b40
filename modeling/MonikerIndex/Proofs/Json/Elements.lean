import MonikerIndex.Proofs.DocumentUri
import MonikerIndex.Proofs.Json.Facts

/-!
# Elements read back

An element whose numbers have sixty-four bits, and whose path is absolute if it is a document, is
read back from its text. Every element that is read has these properties, whatever text it was read
from: so reading, writing and reading again gives the same element.
-/

namespace MonikerIndex

open Decoder (below_nat exists_body_of_tagged exists_draft_of_record keptOneOf_text list_ofList
  tagged_ofMembers wordOrPlace_text)

theorem RangeRole.lookup_word (role : RangeRole) :
    RangeRole.words.lookup role.word = some role := by
  cases role <;> rfl

theorem Uniqueness.lookup_word (unique : Uniqueness) :
    Uniqueness.words.lookup unique.word = some unique := by
  cases unique <;> rfl

theorem MonikerKind.lookup_word (kind : MonikerKind) :
    MonikerKind.words.lookup kind.word = some kind := by
  cases kind <;> rfl

theorem VertexLabel.lookup_word (label : VertexLabel) :
    VertexLabel.words.lookup label.word = some label := by
  cases label <;> rfl

theorem EdgeLabel.lookup_word (label : EdgeLabel) :
    EdgeLabel.words.lookup label.word = some label := by
  cases label <;> rfl

/-! ### Vertices -/

theorem RangeTag.decoder_toJson (tag : RangeTag) :
    RangeTag.decoder (.ofJson tag.toJson) = .ok tag := by
  obtain ⟨role, text, kind, fullSpan⟩ := tag
  have hrole := keptOneOf_text (RangeRole.lookup_word role)
  cases fullSpan with
  | none => simp [RangeTag.toJson, RangeTag.decoder, RangeTag.fields, hrole]
  | some span =>
    have hspan := Span.optional_toJson (some span)
    rw [Json.ofOption] at hspan
    simp [RangeTag.toJson, RangeTag.decoder, RangeTag.fields, hrole, hspan]

/-- What an element must satisfy to be read back: a document has an absolute path, and the numbers
    that an edge connects have sixty-four bits. -/
def Payload.Writable : Payload → Prop
  | .vertex (.document uri _ _) => uri.path.toList.head? = some '/'
  | .vertex _ => True
  | .edge connection => ∀ id ∈ connection.endpoints, id < UInt64.size

/-- The same of an element, whose own number has sixty-four bits. -/
def Element.Writable (element : Element) : Prop :=
  element.id < UInt64.size ∧ element.payload.Writable

instance (payload : Payload) : Decidable payload.Writable :=
  match payload with
  | .vertex (.document uri _ _) =>
      inferInstanceAs (Decidable (uri.path.toList.head? = some '/'))
  | .vertex (.range ..) | .vertex .resultSet | .vertex (.moniker _) => isTrue trivial
  | .edge connection => inferInstanceAs (Decidable (∀ id ∈ connection.endpoints, id < UInt64.size))

instance (element : Element) : Decidable element.Writable :=
  inferInstanceAs (Decidable (_ ∧ _))

theorem Vertex.body_members {vertex : Vertex} (h : (Payload.vertex vertex).Writable) :
    Vertex.body vertex.label (.record (Reading.ofMembers vertex.members.tail) none) =
      .ok vertex := by
  cases vertex with
  | document uri languageId kind =>
    have huri : DocumentUri.decoder (.text uri.text) = .ok uri := by
      simp [DocumentUri.decoder, DocumentUri.parse_text h, pure, Except.pure]
    have hkind := keptOneOf_text (DocumentKind.lookup_word kind)
    simp [Vertex.members, Vertex.label, Vertex.body, Vertex.documentFields, huri, hkind]
  | range span tag =>
    simp [Vertex.members, Vertex.label, Vertex.body, Vertex.rangeFields, RangeTag.decoder_toJson]
  | resultSet => rfl
  | moniker name =>
    have hunique := keptOneOf_text (Uniqueness.lookup_word name.unique)
    have hkind := keptOneOf_text (MonikerKind.lookup_word name.kind)
    simp [Vertex.members, Moniker.members, Vertex.label, Vertex.body, Moniker.fields, hunique,
      hkind]

theorem Vertex.taggedDecoder_members {vertex : Vertex} (h : (Payload.vertex vertex).Writable) :
    Vertex.taggedDecoder (Decoder.wordOrPlace VertexLabel.words)
      (.record (Reading.ofMembers vertex.members) none) = .ok vertex := by
  have hlabel : ∀ member ∈ vertex.members.tail, member.1 ≠ "label" := by
    cases vertex <;> simp [Vertex.members, Moniker.members]
  have hmembers : vertex.members = ("label", .text vertex.label.word) :: vertex.members.tail := rfl
  rw [hmembers, Vertex.taggedDecoder, tagged_ofMembers hlabel, Reading.ofJson,
    wordOrPlace_text (VertexLabel.lookup_word vertex.label), ok_bind, Vertex.body_members h]

/-! ### Edges -/

theorem Edge.decoder_members {edge : Edge} (h : (Payload.edge edge).Writable) :
    Edge.decoder (.record (Reading.ofMembers edge.members) none) = .ok edge := by
  obtain ⟨label, source, target, targets⟩ := edge
  have hlabel := keptOneOf_text (EdgeLabel.lookup_word label)
  have hid (id : Nat) (hmem : id ∈ Edge.endpoints ⟨label, source, target, targets⟩) :
      Element.idDecoder (.nat id) = .ok id :=
    below_nat (h id hmem)
  have hsource := hid source (by simp [Edge.endpoints])
  have htargets : Decoder.list Element.idDecoder (.ofJson (Json.ofList .nat targets)) =
      .ok targets :=
    list_ofList fun id hmem => hid id (by simp [Edge.endpoints, Edge.allTargets, hmem])
  -- A target that is absent and a list that is empty are not written: four forms of the record.
  cases target with
  | none =>
    by_cases hempty : targets = []
    · simp [Edge.members, Edge.decoder, Edge.fields, hempty, hlabel, hsource]
    · simp [Edge.members, Edge.decoder, Edge.fields, hempty, hlabel, hsource, htargets]
  | some id =>
    have hid : Decoder.optional Element.idDecoder (.nat id) = .ok (some id) := by
      simp [Decoder.optional, hid id (by simp [Edge.endpoints, Edge.allTargets])]
    by_cases hempty : targets = []
    · simp [Edge.members, Edge.decoder, Edge.fields, hempty, hlabel, hsource, hid]
    · simp [Edge.members, Edge.decoder, Edge.fields, hempty, hlabel, hsource, hid, htargets]

/-! ### Members -/

/-- A member that is taken neither for an element's number nor for its sort, and that can be
    kept. -/
def Element.Inner (member : String × Json) : Prop :=
  member.1 ≠ "type" ∧ member.1 ≠ "id" ∧ member.2.nesting ≤ 3

theorem RangeTag.nesting_toJson (tag : RangeTag) : tag.toJson.nesting ≤ 3 := by
  obtain ⟨role, text, kind, fullSpan⟩ := tag
  cases fullSpan with
  | none => simp [RangeTag.toJson]
  | some span => simp [RangeTag.toJson, Span.toJson, Position.toJson]

theorem Vertex.inner_of_mem_members (vertex : Vertex) :
    ∀ member ∈ vertex.members, Element.Inner member := by
  cases vertex with
  | document uri languageId kind => simp [Vertex.members, Element.Inner]
  | range span tag =>
    simp [Vertex.members, Element.Inner, Position.toJson, RangeTag.nesting_toJson]
  | resultSet => simp [Vertex.members, Element.Inner]
  | moniker name => simp [Vertex.members, Moniker.members, Element.Inner]

/-- Absent targets are left out, so what is asked of members is asked of those that are there. -/
theorem Edge.forall_mem_members {P : String × Json → Prop} {edge : Edge}
    (hlabel : P ("label", .text edge.label.word)) (hsource : P ("outV", .nat edge.source))
    (htarget : ∀ id ∈ edge.target, P ("inV", .nat id))
    (htargets : P ("inVs", Json.ofList .nat edge.targets)) : ∀ member ∈ edge.members, P member := by
  intro member hmem
  rw [Edge.members, List.mem_append, List.mem_append] at hmem
  rcases hmem with (hmem | hmem) | hmem
  · simp only [List.mem_cons, List.not_mem_nil, or_false] at hmem
    rcases hmem with rfl | rfl
    · exact hlabel
    · exact hsource
  · obtain ⟨id, hid, rfl⟩ := Option.map_eq_some_iff.mp (Option.mem_toList.mp hmem)
    exact htarget id hid
  · split_ifs at hmem with hempty
    · cases hmem
    · rw [List.mem_singleton.mp hmem]
      exact htargets

theorem Edge.inner_of_mem_members (edge : Edge) :
    ∀ member ∈ edge.members, Element.Inner member := by
  apply Edge.forall_mem_members
  · simp [Element.Inner]
  · simp [Element.Inner]
  · simp [Element.Inner]
  · simp [Element.Inner, Json.ofList, Json.nestingOfItems_map_nat]

/-! ### Elements -/

theorem Payload.taggedDecoder_members {payload : Payload} (h : payload.Writable) :
    Payload.taggedDecoder (Decoder.wordOrPlace Payload.words)
      (.record (Reading.ofMembers payload.members) none) = .ok payload := by
  cases payload with
  | vertex node =>
    have htype := fun member hmember => (node.inner_of_mem_members member hmember).1
    have hword : Payload.words.lookup "vertex" = some false := rfl
    rw [Payload.members, Payload.taggedDecoder, tagged_ofMembers htype, Reading.ofJson,
      wordOrPlace_text hword, ok_bind]
    simp [Vertex.taggedDecoder_members h]
  | edge connection =>
    have htype := fun member hmember => (connection.inner_of_mem_members member hmember).1
    have hword : Payload.words.lookup "edge" = some true := rfl
    rw [Payload.members, Payload.taggedDecoder, tagged_ofMembers htype, Reading.ofJson,
      wordOrPlace_text hword, ok_bind]
    simp [Edge.decoder_members h]

/-- All members are kept, in their order, where none is the number. -/
theorem Element.gather_ofMembers (id : Option Nat) (kept : List (Option String × Reading))
    {members : List (String × Json)}
    (h : ∀ member ∈ members, member.1 ≠ "id" ∧ member.2.nesting < Element.depth) :
    Element.gather id kept (Reading.ofMembers members) =
      .ok (id, kept.reverse ++ Reading.ofMembers members) := by
  induction members generalizing kept with
  | nil => simp [Element.gather]
  | cons member members ih =>
    obtain ⟨hid, hdepth⟩ := h member List.mem_cons_self
    have hrest := fun other hother => h other (List.mem_cons_of_mem member hother)
    simp [Element.gather, hid, Reading.keep_ofJson member.2 Element.depth hdepth, ih _ hrest]

theorem Payload.keepable_of_mem_members (payload : Payload) :
    ∀ member ∈ payload.members, member.1 ≠ "id" ∧ member.2.nesting < Element.depth := by
  have hinner {member : String × Json} (h : Element.Inner member) :
      member.1 ≠ "id" ∧ member.2.nesting < Element.depth :=
    ⟨h.2.1, Nat.lt_of_le_of_lt h.2.2 (by decide)⟩
  cases payload with
  | vertex node =>
    rw [Payload.members, List.forall_mem_cons]
    exact ⟨by simp [Element.depth],
      fun member hmem => hinner (node.inner_of_mem_members member hmem)⟩
  | edge connection =>
    rw [Payload.members, List.forall_mem_cons]
    exact ⟨by simp [Element.depth],
      fun member hmem => hinner (connection.inner_of_mem_members member hmem)⟩

theorem Element.decoder_toJson {element : Element} (h : element.Writable) :
    Element.decoder (.ofJson element.toJson) = .ok element := by
  obtain ⟨hid, hpayload⟩ := h
  have hnumber : Element.idDecoder (.nat element.id) = .ok element.id := below_nat hid
  have hkept := Element.gather_ofMembers (some element.id) []
    element.payload.keepable_of_mem_members
  have hgather :
      Element.gather none [] (Reading.ofMembers (("id", .nat element.id) ::
        element.payload.members)) =
          .ok (some element.id, Reading.ofMembers element.payload.members) := by
    simp [Element.gather, hnumber, hkept]
  simp only [Element.toJson, Reading.ofJson, Element.decoder, hgather, ok_bind, Reading.passEnd,
    Payload.taggedDecoder_members hpayload]
  rfl

theorem Vertex.boundedMembers (vertex : Vertex) : Json.BoundedMembers vertex.members := by
  cases vertex with
  | range span tag =>
    obtain ⟨role, text, kind, fullSpan⟩ := tag
    cases fullSpan <;> simp [Vertex.members, RangeTag.toJson]
  | moniker name => simp [Vertex.members, Moniker.members]
  | _ => simp [Vertex.members]

theorem Edge.boundedMembers {edge : Edge} (h : (Payload.edge edge).Writable) :
    Json.BoundedMembers edge.members := by
  have hlt : ∀ id ∈ edge.endpoints, id < UInt64.size := h
  simp only [Edge.endpoints, Edge.allTargets, List.forall_mem_cons, List.forall_mem_append,
    Option.mem_toList] at hlt
  obtain ⟨hsource, htarget, htargets⟩ := hlt
  rw [Json.boundedMembers_iff]
  apply Edge.forall_mem_members
  · simp
  · simpa using hsource
  · simpa using htarget
  · simpa [Json.ofList] using htargets

theorem Element.bounded_toJson {element : Element} (h : element.Writable) :
    element.toJson.Bounded := by
  obtain ⟨id, payload⟩ := element
  obtain ⟨hid, hpayload⟩ := h
  cases payload with
  | vertex node => exact ⟨hid, trivial, node.boundedMembers⟩
  | edge connection => exact ⟨hid, trivial, Edge.boundedMembers hpayload⟩

/-! ### What is read can be written -/

theorem Element.lt_of_idDecoder (reading : Reading) (id : Nat)
    (h : Element.idDecoder reading = .ok id) : id < UInt64.size :=
  Decoder.lt_of_below h

structure Edge.Draft.Bounded (draft : Edge.Draft) : Prop where
  source : ∀ id ∈ draft.source, id < UInt64.size
  target : ∀ target ∈ draft.target, ∀ id ∈ target, id < UInt64.size
  targets : ∀ targets ∈ draft.targets, ∀ id ∈ targets, id < UInt64.size

theorem Edge.Draft.Bounded.fill {field : Decoder.Field Edge.Draft} (hfield : field ∈ Edge.fields)
    (draft : Edge.Draft) (reading : Reading) (draft' : Edge.Draft) (hdraft : draft.Bounded)
    (h : field.fill draft reading = .ok draft') : draft'.Bounded := by
  simp only [Edge.fields, List.mem_cons, List.not_mem_nil, or_false] at hfield
  rcases hfield with rfl | rfl | rfl | rfl
  · obtain ⟨label, -, rfl⟩ := map_eq_ok_iff.mp h
    exact ⟨hdraft.source, hdraft.target, hdraft.targets⟩
  · obtain ⟨source, hsource, rfl⟩ := map_eq_ok_iff.mp h
    have hlt := Element.lt_of_idDecoder reading source hsource
    exact ⟨by simpa using hlt, hdraft.target, hdraft.targets⟩
  · obtain ⟨target, htarget, rfl⟩ := map_eq_ok_iff.mp h
    have hlt := Decoder.forall_mem_of_optional Element.lt_of_idDecoder htarget
    exact ⟨hdraft.source, by simpa using hlt, hdraft.targets⟩
  · obtain ⟨targets, htargets, rfl⟩ := map_eq_ok_iff.mp h
    have hlt := Decoder.forall_mem_of_list Element.lt_of_idDecoder htargets
    exact ⟨hdraft.source, hdraft.target, by simpa using hlt⟩

theorem Edge.writable_of_decoder {reading : Reading} {edge : Edge}
    (h : Edge.decoder reading = .ok edge) : (Payload.edge edge).Writable := by
  obtain ⟨draft, hdraft, hbuild⟩ := exists_draft_of_record
    (fun _ hfield => Edge.Draft.Bounded.fill hfield) (by constructor <;> simp) h
  simp only [Option.bind_eq_bind, Option.bind_eq_some_iff, Option.pure_def, Option.some.injEq]
    at hbuild
  obtain ⟨label, -, source, hsource, rfl⟩ := hbuild
  intro id hid
  simp only [Edge.endpoints, Edge.allTargets, List.mem_cons, List.mem_append, Option.mem_toList]
    at hid
  rcases hid with rfl | hid | hid
  · exact hdraft.source id hsource
  · exact hdraft.target (some id) (Option.join_eq_some_iff.mp hid) id rfl
  · cases htargets : draft.targets with
    | none =>
      rw [htargets] at hid
      cases hid
    | some targets =>
      rw [htargets] at hid
      exact hdraft.targets targets htargets id hid

theorem DocumentUri.head?_path_of_decoder {reading : Reading} {uri : DocumentUri}
    (h : DocumentUri.decoder reading = .ok uri) : uri.path.toList.head? = some '/' := by
  obtain ⟨text, -, h⟩ := bind_eq_ok_iff.mp h
  split at h
  · next parsed hparse =>
    cases h
    exact DocumentUri.head?_path_of_parse hparse
  · cases h

theorem Vertex.DocumentDraft.head?_of_fill {field : Decoder.Field Vertex.DocumentDraft}
    (hfield : field ∈ Vertex.documentFields) (draft : Vertex.DocumentDraft) (reading : Reading)
    (draft' : Vertex.DocumentDraft)
    (hdraft : ∀ uri ∈ draft.uri, uri.path.toList.head? = some '/')
    (h : field.fill draft reading = .ok draft') :
    ∀ uri ∈ draft'.uri, uri.path.toList.head? = some '/' := by
  simp only [Vertex.documentFields, List.mem_cons, List.not_mem_nil, or_false] at hfield
  rcases hfield with rfl | rfl | rfl
  · obtain ⟨uri, huri, rfl⟩ := map_eq_ok_iff.mp h
    simpa using DocumentUri.head?_path_of_decoder huri
  · obtain ⟨languageId, -, rfl⟩ := map_eq_ok_iff.mp h
    exact hdraft
  · obtain ⟨kind, -, rfl⟩ := map_eq_ok_iff.mp h
    exact hdraft

theorem Vertex.writable_of_body {label : VertexLabel} {reading : Reading} {vertex : Vertex}
    (h : Vertex.body label reading = .ok vertex) : (Payload.vertex vertex).Writable := by
  cases label with
  | document =>
    obtain ⟨draft, hdraft, hbuild⟩ := exists_draft_of_record
      (fun _ hfield => Vertex.DocumentDraft.head?_of_fill hfield) (by simp) h
    simp only [Option.bind_eq_bind, Option.bind_eq_some_iff, Option.pure_def, Option.some.injEq]
      at hbuild
    obtain ⟨uri, huri, languageId, -, kind, -, rfl⟩ := hbuild
    exact hdraft uri huri
  | range =>
    simp only [Vertex.body] at h
    split at h
    · cases h
    · obtain ⟨draft, -, hbuild⟩ := exists_draft_of_record (P := fun _ => True) (by simp) trivial h
      simp only [Option.bind_eq_bind, Option.bind_eq_some_iff, Option.pure_def, Option.some.injEq]
        at hbuild
      obtain ⟨_, -, _, -, _, -, rfl⟩ := hbuild
      trivial
  | resultSet =>
    simp only [Vertex.body] at h
    split at h <;> cases h <;> trivial
  | moniker =>
    obtain ⟨draft, -, hbuild⟩ := exists_draft_of_record (P := fun _ => True) (by simp) trivial h
    simp only [Option.bind_eq_bind, Option.bind_eq_some_iff, Option.pure_def, Option.some.injEq]
      at hbuild
    obtain ⟨_, -, _, -, _, -, _, -, rfl⟩ := hbuild
    trivial

theorem Payload.writable_of_taggedDecoder {isEdge : Decoder Bool} {reading : Reading}
    {payload : Payload} (h : Payload.taggedDecoder isEdge reading = .ok payload) :
    payload.Writable := by
  obtain ⟨edge, rest, h⟩ := exists_body_of_tagged h
  cases edge with
  | true =>
    obtain ⟨connection, hconnection, rfl⟩ := map_eq_ok_iff.mp h
    exact Edge.writable_of_decoder hconnection
  | false =>
    obtain ⟨node, hnode, rfl⟩ := map_eq_ok_iff.mp h
    obtain ⟨label, rest, hbody⟩ := exists_body_of_tagged hnode
    exact Vertex.writable_of_body hbody

theorem Element.lt_of_gather {id id' : Option Nat}
    {kept kept' members : List (Option String × Reading)}
    (hid : ∀ n ∈ id, n < UInt64.size) (h : Element.gather id kept members = .ok (id', kept')) :
    ∀ n ∈ id', n < UInt64.size := by
  -- The number comes from `idDecoder` in the fourth case only, and a second one is an error.
  fun_induction Element.gather id kept members with
  | case1 id kept =>
    cases h
    exact hid
  | case2 => cases h
  | case3 => cases h
  | case4 id kept reading members hnone ih =>
    obtain ⟨number, hnumber, h⟩ := bind_eq_ok_iff.mp h
    have hlt := Element.lt_of_idDecoder reading number hnumber
    exact ih number (by simpa using hlt) h
  | case5 id kept key reading members hkey ih =>
    obtain ⟨_, _, h⟩ := bind_eq_ok_iff.mp h
    exact ih hid h

theorem Element.writable_of_decoder {reading : Reading} {element : Element}
    (h : Element.decoder reading = .ok element) : element.Writable := by
  cases reading with
  | record members ending =>
    obtain ⟨⟨id, kept⟩, hgather, h⟩ := bind_eq_ok_iff.mp h
    obtain ⟨_, _, h⟩ := bind_eq_ok_iff.mp h
    dsimp only at h
    split at h
    · next id payload hpayload _ =>
      cases h
      exact ⟨Element.lt_of_gather (by simp) hgather id rfl,
        Payload.writable_of_taggedDecoder hpayload⟩
    · cases h
  | _ => cases h

/-! ### Texts -/

theorem Element.parse_of_written {element : Element} (h : element.Writable) {chars : List Char}
    (hchars : Json.Written element.toJson chars) :
    Element.parse (String.ofList chars) = .ok element := by
  have hpage := Page.decode_of_written hchars Json.blank_nil (Element.decoder_toJson h)
  rw [List.append_nil] at hpage
  rw [Element.parse, hpage]

theorem Element.parse_of_writable {element : Element} (h : element.Writable) :
    Element.parse element.toJson.compact = .ok element :=
  Element.parse_of_written h (Json.written_compactChars _ (Element.bounded_toJson h))

theorem Element.writable_of_parse {text : String} {element : Element}
    (h : Element.parse text = .ok element) : element.Writable := by
  unfold Element.parse at h
  split at h
  · next parsed hpage =>
    cases h
    exact Element.writable_of_decoder (Page.decode_eq_ok_iff.mp hpage).1
  · cases h

/-- An element is read back from its text if its numbers have sixty-four bits and its path, if it
    has one, is absolute. Whatever text an element was read from, it is read back from its own text
    too, which is the one text that writing gives from then on. -/
theorem Element.parse_compact (element : Element) :
    (Element.parse element.toJson.compact = .ok element ↔ element.Writable) ∧
      ∀ text, Element.parse text = .ok element →
        Element.parse element.toJson.compact = .ok element ∧
          (Element.parse element.toJson.compact).map (·.toJson.compact) =
            .ok element.toJson.compact := by
  refine ⟨⟨Element.writable_of_parse, Element.parse_of_writable⟩, ?_⟩
  intro text htext
  have hparse := Element.parse_of_writable (Element.writable_of_parse htext)
  refine ⟨hparse, ?_⟩
  rw [hparse]
  rfl

/-- A document whose path needs escapes of both kinds, one inside the other. -/
def Element.awkwardDocument : Element :=
  ⟨18446744073709551615, .vertex (.document ⟨"/a%20b #?\"\\\n%2525/é𝄞"⟩ "x\ty" .declaration)⟩

/-- An edge with a target of each sort. -/
def Element.awkwardEdge : Element :=
  ⟨3, .edge ⟨.attach, 1, some 18446744073709551615, [2, 2]⟩⟩

/-- The edge is read from a text that writing does not give. -/
theorem Element.parse_compact_awkward :
    awkwardDocument.Writable ∧
      Element.parse awkwardDocument.toJson.compact = .ok awkwardDocument ∧
      ∃ text, Element.parse text = .ok awkwardEdge ∧ text ≠ awkwardEdge.toJson.compact ∧
        Element.parse awkwardEdge.toJson.compact = .ok awkwardEdge := by
  have hdocument : awkwardDocument.Writable := by decide +kernel
  have hedge : (Element.parse (" \x7b\"label\":\"\\u0061ttach\", \"inVs\":[2,2], \"none\":-1e3," ++
      "\"inV\":18446744073709551615, \"type\":\"edge\", \"id\":3, \"outV\":1\x7d\n")).toOption =
        some awkwardEdge := by
    decide +kernel
  rw [toOption_eq_some_iff] at hedge
  exact ⟨hdocument, (Element.parse_compact awkwardDocument).1.mpr hdocument, _, hedge,
    by decide +kernel, ((Element.parse_compact awkwardEdge).2 _ hedge).1⟩

end MonikerIndex
