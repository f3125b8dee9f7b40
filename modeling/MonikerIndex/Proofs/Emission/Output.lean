import MonikerIndex.Graph.Output
import MonikerIndex.Proofs.Emission.WellFormed
import MonikerIndex.Proofs.Json.Elements

/-!
# The text of a graph read back

Both written forms of a graph carry its elements: the lines of the one form, and the items of the
array that is the other form. No written value holds a line break, so the line breaks of the first
form are those between elements.

What a run emits can be read back: paths of documents are made absolute, and an edge names nothing
but elements of the graph. The one thing left is that all numbers have sixty-four bits, which only
the size of the graph decides.
-/

namespace MonikerIndex

/-! ### Line breaks -/

namespace Json

theorem hexDigit_ne_newline : ∀ n < 16, hexDigit n ≠ '\n' := by
  decide

theorem newline_notMem_escape (c : Char) : '\n' ∉ escape c := by
  unfold escape
  split_ifs with hquote hback hline htab hreturn hback' hfeed hcontrol
  · decide
  · decide
  · decide
  · decide
  · decide
  · decide
  · decide
  · have hhigh := (hexDigit_ne_newline (c.toNat / 16) (by omega)).symm
    have hlow := (hexDigit_ne_newline (c.toNat % 16) (by omega)).symm
    simp [hhigh, hlow]
  · simpa using Ne.symm hline

theorem newline_notMem_quote (s : String) : '\n' ∉ quote s := by
  simp [quote, newline_notMem_escape]

theorem newline_notMem_decimal (n : Nat) : '\n' ∉ decimal n := by
  intro hmem
  exact absurd (Nat.isDigit_of_mem_toDigits (by decide) (by decide) hmem) (by decide)

mutual

theorem newline_notMem_compactChars : ∀ value : Json, '\n' ∉ value.compactChars
  | .null => by decide
  | .bool true => by decide
  | .bool false => by decide
  | .nat n => newline_notMem_decimal n
  | .text s => newline_notMem_quote s
  | .list [] => by decide
  | .list (item :: items) => by
      simp [compactChars, newline_notMem_compactChars item, newline_notMem_compactItems items]
  | .record [] => by decide
  | .record ((key, value) :: members) => by
      simp [compactChars, newline_notMem_quote key, newline_notMem_compactChars value,
        newline_notMem_compactMembers members]

theorem newline_notMem_compactItems : ∀ items : List Json, '\n' ∉ compactItems items
  | [] => by simp [compactItems]
  | item :: items => by
      simp [compactItems, newline_notMem_compactChars item, newline_notMem_compactItems items]

theorem newline_notMem_compactMembers :
    ∀ members : List (String × Json), '\n' ∉ compactMembers members
  | [] => by simp [compactMembers]
  | (key, value) :: members => by
      simp [compactMembers, newline_notMem_quote key, newline_notMem_compactChars value,
        newline_notMem_compactMembers members]

end

end Json

/-! ### Elements of a run -/

namespace Layout

variable {layout : Layout} {program : Program} {options : IndexOptions} {table : SymbolTable}
  {occurrences : List Occurrence} {graph : Graph}

theorem mem_links_of_mem {id : Nat} {edge : Edge}
    (hmem : ⟨id, .edge edge⟩ ∈ graph.elements.toList) : edge ∈ graph.links edge.label := by
  rw [Graph.links_eq, linksIn, List.mem_filterMap]
  exact ⟨⟨id, .edge edge⟩, hmem, by simp [Element.edge?]⟩

theorem le_lastId_of_vertex (hgrows : Graph.empty.Grows (layout.elements options) graph)
    {label : VertexLabel} {id : Nat} (hid : id ∈ graph.vertices label) : id ≤ graph.lastId := by
  rw [hgrows.vertices_eq, mem_verticesIn_iff] at hid
  obtain ⟨node, -, hmem⟩ := hid
  exact (hgrows.bounds hmem).2

theorem le_lastId_of_edge (hpresents : layout.Presents program options table occurrences)
    (hgrows : Graph.empty.Grows (layout.elements options) graph) {id : Nat} {edge : Edge}
    (hmem : ⟨id, .edge edge⟩ ∈ graph.elements.toList) :
    ∀ endpoint ∈ edge.endpoints, endpoint ≤ graph.lastId := by
  have hedge := mem_links_of_mem hmem
  have hone {source target : VertexLabel} (hsource : edge.source ∈ graph.vertices source)
      (htarget : ∃ id ∈ graph.vertices target, edge.allTargets = [id]) :
      ∀ endpoint ∈ edge.endpoints, endpoint ≤ graph.lastId := by
    obtain ⟨id, hid, heq⟩ := htarget
    rw [Edge.endpoints, heq]
    simp [le_lastId_of_vertex hgrows hsource, le_lastId_of_vertex hgrows hid]
  cases hlabel : edge.label with
  | next =>
    rw [hlabel] at hedge
    obtain ⟨hsource, htarget⟩ := next_ends hpresents hgrows hedge
    exact hone hsource htarget
  | moniker =>
    rw [hlabel] at hedge
    obtain ⟨hsource, htarget⟩ := moniker_ends hpresents hgrows hedge
    exact hone hsource htarget
  | attach =>
    rw [hlabel] at hedge
    obtain ⟨hsource, htarget⟩ := attach_ends hpresents hgrows hedge
    exact hone hsource htarget
  | contains =>
    rw [hlabel] at hedge
    obtain ⟨hsource, -, htargets⟩ := contains_ends hgrows hedge
    rw [Edge.endpoints, List.forall_mem_cons]
    exact ⟨le_lastId_of_vertex hgrows hsource,
      fun target htarget => le_lastId_of_vertex hgrows (htargets target htarget)⟩

end Layout

/-- All that a run emits can be read back, as long as the numbers have sixty-four bits. -/
theorem Program.writable_of_index {program : Program} {options : IndexOptions} {index : Index}
    (h : program.index options = .ok index) (hsize : index.graph.lastId < UInt64.size)
    {element : Element} (hmem : element ∈ index.graph.elements.toList) : element.Writable := by
  obtain ⟨table, occurrences, layout, -, -, hpresents, hgrows⟩ := exists_layout h
  have helement : element ∈ layout.elements options := by
    rw [hgrows.elements] at hmem
    exact hmem
  have hid : element.id < UInt64.size := Nat.lt_of_le_of_lt (hgrows.bounds helement).2 hsize
  refine ⟨hid, ?_⟩
  obtain ⟨id, payload⟩ := element
  cases payload with
  | edge connection =>
    intro endpoint hendpoint
    exact Nat.lt_of_le_of_lt (Layout.le_lastId_of_edge hpresents hgrows hmem endpoint hendpoint)
      hsize
  | vertex node =>
    cases node with
    | document uri languageId kind =>
      -- documents are named by paths that have been made absolute
      obtain ⟨chapter, -, -, rfl, -⟩ := Layout.document_mem_elements_iff.mp helement
      exact DocumentUri.head?_ofPath chapter.document.path
    | _ => trivial

/-! ### Texts -/

theorem Graph.render_line (graph : Graph) : graph.render .line =
    String.join ((graph.elements.toList.map (·.toJson.compact)).map (· ++ "\n")) := by
  rw [← String.toList_inj]
  simp [Graph.render, Graph.lines, Json.compact, String.toList_join, List.flatMap_map]

theorem Graph.render_json (graph : Graph) : graph.render .json = graph.toJson.compact ++ "\n" := by
  rw [← String.toList_inj]
  simp [Graph.render, Json.compact]

theorem Graph.decode_json {graph : Graph}
    (h : ∀ element ∈ graph.elements.toList, element.Writable) {gap : List Char}
    (hgap : Json.Blank gap) :
    (Page.ofText (String.ofList (graph.toJson.compactChars ++ gap))).decode
      (Decoder.list Element.decoder) = .ok graph.elements.toList := by
  have hbounded : graph.toJson.Bounded := by
    rw [Graph.toJson, Json.ofList, Json.Bounded, Json.boundedItems_map]
    exact fun element hmem => Element.bounded_toJson (h element hmem)
  exact Page.decode_of_written (Json.written_compactChars _ hbounded) hgap
    (Decoder.list_ofList fun element hmem => Element.decoder_toJson (h element hmem))

/-- The two written forms of a graph that a run gives are read back as its elements, in order: each
    line as one element, and the array as all of them. -/
theorem Program.index_render {program : Program} {options : IndexOptions} {index : Index}
    (h : program.index options = .ok index) (hsize : index.graph.lastId < UInt64.size) :
    (∃ lines : List String,
      index.graph.render .line = String.join (lines.map (· ++ "\n")) ∧
      (∀ line ∈ lines, '\n' ∉ line.toList) ∧
      List.Forall₂ (fun line element => Element.parse line = .ok element) lines
        index.graph.elements.toList) ∧
    ∃ array : String,
      index.graph.render .json = array ++ "\n" ∧ '\n' ∉ array.toList ∧
      (Page.ofText array).decode (Decoder.list Element.decoder) =
        .ok index.graph.elements.toList ∧
      (Page.ofText (array ++ "\n")).decode (Decoder.list Element.decoder) =
        .ok index.graph.elements.toList := by
  have hwritable : ∀ element ∈ index.graph.elements.toList, element.Writable :=
    fun element hmem => writable_of_index h hsize hmem
  refine ⟨⟨index.graph.elements.toList.map (·.toJson.compact), Graph.render_line _, ?_, ?_⟩,
    index.graph.toJson.compact, Graph.render_json _, ?_, ?_, ?_⟩
  · intro line hline
    obtain ⟨element, -, rfl⟩ := List.mem_map.mp hline
    rw [Json.compact, String.toList_ofList]
    exact Json.newline_notMem_compactChars _
  · rw [List.forall₂_map_left_iff, List.forall₂_same]
    intro element hmem
    exact Element.parse_of_writable (hwritable element hmem)
  · rw [Json.compact, String.toList_ofList]
    exact Json.newline_notMem_compactChars _
  · have harray := Graph.decode_json hwritable Json.blank_nil
    rwa [List.append_nil] at harray
  · have htext := Graph.decode_json hwritable (Json.blank_newline 0)
    rwa [← Graph.render_json]

/-- The shop under a scheme with a line break and with characters that are escaped. -/
theorem Program.index_render_shop : ∃ index, shop.index { scheme := "a\n\"b\\c" } = .ok index ∧
    index.graph.lastId = 27 ∧ ∃ lines : List String,
      index.graph.render .line = String.join (lines.map (· ++ "\n")) ∧
      (∀ line ∈ lines, '\n' ∉ line.toList) ∧
      List.Forall₂ (fun line element => Element.parse line = .ok element) lines
        index.graph.elements.toList := by
  have hlast : (shop.index { scheme := "a\n\"b\\c" }).toOption.map (·.graph.lastId) = some 27 := by
    decide +kernel
  obtain ⟨index, hindex, hlast⟩ := Option.map_eq_some_iff.mp hlast
  rw [toOption_eq_some_iff] at hindex
  have hsize : index.graph.lastId < UInt64.size := by
    rw [hlast]
    decide
  exact ⟨index, hindex, hlast, (index_render hindex hsize).1⟩

end MonikerIndex
