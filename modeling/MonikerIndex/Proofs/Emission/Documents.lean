import MonikerIndex.Proofs.DocumentUri
import MonikerIndex.Proofs.Emission.Mentions

/-!
# Documents and their URIs

A run refuses a program that reports one path twice, and it compares paths as they are reported. The
URI of a document has `/` for every separator and one at its front, so it is the same for paths that
differ in nothing else (`DocumentUri.ofPath_eq_iff`). Escapes play no part in this, as they can be
undone.

Main statement: the documents of a graph have different URIs exactly if no two reported paths
coincide in this way (`index_documentsDistinct_iff`).
-/

namespace MonikerIndex

/-! ### Paths with one URI -/

/-- Whether two paths are equal up to the kind of their separators and up to a separator that one of
    them lacks at its front. -/
def Path.Coincide (path other : String) : Prop :=
  slashes path.toList = slashes other.toList ∨
    ((slashes path.toList).head? ≠ some '/' ∧
      '/' :: slashes path.toList = slashes other.toList) ∨
    ((slashes other.toList).head? ≠ some '/' ∧
      slashes path.toList = '/' :: slashes other.toList)

instance (path other : String) : Decidable (Path.Coincide path other) := by
  unfold Path.Coincide
  infer_instance

theorem Path.Coincide.symm {path other : String} (h : Path.Coincide path other) :
    Path.Coincide other path := by
  rcases h with heq | ⟨hno, heq⟩ | ⟨hno, heq⟩
  · exact Or.inl heq.symm
  · exact Or.inr (Or.inr ⟨hno, heq.symm⟩)
  · exact Or.inr (Or.inl ⟨hno, heq.symm⟩)

namespace DocumentUri

variable {path other : String}

theorem ofPath_eq_iff_of_slash (hpath : (Path.slashes path.toList).head? = some '/')
    (hother : (Path.slashes other.toList).head? ≠ some '/') :
    ofPath path = ofPath other ↔ Path.Coincide path other := by
  rw [ofPath, ofPath, DocumentUri.mk.injEq, String.ofList_inj, if_pos hpath, if_neg hother]
  constructor
  · intro heq
    exact Or.inr (Or.inr ⟨hother, heq⟩)
  · rintro (heq | ⟨hno, -⟩ | ⟨-, heq⟩)
    · exact absurd (heq ▸ hpath) hother
    · exact absurd hpath hno
    · exact heq

theorem ofPath_eq_iff : ofPath path = ofPath other ↔ Path.Coincide path other := by
  by_cases hpath : (Path.slashes path.toList).head? = some '/'
  · by_cases hother : (Path.slashes other.toList).head? = some '/'
    · simp [ofPath, Path.Coincide, String.ofList_inj, hpath, hother]
    · exact ofPath_eq_iff_of_slash hpath hother
  · by_cases hother : (Path.slashes other.toList).head? = some '/'
    · rw [eq_comm, ofPath_eq_iff_of_slash hother hpath]
      exact ⟨Path.Coincide.symm, Path.Coincide.symm⟩
    · rw [ofPath, ofPath, DocumentUri.mk.injEq, String.ofList_inj, if_neg hpath, if_neg hother,
        List.cons.injEq]
      constructor
      · rintro ⟨-, heq⟩
        exact Or.inl heq
      · rintro (heq | ⟨-, heq⟩ | ⟨-, heq⟩)
        · exact ⟨rfl, heq⟩
        · exact absurd (by rw [← heq]; rfl) hother
        · exact absurd (by rw [heq]; rfl) hpath

end DocumentUri

/-! ### Documents of a graph -/

namespace Graph

/-- All documents, with their numbers and URIs. -/
def documents (graph : Graph) : List (Nat × DocumentUri) :=
  graph.elements.toList.filterMap fun element =>
    match element.payload with
    | .vertex (.document uri _ _) => some (element.id, uri)
    | _ => none

/-- Whether different documents have different URIs. -/
def DocumentsDistinct (graph : Graph) : Prop :=
  ∀ entry ∈ graph.documents, ∀ other ∈ graph.documents, entry.1 ≠ other.1 →
    entry.2.text ≠ other.2.text

theorem mem_documents_iff {graph : Graph} {id : Nat} {uri : DocumentUri} :
    (id, uri) ∈ graph.documents ↔ ∃ languageId kind,
      ⟨id, .vertex (.document uri languageId kind)⟩ ∈ graph.elements.toList := by
  rw [documents, List.mem_filterMap]
  constructor
  · rintro ⟨⟨id', payload⟩, hmem, heq⟩
    cases payload with
    | edge connection => cases heq
    | vertex node =>
      cases node with
      | document uri' languageId kind =>
        cases heq
        exact ⟨languageId, kind, hmem⟩
      | _ => cases heq
  · rintro ⟨languageId, kind, hmem⟩
    exact ⟨_, hmem, rfl⟩

end Graph

theorem Layout.mem_documents_iff {layout : Layout} {options : IndexOptions} {graph : Graph}
    (hgrows : Graph.empty.Grows (layout.elements options) graph) {id : Nat} {uri : DocumentUri} :
    (id, uri) ∈ graph.documents ↔ ∃ chapter ∈ layout.chapters, id = chapter.vertex ∧
      uri = .ofPath chapter.document.path := by
  have helements : graph.elements.toList = layout.elements options := hgrows.elements
  simp only [Graph.mem_documents_iff, helements, document_mem_elements_iff]
  constructor
  · rintro ⟨languageId, kind, chapter, hchapter, hid, huri, -⟩
    exact ⟨chapter, hchapter, hid, huri⟩
  · rintro ⟨chapter, hchapter, hid, huri⟩
    exact ⟨_, _, chapter, hchapter, hid, huri, rfl, rfl⟩

/-! ### Runs -/

namespace Program

/-- Whether reported paths that differ do not coincide. -/
def PathsApart (program : Program) : Prop :=
  ∀ document ∈ program.documents, ∀ other ∈ program.documents, document.path ≠ other.path →
    ¬Path.Coincide document.path other.path

instance (program : Program) : Decidable program.PathsApart := by
  unfold PathsApart
  infer_instance

/-- The documents of a run have different URIs exactly if paths that coincide are equal. -/
theorem index_documentsDistinct_iff {program : Program} {options : IndexOptions} {index : Index}
    (h : program.index options = .ok index) :
    index.graph.DocumentsDistinct ↔ program.PathsApart := by
  obtain ⟨_, hdocuments, -⟩ := bind_eq_ok_iff.mp h
  have hnodup := (checkDocuments_eq_ok_iff.mp hdocuments).1
  obtain ⟨table, occurrences, layout, -, -, hpresents, hgrows⟩ := exists_layout h
  constructor
  · intro hdistinct document hdocument other hother hne hcoincide
    obtain ⟨chapter, hchapter, rfl⟩ := hpresents.covers.exists_chapter hdocument
    obtain ⟨chapter', hchapter', rfl⟩ := hpresents.covers.exists_chapter hother
    refine hdistinct _ ((Layout.mem_documents_iff hgrows).mpr ⟨chapter, hchapter, rfl, rfl⟩)
      _ ((Layout.mem_documents_iff hgrows).mpr ⟨chapter', hchapter', rfl, rfl⟩) ?_ ?_
    · -- one vertex has one chapter, and so one path
      intro hvertex
      have heq := List.inj_on_of_nodup_map (Layout.nodup_chapters hgrows) hchapter hchapter' hvertex
      exact hne (by rw [heq])
    · exact congrArg DocumentUri.text (DocumentUri.ofPath_eq_iff.mpr hcoincide)
  · rintro hapart ⟨id, uri⟩ hentry ⟨id', uri'⟩ hentry' hne htext
    obtain ⟨chapter, hchapter, rfl, rfl⟩ := (Layout.mem_documents_iff hgrows).mp hentry
    obtain ⟨chapter', hchapter', rfl, rfl⟩ := (Layout.mem_documents_iff hgrows).mp hentry'
    have hcoincide := DocumentUri.ofPath_eq_iff.mp (DocumentUri.text_injective htext)
    have hpath : chapter.document.path = chapter'.document.path := by
      by_contra hpath
      exact hapart _ (hpresents.covers.document_mem hchapter) _
        (hpresents.covers.document_mem hchapter') hpath hcoincide
    -- one path is reported once, and so has one vertex
    have hvertex := Layout.vertexOf_chapter hpresents hnodup hchapter
    rw [hpath, Layout.vertexOf_chapter hpresents hnodup hchapter'] at hvertex
    exact hne hvertex.symm

/-- A project with two files, of which the second has the given path. -/
def respelled (path : String) : Program where
  root := "C:\\work"
  documents := [.moduleFile "C:\\work\\a.ts", .moduleFile path]
  symbols := []

/-- Files with different names have different URIs, whatever separators they are reported with. -/
theorem index_respelled_documentsDistinct :
    ∃ index, (respelled "C:/work/b.ts").index {} = .ok index ∧
      index.graph.documents.map (·.2.text) = ["file:///C:/work/b.ts", "file:///C:/work/a.ts"] ∧
      index.graph.DocumentsDistinct := by
  have hindex : ((respelled "C:/work/b.ts").index {}).toOption.map (fun index =>
      index.graph.documents.map (·.2.text)) =
        some ["file:///C:/work/b.ts", "file:///C:/work/a.ts"] := by
    decide +kernel
  obtain ⟨index, hindex, htexts⟩ := Option.map_eq_some_iff.mp hindex
  rw [toOption_eq_some_iff] at hindex
  exact ⟨index, hindex, htexts, (index_documentsDistinct_iff hindex).mpr (by decide +kernel)⟩

/-- A file that is reported with both kinds of separators has two documents. -/
theorem index_respelled_not_documentsDistinct :
    ∃ index, (respelled "C:/work/a.ts").index {} = .ok index ∧ ¬index.graph.DocumentsDistinct := by
  have hindex : ((respelled "C:/work/a.ts").index {}).toOption.map Index.graph =
      some ⟨#[⟨1, .vertex (.document ⟨"/C:/work/a.ts"⟩ "typescript" .source)⟩,
        ⟨2, .vertex (.document ⟨"/C:/work/a.ts"⟩ "typescript" .source)⟩]⟩ := by
    decide +kernel
  obtain ⟨index, hindex, hgraph⟩ := Option.map_eq_some_iff.mp hindex
  rw [toOption_eq_some_iff] at hindex
  refine ⟨index, hindex, fun hdistinct => ?_⟩
  have hmem : ∀ id ∈ [1, 2], (id, (⟨"/C:/work/a.ts"⟩ : DocumentUri)) ∈ index.graph.documents := by
    rw [hgraph]
    decide
  exact hdistinct _ (hmem 1 (by decide)) _ (hmem 2 (by decide)) (by decide) rfl

end Program

end MonikerIndex
