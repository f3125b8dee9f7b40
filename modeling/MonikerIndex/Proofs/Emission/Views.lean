import MonikerIndex.Proofs.Emission.Layout

/-!
# The vertices and edges of a layout

Which vertices and edges of each kind a layout puts into the graph, in order. The documents are
those of the chapters, the ranges those of the placements, the result sets those that placements
bring along, and the monikers those of labels and then of attachments; and each of these blocks
comes with one kind of edges.
-/

namespace MonikerIndex

theorem flatMap_const_nil {α β : Type} (xs : List α) : xs.flatMap (fun _ => ([] : List β)) = [] :=
  List.flatMap_eq_nil_iff.mpr fun _ _ => rfl

theorem flatMap_ite_singleton {α β : Type} (p : α → Bool) (f : α → β) (xs : List α) :
    (xs.flatMap fun x => if p x then [f x] else []) = (xs.filter p).map f := by
  induction xs with
  | nil => rfl
  | cons x xs ih =>
    rw [List.flatMap_cons, ih, List.filter_cons]
    split
    · rfl
    · rfl

/-- What contributes nothing may be left out. -/
theorem flatMap_filter {α β : Type} {p : α → Bool} {f : α → List β}
    (h : ∀ x, p x = false → f x = []) (xs : List α) : (xs.filter p).flatMap f = xs.flatMap f := by
  induction xs with
  | nil => rfl
  | cons x xs ih =>
    rw [List.filter_cons, List.flatMap_cons, ← ih]
    cases hx : p x with
    | false => rw [h x hx]; rfl
    | true => rfl

/-! ### Blocks -/

namespace Placement

variable (placement : Placement)

@[simp] theorem verticesIn_elements (kind : VertexLabel) :
    verticesIn kind placement.elements =
      (if placement.isFirst ∧ kind = .resultSet then [placement.resultSet] else []) ++
        if kind = .range then [placement.vertex] else [] := by
  cases hfirst : placement.isFirst with
  | false => cases kind <;> simp [elements, hfirst, Vertex.label]
  | true => cases kind <;> simp [elements, hfirst, Vertex.label]

@[simp] theorem linksIn_elements (kind : EdgeLabel) :
    linksIn kind placement.elements =
      if kind = .next then [.next placement.vertex placement.resultSet] else [] := by
  cases hfirst : placement.isFirst with
  | false => cases kind <;> simp [elements, hfirst, Edge.next]
  | true => cases kind <;> simp [elements, hfirst, Edge.next]

end Placement

namespace Chapter

variable (languageId : String) (chapter : Chapter)

@[simp] theorem verticesIn_elements (kind : VertexLabel) :
    verticesIn kind (chapter.elements languageId) =
      (if kind = .document then [chapter.vertex] else []) ++
        chapter.placements.flatMap (verticesIn kind <| Placement.elements ·) := by
  cases hempty : chapter.placements.isEmpty with
  | false => cases kind <;> simp [elements, hempty, Vertex.label]
  | true => cases kind <;> simp [elements, hempty, Vertex.label]

@[simp] theorem linksIn_elements (kind : EdgeLabel) :
    linksIn kind (chapter.elements languageId) =
      chapter.placements.flatMap (linksIn kind <| Placement.elements ·) ++
        if kind = .contains then
          if !chapter.placements.isEmpty then
            [.contains chapter.vertex (chapter.placements.map Placement.vertex)]
          else []
        else [] := by
  cases hempty : chapter.placements.isEmpty with
  | false => cases kind <;> simp [elements, hempty, Edge.contains]
  | true => cases kind <;> simp [elements, hempty]

end Chapter

@[simp] theorem Label.verticesIn_elements (scheme : String) (label : Label) (kind : VertexLabel) :
    verticesIn kind (label.elements scheme) = if kind = .moniker then [label.vertex] else [] := by
  cases kind <;> simp [elements, Vertex.label]

@[simp] theorem Label.linksIn_elements (scheme : String) (label : Label) (kind : EdgeLabel) :
    linksIn kind (label.elements scheme) =
      if kind = .moniker then [.moniker label.resultSet label.vertex] else [] := by
  cases kind <;> simp [elements, Edge.moniker]

@[simp] theorem Attachment.verticesIn_elements (scheme : String) (attachment : Attachment)
    (kind : VertexLabel) :
    verticesIn kind (attachment.elements scheme) =
      if kind = .moniker then [attachment.vertex] else [] := by
  cases kind <;> simp [elements, Vertex.label]

@[simp] theorem Attachment.linksIn_elements (scheme : String) (attachment : Attachment)
    (kind : EdgeLabel) :
    linksIn kind (attachment.elements scheme) =
      if kind = .attach then [.attach attachment.vertex attachment.target] else [] := by
  cases kind <;> simp [elements, Edge.attach]

/-! ### Layouts -/

namespace Layout

section Elements

variable (options : IndexOptions) (layout : Layout)

theorem verticesIn_document :
    verticesIn .document (layout.elements options) = layout.chapters.map Chapter.vertex := by
  simp [elements, flatMap_const_nil, ← List.map_eq_flatMap]

theorem verticesIn_range :
    verticesIn .range (layout.elements options) = layout.placements.map Placement.vertex := by
  simp [elements, placements, List.map_flatMap, flatMap_const_nil, ← List.map_eq_flatMap]

theorem verticesIn_resultSet :
    verticesIn .resultSet (layout.elements options) = layout.resultSets.map Prod.snd := by
  simp [elements, placements, resultSets, List.filter_flatMap, List.map_flatMap,
    flatMap_const_nil, flatMap_ite_singleton]
  rfl

theorem verticesIn_moniker :
    verticesIn .moniker (layout.elements options) =
      layout.labels.map Label.vertex ++ layout.attachments.map Attachment.vertex := by
  simp [elements, flatMap_const_nil, ← List.map_eq_flatMap]

theorem linksIn_next :
    linksIn .next (layout.elements options) =
      layout.placements.map fun placement => .next placement.vertex placement.resultSet := by
  simp [elements, placements, List.map_flatMap, flatMap_const_nil, ← List.map_eq_flatMap]

theorem linksIn_contains :
    linksIn .contains (layout.elements options) =
      (layout.chapters.filter (!·.placements.isEmpty)).map fun chapter =>
        .contains chapter.vertex (chapter.placements.map Placement.vertex) := by
  simp only [elements, linksIn_append, linksIn_flatMap, Chapter.linksIn_elements,
    Placement.linksIn_elements, Label.linksIn_elements, Attachment.linksIn_elements, reduceCtorEq,
    if_false, if_true, flatMap_const_nil, List.nil_append, List.append_nil, flatMap_ite_singleton]

theorem linksIn_moniker :
    linksIn .moniker (layout.elements options) =
      layout.labels.map fun label => .moniker label.resultSet label.vertex := by
  simp [elements, flatMap_const_nil, ← List.map_eq_flatMap]

theorem linksIn_attach :
    linksIn .attach (layout.elements options) =
      layout.attachments.map fun attachment => .attach attachment.vertex attachment.target := by
  simp [elements, flatMap_const_nil, ← List.map_eq_flatMap]

end Elements

/-- The documents of a layout are those of its chapters. -/
theorem document_mem_elements_iff {layout : Layout} {options : IndexOptions} {id : Nat}
    {uri : DocumentUri} {languageId : String} {kind : DocumentKind} :
    ⟨id, .vertex (.document uri languageId kind)⟩ ∈ layout.elements options ↔
      ∃ chapter ∈ layout.chapters, id = chapter.vertex ∧ uri = .ofPath chapter.document.path ∧
        languageId = options.languageId ∧ kind = chapter.document.actualKind := by
  simp only [elements, List.mem_append, List.mem_flatMap]
  constructor
  · rintro (⟨chapter, hchapter, hmem⟩ | ⟨label, -, hmem⟩ | ⟨attachment, -, hmem⟩)
    · rcases List.mem_cons.mp hmem with heq | hmem
      · cases heq
        exact ⟨chapter, hchapter, rfl, rfl, rfl, rfl⟩
      · simp [Placement.elements] at hmem
    · simp [Label.elements] at hmem
    · simp [Attachment.elements] at hmem
  · rintro ⟨chapter, hchapter, rfl, rfl, rfl, rfl⟩
    exact Or.inl ⟨chapter, hchapter, List.mem_cons_self⟩

/-! ### Numbers -/

section Numbers

variable {layout : Layout} {options : IndexOptions} {graph : Graph}
  (hgrows : Graph.empty.Grows (layout.elements options) graph)

include hgrows

theorem nodup_placements : (layout.placements.map Placement.vertex).Nodup := by
  rw [← layout.verticesIn_range options]
  exact hgrows.nodup_vertices .range

theorem nodup_chapters : (layout.chapters.map Chapter.vertex).Nodup := by
  rw [← layout.verticesIn_document options]
  exact hgrows.nodup_vertices .document

theorem nodup_resultSets : (layout.resultSets.map Prod.snd).Nodup := by
  rw [← layout.verticesIn_resultSet options]
  exact hgrows.nodup_vertices .resultSet

theorem nodup_monikers :
    (layout.labels.map Label.vertex ++ layout.attachments.map Attachment.vertex).Nodup := by
  rw [← layout.verticesIn_moniker options]
  exact hgrows.nodup_vertices .moniker

/-- No label shares its moniker with an attachment. -/
theorem label_ne_attachment {label : Label} (hlabel : label ∈ layout.labels)
    {attachment : Attachment} (hattachment : attachment ∈ layout.attachments) :
    attachment.vertex ≠ label.vertex := by
  intro heq
  exact (List.nodup_append.mp (nodup_monikers hgrows)).2.2 _ (List.mem_map_of_mem hlabel) _
    (List.mem_map_of_mem hattachment) heq.symm

/-! ### Monikers -/

theorem mem_monikers_iff {id : Nat} {name : Moniker} :
    (id, name) ∈ graph.monikers ↔
      (∃ label ∈ layout.labels, id = label.vertex ∧ name = label.identity.under options.scheme) ∨
        ∃ attachment ∈ layout.attachments, id = attachment.vertex ∧
          name = (Identity.exported attachment.identifier).under options.scheme := by
  -- chapters hold documents, ranges and result sets only
  have hchapter : ∀ chapter ∈ layout.chapters,
      ⟨id, .vertex (.moniker name)⟩ ∉ chapter.elements options.languageId := by
    intro chapter _ hmem
    have hmoniker : id ∈ verticesIn .moniker (chapter.elements options.languageId) :=
      mem_verticesIn_iff.mpr ⟨_, rfl, hmem⟩
    simp [flatMap_const_nil] at hmoniker
  rw [Graph.mem_monikers_iff, hgrows.elements, elements]
  simp only [Graph.empty, List.nil_append, List.mem_append, List.mem_flatMap]
  constructor
  · rintro (⟨chapter, hmem, helement⟩ | ⟨label, hmem, helement⟩ | ⟨attachment, hmem, helement⟩)
    · exact absurd helement (hchapter chapter hmem)
    · exact Or.inl ⟨label, hmem, by simpa [Label.elements] using helement⟩
    · exact Or.inr ⟨attachment, hmem, by simpa [Attachment.elements] using helement⟩
  · rintro (⟨label, hmem, heq⟩ | ⟨attachment, hmem, heq⟩)
    · exact Or.inr (Or.inl ⟨label, hmem, by simpa [Label.elements] using heq⟩)
    · exact Or.inr (Or.inr ⟨attachment, hmem, by simpa [Attachment.elements] using heq⟩)

end Numbers

end Layout

end MonikerIndex
