import MonikerIndex.Index.Basic
import MonikerIndex.Proofs.Growth

/-!
# Documents in a graph

The elements of one document form a chapter: the document, its ranges, and an edge to all of them.
A range comes with its edge to the result set of its record, and with the result set itself where no
earlier range has needed it. Which result sets are there already is carried from range to range and
from document to document (`Gathers`).

Emitting an occurrence, the occurrences of a document, and all documents adds just these elements;
none of these steps can fail, since all that an edge names has been emitted before
(`exists_range`, `exists_chapter`, `exists_chapters`). The chapters of a program cover all
occurrences in its documents (`Covers`).
-/

namespace MonikerIndex

/-! ### Looking up -/

section Lookup

variable {κ β : Type} [BEq κ] [LawfulBEq κ] {entries : List (κ × β)} {key : κ} {value : β}

theorem mem_of_lookup (h : entries.lookup key = some value) : (key, value) ∈ entries := by
  obtain ⟨before, behind, rfl, -⟩ := List.lookup_eq_some_iff.mp h
  exact List.mem_append_right _ List.mem_cons_self

/-- Where no key occurs twice, each is found with its value. -/
theorem lookup_of_mem (hnodup : (entries.map Prod.fst).Nodup) (h : (key, value) ∈ entries) :
    entries.lookup key = some value := by
  cases hlookup : entries.lookup key with
  | none =>
    have hne := List.lookup_eq_none_iff.mp hlookup _ h
    simp at hne
  | some other =>
    have heq := List.inj_on_of_nodup_map hnodup (mem_of_lookup hlookup) h rfl
    rw [(Prod.mk.inj heq).2]

end Lookup

/-! ### Ranges and chapters -/

/-- An occurrence in the graph. -/
structure Placement where
  occurrence : Occurrence
  /-- The result set of the occurrence's record. -/
  resultSet : Nat
  /-- Whether the result set stands right before the range. -/
  isFirst : Bool
  /-- The range. -/
  vertex : Nat

namespace Placement

def elements (placement : Placement) : List Element :=
  (if placement.isFirst then [⟨placement.resultSet, .vertex .resultSet⟩] else []) ++
    [⟨placement.vertex, .vertex (.range placement.occurrence.span placement.occurrence.tag)⟩,
      ⟨placement.vertex + 1, .edge (.next placement.vertex placement.resultSet)⟩]

theorem range_mem_elements (placement : Placement) :
    ⟨placement.vertex, .vertex (.range placement.occurrence.span placement.occurrence.tag)⟩ ∈
      placement.elements := by
  simp [elements]

/-- The record of an occurrence, with its result set. -/
def pair (placement : Placement) : Nat × Nat :=
  (placement.occurrence.record, placement.resultSet)

/-- Which records have a result set before and after some ranges. -/
inductive Gathers : List (Nat × Nat) → List Placement → List (Nat × Nat) → Prop where
  | nil {known : List (Nat × Nat)} : Gathers known [] known
  | again {known after : List (Nat × Nat)} {placement : Placement} {placements : List Placement}
      (h : known.lookup placement.occurrence.record = some placement.resultSet)
      (hfirst : placement.isFirst = false) (hrest : Gathers known placements after) :
      Gathers known (placement :: placements) after
  | first {known after : List (Nat × Nat)} {placement : Placement} {placements : List Placement}
      (h : known.lookup placement.occurrence.record = none) (hfirst : placement.isFirst = true)
      (hrest : Gathers (known ++ [placement.pair]) placements after) :
      Gathers known (placement :: placements) after

namespace Gathers

variable {known middle after : List (Nat × Nat)} {placements others : List Placement}

theorem trans (h : Gathers known placements middle) (h' : Gathers middle others after) :
    Gathers known (placements ++ others) after := by
  induction h with
  | nil => exact h'
  | again h hfirst _ ih => exact .again h hfirst (ih h')
  | first h hfirst _ ih => exact .first h hfirst (ih h')

/-- The result sets that are added are those that stand before their ranges. -/
theorem eq_append (h : Gathers known placements after) :
    after = known ++ (placements.filter (·.isFirst)).map pair := by
  induction h with
  | nil => simp
  | again h hfirst _ ih => simp [ih, hfirst]
  | first h hfirst _ ih => simp [ih, hfirst]

theorem subset (h : Gathers known placements after) : known ⊆ after := by
  rw [h.eq_append]
  exact List.subset_append_left _ _

/-- The record of every range has a result set afterwards. -/
theorem pair_mem (h : Gathers known placements after) {placement : Placement}
    (hmem : placement ∈ placements) : placement.pair ∈ after := by
  induction h with
  | nil => cases hmem
  | again h hfirst hrest ih =>
    rcases List.mem_cons.mp hmem with rfl | hmem
    · exact hrest.subset (mem_of_lookup h)
    · exact ih hmem
  | first h hfirst hrest ih =>
    rcases List.mem_cons.mp hmem with rfl | hmem
    · exact hrest.subset (List.mem_append_right _ (List.mem_singleton.mpr rfl))
    · exact ih hmem

/-- No record gets two result sets. -/
theorem nodup (h : Gathers known placements after) (hknown : (known.map Prod.fst).Nodup) :
    (after.map Prod.fst).Nodup := by
  induction h with
  | nil => exact hknown
  | again h hfirst _ ih => exact ih hknown
  | @first known after placement placements h hfirst _ ih =>
    apply ih
    rw [List.map_append, List.nodup_append]
    refine ⟨hknown, List.nodup_singleton _, ?_⟩
    intro record hrecord other hother heq
    obtain ⟨entry, hentry, rfl⟩ := List.mem_map.mp hrecord
    have hne := List.lookup_eq_none_iff.mp h entry hentry
    rw [List.map_singleton, List.mem_singleton] at hother
    simp [heq, hother, pair] at hne

end Gathers

end Placement

/-- A document in the graph with its ranges. -/
structure Chapter where
  document : Document
  vertex : Nat
  placements : List Placement
  /-- The number of the edge to the ranges, if there are any. -/
  closing : Nat

def Chapter.elements (languageId : String) (chapter : Chapter) : List Element :=
  ⟨chapter.vertex, .vertex (.document (.ofPath chapter.document.path) languageId
      chapter.document.actualKind)⟩ ::
    (chapter.placements.flatMap Placement.elements ++
      if chapter.placements.isEmpty then []
      else [⟨chapter.closing,
        .edge (.contains chapter.vertex (chapter.placements.map Placement.vertex))⟩])

theorem Chapter.placements_subset_elements (languageId : String) (chapter : Chapter) :
    chapter.placements.flatMap Placement.elements ⊆ chapter.elements languageId := by
  intro element hmem
  exact List.mem_cons_of_mem _ (List.mem_append_left _ hmem)

/-! ### Emitting occurrences -/

namespace Emission

open Placement (Gathers)

variable {state : Emission}

/-- All result sets are in the graph. -/
def Sound (state : Emission) : Prop :=
  ∀ entry ∈ state.resultSets, 1 ≤ entry.2 ∧ entry.2 ≤ state.graph.lastId

/-- Ranges leave the result sets sound, since they bring along those that they add. -/
theorem Sound.step {after : Emission} (h : state.Sound) {block : List Element}
    {placements : List Placement} (hgrows : state.graph.Grows block after.graph)
    (hgathers : Gathers state.resultSets placements after.resultSets)
    (hblock : placements.flatMap Placement.elements ⊆ block) : after.Sound := by
  intro entry hentry
  rw [hgathers.eq_append] at hentry
  rcases List.mem_append.mp hentry with hold | hnew
  · obtain ⟨hpos, hle⟩ := h entry hold
    have hlast := hgrows.lastId_eq
    omega
  · obtain ⟨placement, hmem, rfl⟩ := List.mem_map.mp hnew
    obtain ⟨hmem, hfirst⟩ := List.mem_filter.mp hmem
    have helement : ⟨placement.resultSet, .vertex .resultSet⟩ ∈ placement.elements := by
      simp [Placement.elements, hfirst]
    have hbounds := hgrows.bounds (hblock (List.mem_flatMap_of_mem hmem helement))
    dsimp only at hbounds
    simp only [Placement.pair]
    omega

theorem resultSet_of_known {record vertex : Nat}
    (h : state.resultSets.lookup record = some vertex) :
    state.resultSet record = (state, vertex) := by
  simp only [resultSet, h]

theorem resultSet_of_unknown {record : Nat} (h : state.resultSets.lookup record = none) :
    state.resultSet record =
      (⟨state.graph.push (.vertex .resultSet), state.resultSets ++ [(record, state.graph.nextId)]⟩,
        state.graph.nextId) := by
  simp only [resultSet, h, Graph.emitVertex]

/-- Emitting an occurrence adds its range, after its result set if that is new. -/
theorem exists_range (h : state.Sound) (occurrence : Occurrence) :
    ∃ after placement, state.range occurrence = .ok (after, placement.vertex) ∧
      placement.occurrence = occurrence ∧ state.graph.Grows placement.elements after.graph ∧
      Gathers state.resultSets [placement] after.resultSets := by
  cases hlookup : state.resultSets.lookup occurrence.record with
  | some resultSet =>
    obtain ⟨hpos, hle⟩ := h _ (mem_of_lookup hlookup)
    dsimp only at hpos hle
    have hedge : (state.graph.push (.vertex (.range occurrence.span occurrence.tag))).emitEdge
        (.next state.graph.nextId resultSet) = .ok (_, _) :=
      Graph.emitEdge_of_target rfl (by simp [Edge.next]) (by rw [Graph.lastId_push]; omega)
    simp only [range, resultSet_of_known hlookup, Graph.emitVertex, hedge]
    exact ⟨_, ⟨occurrence, resultSet, false, state.graph.nextId⟩, rfl, rfl,
      Graph.Grows.push_push .., .again hlookup rfl .nil⟩
  | none =>
    have hedge : ((state.graph.push (.vertex .resultSet)).push
        (.vertex (.range occurrence.span occurrence.tag))).emitEdge
          (.next (state.graph.nextId + 1) state.graph.nextId) = .ok (_, _) :=
      Graph.emitEdge_of_target rfl (by simp [Edge.next]) (by simp)
    simp only [range, resultSet_of_unknown hlookup, Graph.emitVertex, Graph.nextId_eq,
      Graph.lastId_push] at hedge ⊢
    rw [hedge]
    refine ⟨_, ⟨occurrence, state.graph.nextId, true, state.graph.nextId + 1⟩, rfl, rfl, ?_,
      .first hlookup rfl .nil⟩
    have hset := Graph.Grows.push state.graph (.vertex .resultSet)
    have hrange := Graph.Grows.push_push (state.graph.push (.vertex .resultSet))
      (.vertex (.range occurrence.span occurrence.tag))
      (.edge (.next (state.graph.nextId + 1) state.graph.nextId))
    simpa [Placement.elements] using hset.trans hrange

/-- Emitting occurrences adds their ranges one after the other. -/
theorem exists_ranges (h : state.Sound) (occurrences : List Occurrence) :
    ∃ after placements, state.ranges occurrences =
        .ok (after, placements.map Placement.vertex) ∧
      placements.map Placement.occurrence = occurrences ∧
      state.graph.Grows (placements.flatMap Placement.elements) after.graph ∧
      Gathers state.resultSets placements after.resultSets := by
  induction occurrences generalizing state with
  | nil => exact ⟨state, [], rfl, rfl, Graph.Grows.refl _, .nil⟩
  | cons occurrence occurrences ih =>
    obtain ⟨middle, placement, hrange, hoccurrence, hgrows, hgathers⟩ := exists_range h occurrence
    obtain ⟨after, placements, hranges, hoccurrences, hgrows', hgathers'⟩ :=
      ih (h.step hgrows hgathers (by simp))
    refine ⟨after, placement :: placements, ?_, ?_, hgrows.trans hgrows', hgathers.trans hgathers'⟩
    · rw [ranges, hrange]
      change (middle.ranges occurrences >>= _) = _
      rw [hranges]
      rfl
    · rw [List.map_cons, hoccurrence, hoccurrences]

/-! ### Emitting documents -/

/-- Emitting a document adds a chapter. -/
theorem exists_chapter (h : state.Sound) (options : IndexOptions) (occurrences : List Occurrence)
    (document : Document) :
    ∃ (after : Emission) (chapter : Chapter),
      Emission.document options occurrences state document = .ok after ∧
      chapter.document = document ∧
      chapter.placements.map Placement.occurrence = Occurrence.inFile occurrences document.path ∧
      state.graph.Grows (chapter.elements options.languageId) after.graph ∧
      Gathers state.resultSets chapter.placements after.resultSets := by
  have hhead := Graph.Grows.push state.graph
    (.vertex (.document (.ofPath document.path) options.languageId document.actualKind))
  have hsound : Sound ⟨state.graph.push
      (.vertex (.document (.ofPath document.path) options.languageId document.actualKind)),
      state.resultSets⟩ := h.step hhead (Gathers.nil) (by simp)
  obtain ⟨middle, placements, hranges, hoccurrences, hgrows, hgathers⟩ :=
    exists_ranges hsound (Occurrence.inFile occurrences document.path)
  simp only [Emission.document, Graph.emitVertex, hranges, bind, Except.bind]
  have hbody := hhead.trans hgrows
  cases hempty : placements.isEmpty with
  | true =>
    refine ⟨middle, ⟨document, state.graph.nextId, placements, 0⟩, ?_, rfl, hoccurrences, ?_,
      hgathers⟩
    · simp [List.isEmpty_iff.mp hempty, pure, Except.pure]
    · simpa [Chapter.elements, hempty] using hbody
  | false =>
    have hne : placements ≠ [] := by simpa using hempty
    have hdocument := hbody.bounds List.mem_cons_self
    dsimp only at hdocument
    have hvertices : ∀ range ∈ placements.map Placement.vertex,
        1 ≤ range ∧ range ≤ middle.graph.lastId := by
      intro range hmem
      obtain ⟨placement, hplacement, rfl⟩ := List.mem_map.mp hmem
      have hbounds := hgrows.bounds
        (List.mem_flatMap_of_mem hplacement placement.range_mem_elements)
      dsimp only at hbounds
      omega
    have hedge := Graph.emitEdge_contains (by simpa using hne) ⟨by omega, hdocument.2⟩ hvertices
    rw [hedge]
    refine ⟨⟨middle.graph.push (.edge (.contains state.graph.nextId
      (placements.map Placement.vertex))), middle.resultSets⟩,
      ⟨document, state.graph.nextId, placements, middle.graph.nextId⟩, ?_, rfl, hoccurrences, ?_,
      hgathers⟩
    · simp [hne, pure, Except.pure]
    · simpa [Chapter.elements, hempty] using hbody.snoc
        (.edge (.contains state.graph.nextId (placements.map Placement.vertex)))

/-- Emitting documents adds a chapter for each. -/
theorem exists_chapters_foldlM (h : state.Sound) (options : IndexOptions)
    (occurrences : List Occurrence) (documents : List Document) :
    ∃ (after : Emission) (chapters : List Chapter),
      documents.foldlM (Emission.document options occurrences) state = .ok after ∧
      chapters.map Chapter.document = documents ∧
      (∀ chapter ∈ chapters, chapter.placements.map Placement.occurrence =
        Occurrence.inFile occurrences chapter.document.path) ∧
      state.graph.Grows (chapters.flatMap (Chapter.elements options.languageId)) after.graph ∧
      Gathers state.resultSets (chapters.flatMap Chapter.placements) after.resultSets := by
  induction documents generalizing state with
  | nil => exact ⟨state, [], rfl, rfl, by simp, Graph.Grows.refl _, .nil⟩
  | cons document documents ih =>
    obtain ⟨middle, chapter, hemit, hdocument, hplacements, hgrows, hgathers⟩ :=
      exists_chapter h options occurrences document
    obtain ⟨after, chapters, hrest, hdocuments, hall, hgrows', hgathers'⟩ :=
      ih (h.step hgrows hgathers (chapter.placements_subset_elements _))
    refine ⟨after, chapter :: chapters, ?_, ?_, ?_, hgrows.trans hgrows',
      hgathers.trans hgathers'⟩
    · rw [List.foldlM_cons, hemit]
      exact hrest
    · rw [List.map_cons, hdocument, hdocuments]
    · intro other hother
      rcases List.mem_cons.mp hother with rfl | hother
      · rw [hplacements, hdocument]
      · exact hall other hother

end Emission

/-! ### The chapters of a program -/

/-- Whether some chapters are those of a program, with the result sets that they introduce. -/
structure Covers (program : Program) (occurrences : List Occurrence) (chapters : List Chapter)
    (resultSets : List (Nat × Nat)) : Prop where
  documents : chapters.map Chapter.document = program.sortedDocuments
  placements : ∀ chapter ∈ chapters, chapter.placements.map Placement.occurrence =
    Occurrence.inFile occurrences chapter.document.path
  gathers : Placement.Gathers [] (chapters.flatMap Chapter.placements) resultSets

/-- All documents of a program are emitted, in the order of their paths. -/
theorem Program.exists_chapters (program : Program) (options : IndexOptions)
    (occurrences : List Occurrence) :
    ∃ (emission : Emission) (chapters : List Chapter),
      program.emitDocuments options occurrences = .ok emission ∧
      Covers program occurrences chapters emission.resultSets ∧
      Graph.empty.Grows (chapters.flatMap (Chapter.elements options.languageId)) emission.graph ∧
      emission.Sound := by
  have hsound : Emission.Sound { graph := .empty } := fun _ hentry => by cases hentry
  obtain ⟨emission, chapters, hemit, hdocuments, hplacements, hgrows, hgathers⟩ :=
    Emission.exists_chapters_foldlM hsound options occurrences program.sortedDocuments
  refine ⟨emission, chapters, hemit, ⟨hdocuments, hplacements, hgathers⟩, hgrows,
    hsound.step hgrows hgathers ?_⟩
  intro element hmem
  obtain ⟨placement, hplacement, hmem⟩ := List.mem_flatMap.mp hmem
  obtain ⟨chapter, hchapter, hplacement⟩ := List.mem_flatMap.mp hplacement
  exact List.mem_flatMap_of_mem hchapter
    (chapter.placements_subset_elements _ (List.mem_flatMap_of_mem hplacement hmem))

namespace Covers

variable {program : Program} {occurrences : List Occurrence} {chapters : List Chapter}
  {resultSets : List (Nat × Nat)}

theorem exists_chapter (h : Covers program occurrences chapters resultSets) {document : Document}
    (hdocument : document ∈ program.documents) :
    ∃ chapter ∈ chapters, chapter.document = document := by
  have hmem : document ∈ chapters.map Chapter.document := by
    rw [h.documents]
    exact mem_sortBy.mpr hdocument
  exact List.mem_map.mp hmem

theorem document_mem (h : Covers program occurrences chapters resultSets) {chapter : Chapter}
    (hchapter : chapter ∈ chapters) : chapter.document ∈ program.documents := by
  have hmem : chapter.document ∈ chapters.map Chapter.document := List.mem_map_of_mem hchapter
  rw [h.documents] at hmem
  exact mem_sortBy.mp hmem

theorem mem_occurrences_iff (h : Covers program occurrences chapters resultSets)
    {chapter : Chapter} (hchapter : chapter ∈ chapters) {occurrence : Occurrence} :
    occurrence ∈ chapter.placements.map Placement.occurrence ↔
      occurrence ∈ occurrences ∧ occurrence.file = chapter.document.path := by
  rw [h.placements chapter hchapter, Occurrence.inFile, mem_sortBy, List.mem_filter, beq_iff_eq]

/-- The records with a result set are those that occur in a document. -/
theorem mem_records_iff (h : Covers program occurrences chapters resultSets) {record : Nat} :
    record ∈ resultSets.map Prod.fst ↔ ∃ occurrence ∈ occurrences,
      program.hasDocument occurrence.file = true ∧ occurrence.record = record := by
  constructor
  · intro hmem
    obtain ⟨entry, hentry, rfl⟩ := List.mem_map.mp hmem
    rw [h.gathers.eq_append, List.nil_append] at hentry
    obtain ⟨placement, hplacement, rfl⟩ := List.mem_map.mp hentry
    obtain ⟨chapter, hchapter, hplacement⟩ :=
      List.mem_flatMap.mp (List.mem_of_mem_filter hplacement)
    obtain ⟨hoccurrence, hfile⟩ :=
      (h.mem_occurrences_iff hchapter).mp (List.mem_map_of_mem hplacement)
    exact ⟨placement.occurrence, hoccurrence,
      Program.hasDocument_iff.mpr ⟨chapter.document, h.document_mem hchapter, hfile.symm⟩, rfl⟩
  · rintro ⟨occurrence, hoccurrence, hfile, rfl⟩
    obtain ⟨document, hdocument, hpath⟩ := Program.hasDocument_iff.mp hfile
    obtain ⟨chapter, hchapter, rfl⟩ := h.exists_chapter hdocument
    obtain ⟨placement, hplacement, rfl⟩ := List.mem_map.mp
      ((h.mem_occurrences_iff hchapter).mpr ⟨hoccurrence, hpath.symm⟩)
    exact List.mem_map.mpr ⟨placement.pair,
      h.gathers.pair_mem (List.mem_flatMap_of_mem hchapter hplacement), rfl⟩

theorem nodup_records (h : Covers program occurrences chapters resultSets) :
    (resultSets.map Prod.fst).Nodup :=
  h.gathers.nodup List.nodup_nil

end Covers

end MonikerIndex
