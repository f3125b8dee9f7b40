import MonikerIndex.Proofs.Emission.Run
import MonikerIndex.Proofs.Emission.Views

/-!
# The order of a graph

The elements of a graph come in a documented order, so that a second run gives the same numbers and
a reader can rely on what stands before what. First come the documents, strictly by path. Behind a
document stand its ranges by position, each followed by its next edge, and preceded by the result
set of its record where no range of that record stands before it, in this document or in an earlier
one; the edge to the ranges closes the document. Then come the monikers in the order of their result
sets, and last the alias monikers.

The elements of a single block are in order by definition. What remains to be said is how the blocks
themselves are arranged (`Layout.Arranged`). Main statement: every run that succeeds gives the
elements of an arranged layout (`index_followsOrder`).
-/

namespace MonikerIndex

/-! ### Positions of ranges -/

/-- Whether one occurrence may stand before another one in a document: it starts earlier; or both
    start together, and it is a definition and the other one a reference, or both have one role and
    it does not end later. -/
def Occurrence.MayPrecede (first second : Occurrence) : Prop :=
  compare first.span.start second.span.start = .lt ∨
    first.span.start = second.span.start ∧
      (first.tag.role = .definition ∧ second.tag.role = .reference ∨
        first.tag.role = second.tag.role ∧ (compare first.span.stop second.span.stop).isLE)

theorem Occurrence.mayPrecede_of_order {first second : Occurrence}
    (h : (order first second).isLE) : first.MayPrecede second := by
  have hthen : ((compare first.span.start second.span.start).then
      ((compare first.tag.role.rank second.tag.role.rank).then
        (compare first.span.stop second.span.stop))).isLE := h
  cases hstart : compare first.span.start second.span.start with
  | lt => exact Or.inl hstart
  | gt =>
    rw [hstart] at hthen
    cases hthen
  | eq =>
    refine Or.inr ⟨Std.compare_eq_iff_eq.mp hstart, ?_⟩
    rw [hstart] at hthen
    cases hfirst : first.tag.role with
    | definition =>
      cases hsecond : second.tag.role with
      | definition =>
        rw [hfirst, hsecond] at hthen
        exact Or.inr ⟨rfl, hthen⟩
      | reference => exact Or.inl ⟨rfl, rfl⟩
    | reference =>
      cases hsecond : second.tag.role with
      | definition =>
        rw [hfirst, hsecond] at hthen
        cases hthen
      | reference =>
        rw [hfirst, hsecond] at hthen
        exact Or.inr ⟨rfl, hthen⟩

/-- The occurrences in a file are those of the program there, in order. -/
theorem Occurrence.pairwise_inFile (occurrences : List Occurrence) (file : String) :
    (inFile occurrences file).Pairwise MayPrecede :=
  (pairwise_sortBy _).imp mayPrecede_of_order

/-! ### Result sets -/

namespace Placement

/-- A result set stands before a range if the record has none yet and no earlier range is one of the
    record. -/
theorem Gathers.isFirst_iff {known after : List (Nat × Nat)}
    {placements before rest : List Placement} {placement : Placement}
    (h : Gathers known placements after) (hsplit : placements = before ++ placement :: rest) :
    placement.isFirst = true ↔ known.lookup placement.occurrence.record = none ∧
      ∀ earlier ∈ before, earlier.occurrence.record ≠ placement.occurrence.record := by
  -- along the run: what an earlier range brings along is known to the later ones
  induction h generalizing before with
  | nil => simp at hsplit
  | @again known after head placements hlookup hfirst _ ih =>
    cases before with
    | nil =>
      obtain ⟨rfl, rfl⟩ := List.cons.inj hsplit
      simp [hfirst, hlookup]
    | cons other before =>
      obtain ⟨rfl, hrest⟩ := List.cons.inj hsplit
      rw [ih hrest, List.forall_mem_cons]
      constructor
      · rintro ⟨hnone, hbefore⟩
        refine ⟨hnone, fun heq => ?_, hbefore⟩
        rw [← heq, hlookup] at hnone
        cases hnone
      · rintro ⟨hnone, -, hbefore⟩
        exact ⟨hnone, hbefore⟩
  | @first known after head placements hlookup hfirst _ ih =>
    cases before with
    | nil =>
      obtain ⟨rfl, rfl⟩ := List.cons.inj hsplit
      simp [hfirst, hlookup]
    | cons other before =>
      obtain ⟨rfl, hrest⟩ := List.cons.inj hsplit
      have hnew : [head.pair].lookup placement.occurrence.record = none ↔
          head.occurrence.record ≠ placement.occurrence.record := by
        rw [List.lookup_eq_none_iff, List.forall_mem_singleton, bne_iff_ne, ne_comm]
        rfl
      rw [ih hrest, List.forall_mem_cons, List.lookup_append, Option.or_eq_none_iff, hnew,
        and_assoc]

end Placement

/-- What a graph has grown by is numbered in order, and so are its vertices of each kind. -/
theorem Graph.Grows.pairwise_vertices {graph after : Graph} {block : List Element}
    (h : graph.Grows block after) (label : VertexLabel) :
    (verticesIn label block).Pairwise (· < ·) := by
  have hids : (block.map Element.id).Pairwise (· < ·) := by
    rw [h.numbers]
    exact List.pairwise_lt_range'
  exact hids.sublist (List.filter_sublist.map _)

/-! ### Arranged layouts -/

namespace Layout

/-- How the blocks of a program's graph are arranged. -/
structure Arranged (layout : Layout) (program : Program) (occurrences : List Occurrence) :
    Prop where
  /-- Each document has one chapter. -/
  documents : (layout.chapters.map Chapter.document).Perm program.documents
  paths : layout.chapters.Pairwise fun first second => first.document.path < second.document.path
  /-- Each occurrence in a document has one range in its chapter. -/
  ranges : ∀ chapter ∈ layout.chapters, (chapter.placements.map Placement.occurrence).Perm
    (occurrences.filter (·.file == chapter.document.path))
  positions : ∀ chapter ∈ layout.chapters, chapter.placements.Pairwise fun first second =>
    first.occurrence.MayPrecede second.occurrence
  /-- A result set stands before the first range of its record in the whole graph. -/
  first : ∀ before placement rest, layout.placements = before ++ placement :: rest →
    (placement.isFirst = true ↔
      ∀ earlier ∈ before, earlier.occurrence.record ≠ placement.occurrence.record)
  /-- Ranges lead to one result set if they are of one record. -/
  resultSets : ∀ placement ∈ layout.placements, ∀ other ∈ layout.placements,
    placement.resultSet = other.resultSet ↔
      placement.occurrence.record = other.occurrence.record
  labels : layout.labels.Pairwise fun first second => first.resultSet < second.resultSet
  labelled : ∀ label ∈ layout.labels, ∃ placement ∈ layout.placements,
    placement.resultSet = label.resultSet
  attached : ∀ attachment ∈ layout.attachments, ∃ label ∈ layout.labels,
    attachment.target = label.vertex

variable {layout : Layout} {program : Program} {options : IndexOptions} {table : SymbolTable}
  {occurrences : List Occurrence} {graph : Graph}
  (hpresents : layout.Presents program options table occurrences)

include hpresents

theorem pairwise_paths (hnodup : (program.documents.map Document.path).Nodup) :
    layout.chapters.Pairwise fun first second =>
      first.document.path < second.document.path := by
  have hsorted : program.sortedDocuments.Pairwise fun first second =>
      first.path < second.path := by
    have hnodup' : (program.sortedDocuments.map Document.path).Nodup :=
      ((sortBy_perm _ _).map Document.path).nodup_iff.mpr hnodup
    refine ((pairwise_sortBy _).and (List.pairwise_map.mp hnodup')).imp ?_
    rintro first second ⟨hle, hne⟩
    exact lt_of_le_of_ne (compare_le_iff_le.mp (Ordering.ne_gt_iff_isLE.mpr hle)) hne
  rw [← hpresents.covers.documents, List.pairwise_map] at hsorted
  exact hsorted

theorem resultSet_eq_iff (hgrows : Graph.empty.Grows (layout.elements options) graph)
    {placement other : Placement} (hplacement : placement ∈ layout.placements)
    (hother : other ∈ layout.placements) :
    placement.resultSet = other.resultSet ↔
      placement.occurrence.record = other.occurrence.record := by
  have hpair := hpresents.covers.gathers.pair_mem hplacement
  have hpair' := hpresents.covers.gathers.pair_mem hother
  constructor
  · intro heq
    exact congrArg Prod.fst (List.inj_on_of_nodup_map (nodup_resultSets hgrows) hpair hpair' heq)
  · intro heq
    exact congrArg Prod.snd
      (List.inj_on_of_nodup_map hpresents.covers.nodup_records hpair hpair' heq)

theorem pairwise_labels (hgrows : Graph.empty.Grows (layout.elements options) graph) :
    layout.labels.Pairwise fun first second => first.resultSet < second.resultSet := by
  have hsets : (layout.resultSets.map Prod.snd).Pairwise (· < ·) := by
    rw [← layout.verticesIn_resultSet options]
    exact hgrows.pairwise_vertices .resultSet
  have hlabels := hsets.sublist ((labels_sublist hpresents.labels).map Prod.snd)
  rw [List.map_map, List.pairwise_map] at hlabels
  exact hlabels

theorem arranged (hnodup : (program.documents.map Document.path).Nodup)
    (hgrows : Graph.empty.Grows (layout.elements options) graph) :
    layout.Arranged program occurrences := by
  constructor
  case documents =>
    rw [hpresents.covers.documents]
    exact sortBy_perm _ _
  case paths => exact pairwise_paths hpresents hnodup
  case ranges =>
    intro chapter hchapter
    rw [hpresents.covers.placements chapter hchapter]
    exact sortBy_perm _ _
  case positions =>
    intro chapter hchapter
    have hsorted := Occurrence.pairwise_inFile occurrences chapter.document.path
    rw [← hpresents.covers.placements chapter hchapter, List.pairwise_map] at hsorted
    exact hsorted
  case first =>
    intro before placement rest hsplit
    rw [hpresents.covers.gathers.isFirst_iff hsplit]
    exact and_iff_right rfl
  case resultSets =>
    intro placement hplacement other hother
    exact resultSet_eq_iff hpresents hgrows hplacement hother
  case labels => exact pairwise_labels hpresents hgrows
  case labelled =>
    intro label hlabel
    obtain ⟨hentry, -⟩ := mem_resultSets_of_label hpresents.labels hlabel
    obtain ⟨placement, hplacement, hpair⟩ := List.mem_map.mp hentry
    exact ⟨placement, List.mem_of_mem_filter hplacement, congrArg Prod.snd hpair⟩
  case attached =>
    intro attachment hattachment
    obtain ⟨label, hlabel, -, htarget⟩ := hpresents.attached attachment hattachment
    exact ⟨label, hlabel, htarget⟩

end Layout

/-- Whether a graph holds the blocks of a program in order: the chapters of its documents, then the
    monikers of its records with their edges, then alias monikers with theirs, numbered from one. -/
def Graph.FollowsOrder (graph : Graph) (program : Program) (options : IndexOptions) : Prop :=
  ∃ table occurrences, program.merge = .ok table ∧ program.occurrences table = .ok occurrences ∧
    ∃ layout : Layout, layout.Arranged program occurrences ∧
      graph.elements.toList =
        layout.chapters.flatMap (Chapter.elements options.languageId) ++
          (layout.labels.flatMap (Label.elements options.scheme) ++
            layout.attachments.flatMap (Attachment.elements options.scheme)) ∧
      graph.elements.toList.map Element.id = List.range' 1 graph.elements.toList.length

/-- Every graph that a run gives holds its blocks in order. -/
theorem Program.index_followsOrder {program : Program} {options : IndexOptions} {index : Index}
    (h : program.index options = .ok index) : index.graph.FollowsOrder program options := by
  obtain ⟨_, hdocuments, -⟩ := bind_eq_ok_iff.mp h
  have hnodup := (checkDocuments_eq_ok_iff.mp hdocuments).1
  obtain ⟨table, occurrences, layout, hmerge, hoccurrences, hpresents, hgrows⟩ := exists_layout h
  refine ⟨table, occurrences, hmerge, hoccurrences, layout,
    Layout.arranged hpresents hnodup hgrows, hgrows.elements, ?_⟩
  rw [hgrows.elements]
  exact hgrows.numbers

/-- In the graph of the shop, a document without ranges comes first. The last range of the other one
    is a reference to a record that has its result set already. -/
theorem Program.index_shop_followsOrder : ∃ index, shop.index {} = .ok index ∧
    index.graph.elements.toList.map (·.payload.label) =
      ["document", "document", "resultSet", "range", "next", "resultSet", "range", "next",
        "resultSet", "range", "next", "resultSet", "range", "next", "range", "next", "contains",
        "moniker", "moniker", "moniker", "moniker", "moniker", "moniker",
        "moniker", "attach", "moniker", "attach"] ∧
    index.graph.FollowsOrder shop {} := by
  have hlabels : (shop.index {}).toOption.map (fun index =>
      index.graph.elements.toList.map (·.payload.label)) =
        some ["document", "document", "resultSet", "range", "next", "resultSet", "range", "next",
          "resultSet", "range", "next", "resultSet", "range", "next", "range", "next", "contains",
          "moniker", "moniker", "moniker", "moniker", "moniker", "moniker",
          "moniker", "attach", "moniker", "attach"] := by
    decide +kernel
  obtain ⟨index, hindex, hlabels⟩ := Option.map_eq_some_iff.mp hlabels
  rw [toOption_eq_some_iff] at hindex
  exact ⟨index, hindex, hlabels, index_followsOrder hindex⟩

end MonikerIndex
