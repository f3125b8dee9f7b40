import MonikerIndex.Proofs.Emission.Run
import MonikerIndex.Proofs.Emission.Views

/-!
# Well-formed graphs

An accepted edge is known only to connect earlier elements. That it connects vertices of the right
kinds, and how many edges a vertex has, is a property of whole graphs: `Graph.WellFormed`. It can be
decided for any graph.

Main statement: every run that succeeds gives a well-formed graph (`index_wellFormed`). The
multiplicities follow from the layout, where each block has its own vertices, and from the numbers,
which are never given twice.
-/

namespace MonikerIndex

namespace Graph

/-- A moniker that belongs to a result set: one moniker edge leads to it, and it is attached to
    nothing. -/
def IsCanonical (graph : Graph) (id : Nat) : Prop :=
  (graph.links .moniker).countP (fun edge => id ∈ edge.allTargets) = 1 ∧
    ∀ edge ∈ graph.links .attach, edge.source ≠ id

/-- A moniker that stands for another one: it is attached once, and no edge leads to it. -/
def IsAttached (graph : Graph) (id : Nat) : Prop :=
  (graph.links .attach).countP (fun edge => edge.source = id) = 1 ∧
    ∀ kind ∈ EdgeLabel.all, ∀ edge ∈ graph.links kind, id ∉ edge.allTargets

instance (graph : Graph) (id : Nat) : Decidable (graph.IsCanonical id) :=
  inferInstanceAs (Decidable (_ ∧ _))

instance (graph : Graph) (id : Nat) : Decidable (graph.IsAttached id) :=
  inferInstanceAs (Decidable (_ ∧ _))

/-- Edges connect vertices of the right kinds, and vertices have the right numbers of edges. -/
@[mk_iff]
structure WellFormed (graph : Graph) : Prop where
  /-- Elements are numbered from one, in order. -/
  numbered : graph.elements.toList.map Element.id = List.range' 1 graph.elements.size
  next_ends : ∀ edge ∈ graph.links .next, edge.source ∈ graph.vertices .range ∧
    ∃ target ∈ graph.vertices .resultSet, edge.allTargets = [target]
  moniker_ends : ∀ edge ∈ graph.links .moniker, edge.source ∈ graph.vertices .resultSet ∧
    ∃ target ∈ graph.vertices .moniker, edge.allTargets = [target]
  attach_ends : ∀ edge ∈ graph.links .attach, edge.source ∈ graph.vertices .moniker ∧
    ∃ target ∈ graph.vertices .moniker, edge.allTargets = [target]
  contains_ends : ∀ edge ∈ graph.links .contains, edge.source ∈ graph.vertices .document ∧
    edge.allTargets ≠ [] ∧ ∀ target ∈ edge.allTargets, target ∈ graph.vertices .range
  range_next : ∀ id ∈ graph.vertices .range,
    (graph.links .next).countP (fun edge => edge.source = id) = 1
  /-- A range occurs once in all edges from documents to ranges together. -/
  range_contained : ∀ id ∈ graph.vertices .range,
    ((graph.links .contains).flatMap Edge.allTargets).count id = 1
  resultSet_reached : ∀ id ∈ graph.vertices .resultSet,
    ∃ edge ∈ graph.links .next, id ∈ edge.allTargets
  resultSet_moniker : ∀ id ∈ graph.vertices .resultSet,
    (graph.links .moniker).countP (fun edge => edge.source = id) ≤ 1
  document_contains : ∀ id ∈ graph.vertices .document,
    (graph.links .contains).countP (fun edge => edge.source = id) ≤ 1
  moniker_role : ∀ id ∈ graph.vertices .moniker, graph.IsCanonical id ∨ graph.IsAttached id
  attach_once : ∀ edge ∈ graph.links .attach, ∀ target ∈ edge.allTargets,
    ∀ other ∈ graph.links .attach, other.source ≠ target

instance (graph : Graph) : Decidable graph.WellFormed :=
  decidable_of_iff' _ graph.wellFormed_iff

end Graph

/-! ### Counting edges -/

theorem countP_source (edges : List Edge) (id : Nat) :
    edges.countP (fun edge => edge.source = id) = (edges.map Edge.source).count id := by
  rw [List.count, List.countP_map]
  refine List.countP_congr fun edge _ => ?_
  simp

namespace Layout

variable {layout : Layout} {program : Program} {options : IndexOptions} {table : SymbolTable}
  {occurrences : List Occurrence} {graph : Graph}

section Graph

variable (hgrows : Graph.empty.Grows (layout.elements options) graph)

include hgrows

/-! ### Documents and ranges -/

theorem contains_ends {edge : Edge} (hedge : edge ∈ graph.links .contains) :
    edge.source ∈ graph.vertices .document ∧ edge.allTargets ≠ [] ∧
      ∀ target ∈ edge.allTargets, target ∈ graph.vertices .range := by
  rw [hgrows.links_eq, linksIn_contains] at hedge
  obtain ⟨chapter, hchapter, rfl⟩ := List.mem_map.mp hedge
  obtain ⟨hchapter, hsome⟩ := List.mem_filter.mp hchapter
  rw [hgrows.vertices_eq, hgrows.vertices_eq, verticesIn_document, verticesIn_range]
  refine ⟨List.mem_map_of_mem hchapter, ?_, ?_⟩
  · simpa [Edge.contains, Edge.allTargets] using hsome
  · intro target htarget
    obtain ⟨placement, hplacement, rfl⟩ := List.mem_map.mp
      (show target ∈ chapter.placements.map Placement.vertex from htarget)
    exact List.mem_map_of_mem (List.mem_flatMap_of_mem hchapter hplacement)

theorem document_contains (id : Nat) :
    (graph.links .contains).countP (fun edge => edge.source = id) ≤ 1 := by
  rw [countP_source, hgrows.links_eq, linksIn_contains, List.map_map]
  refine List.nodup_iff_count_le_one.mp ?_ id
  exact (nodup_chapters hgrows).sublist (List.filter_sublist.map Chapter.vertex)

theorem range_next {id : Nat} (hid : id ∈ graph.vertices .range) :
    (graph.links .next).countP (fun edge => edge.source = id) = 1 := by
  rw [hgrows.vertices_eq, verticesIn_range] at hid
  rw [countP_source, hgrows.links_eq, linksIn_next, List.map_map]
  exact List.count_eq_one_of_mem (nodup_placements hgrows) hid

theorem range_contained {id : Nat} (hid : id ∈ graph.vertices .range) :
    ((graph.links .contains).flatMap Edge.allTargets).count id = 1 := by
  rw [hgrows.vertices_eq, verticesIn_range] at hid
  -- documents without ranges have no edge, and would add nothing
  have htargets : (graph.links .contains).flatMap Edge.allTargets =
      layout.placements.map Placement.vertex := by
    rw [hgrows.links_eq, linksIn_contains, List.flatMap_map, placements, List.map_flatMap]
    refine flatMap_filter ?_ layout.chapters
    intro chapter hempty
    have hnone : chapter.placements = [] := by simpa using hempty
    rw [hnone]
    rfl
  rw [htargets]
  exact List.count_eq_one_of_mem (nodup_placements hgrows) hid

end Graph

section Presented

variable (hpresents : layout.Presents program options table occurrences)
  (hgrows : Graph.empty.Grows (layout.elements options) graph)

include hpresents hgrows

/-! ### Result sets -/

theorem next_ends {edge : Edge} (hedge : edge ∈ graph.links .next) :
    edge.source ∈ graph.vertices .range ∧
      ∃ target ∈ graph.vertices .resultSet, edge.allTargets = [target] := by
  rw [hgrows.links_eq, linksIn_next] at hedge
  obtain ⟨placement, hplacement, rfl⟩ := List.mem_map.mp hedge
  rw [hgrows.vertices_eq, hgrows.vertices_eq, verticesIn_range, verticesIn_resultSet]
  have hpair : placement.pair ∈ layout.resultSets := hpresents.covers.gathers.pair_mem hplacement
  exact ⟨List.mem_map_of_mem hplacement, placement.resultSet, List.mem_map_of_mem hpair, rfl⟩

omit hpresents in
theorem resultSet_reached {id : Nat} (hid : id ∈ graph.vertices .resultSet) :
    ∃ edge ∈ graph.links .next, id ∈ edge.allTargets := by
  rw [hgrows.vertices_eq, verticesIn_resultSet] at hid
  obtain ⟨entry, hentry, rfl⟩ := List.mem_map.mp hid
  obtain ⟨placement, hplacement, rfl⟩ := List.mem_map.mp hentry
  rw [hgrows.links_eq, linksIn_next]
  exact ⟨_, List.mem_map_of_mem (List.mem_of_mem_filter hplacement), List.mem_singleton.mpr rfl⟩

theorem moniker_ends {edge : Edge} (hedge : edge ∈ graph.links .moniker) :
    edge.source ∈ graph.vertices .resultSet ∧
      ∃ target ∈ graph.vertices .moniker, edge.allTargets = [target] := by
  rw [hgrows.links_eq, linksIn_moniker] at hedge
  obtain ⟨label, hlabel, rfl⟩ := List.mem_map.mp hedge
  rw [hgrows.vertices_eq, hgrows.vertices_eq, verticesIn_resultSet, verticesIn_moniker]
  obtain ⟨hentry, -⟩ := mem_resultSets_of_label hpresents.labels hlabel
  exact ⟨List.mem_map.mpr ⟨_, hentry, rfl⟩, label.vertex,
    List.mem_append_left _ (List.mem_map_of_mem hlabel), rfl⟩

theorem resultSet_moniker (id : Nat) :
    (graph.links .moniker).countP (fun edge => edge.source = id) ≤ 1 := by
  rw [countP_source, hgrows.links_eq, linksIn_moniker, List.map_map]
  refine List.nodup_iff_count_le_one.mp ?_ id
  exact nodup_resultSets_labels hpresents.labels (nodup_resultSets hgrows)

/-! ### Monikers -/

/-- An attach edge leads from an attachment to a label. -/
theorem exists_label_of_attach {edge : Edge} (hedge : edge ∈ graph.links .attach) :
    ∃ attachment ∈ layout.attachments, ∃ label ∈ layout.labels,
      edge = .attach attachment.vertex label.vertex := by
  rw [hgrows.links_eq, linksIn_attach] at hedge
  obtain ⟨attachment, hattachment, rfl⟩ := List.mem_map.mp hedge
  obtain ⟨label, hlabel, -, htarget⟩ := hpresents.attached attachment hattachment
  exact ⟨attachment, hattachment, label, hlabel, by rw [htarget]⟩

theorem attach_ends {edge : Edge} (hedge : edge ∈ graph.links .attach) :
    edge.source ∈ graph.vertices .moniker ∧
      ∃ target ∈ graph.vertices .moniker, edge.allTargets = [target] := by
  obtain ⟨attachment, hattachment, label, hlabel, rfl⟩ :=
    exists_label_of_attach hpresents hgrows hedge
  rw [hgrows.vertices_eq, verticesIn_moniker]
  exact ⟨List.mem_append_right _ (List.mem_map_of_mem hattachment), label.vertex,
    List.mem_append_left _ (List.mem_map_of_mem hlabel), rfl⟩

theorem source_ne_label {edge : Edge} (hedge : edge ∈ graph.links .attach) {label : Label}
    (hlabel : label ∈ layout.labels) : edge.source ≠ label.vertex := by
  obtain ⟨attachment, hattachment, other, hother, rfl⟩ :=
    exists_label_of_attach hpresents hgrows hedge
  exact label_ne_attachment hgrows hlabel hattachment

theorem attach_once {edge : Edge} (hedge : edge ∈ graph.links .attach) {target : Nat}
    (htarget : target ∈ edge.allTargets) {other : Edge} (hother : other ∈ graph.links .attach) :
    other.source ≠ target := by
  obtain ⟨attachment, hattachment, label, hlabel, rfl⟩ :=
    exists_label_of_attach hpresents hgrows hedge
  rw [List.mem_singleton.mp (show target ∈ [label.vertex] from htarget)]
  exact source_ne_label hpresents hgrows hother hlabel

/-- The moniker of a label belongs to the label's result set. -/
theorem isCanonical_label {label : Label} (hlabel : label ∈ layout.labels) :
    graph.IsCanonical label.vertex := by
  refine ⟨?_, fun edge hedge => source_ne_label hpresents hgrows hedge hlabel⟩
  have hcount : (graph.links .moniker).countP (fun edge => label.vertex ∈ edge.allTargets) =
      (layout.labels.map Label.vertex).count label.vertex := by
    rw [hgrows.links_eq, linksIn_moniker, List.count, List.countP_map, List.countP_map]
    refine List.countP_congr fun other _ => ?_
    simp [Edge.moniker, Edge.allTargets]
  rw [hcount]
  exact List.count_eq_one_of_mem (List.nodup_append.mp (nodup_monikers hgrows)).1
    (List.mem_map_of_mem hlabel)

/-- No edge leads to an attachment: edges lead to ranges, result sets and the monikers of labels. -/
theorem attachment_notMem_allTargets {attachment : Attachment}
    (hattachment : attachment ∈ layout.attachments) {kind : EdgeLabel} {edge : Edge}
    (hedge : edge ∈ graph.links kind) : attachment.vertex ∉ edge.allTargets := by
  have hmoniker : attachment.vertex ∈ graph.vertices .moniker := by
    rw [hgrows.vertices_eq, verticesIn_moniker]
    exact List.mem_append_right _ (List.mem_map_of_mem hattachment)
  have hkind : ∀ {other : VertexLabel}, attachment.vertex ∈ graph.vertices other →
      other = .moniker := by
    intro other hother
    rw [hgrows.vertices_eq] at hother hmoniker
    exact hgrows.label_unique hother hmoniker
  intro htarget
  cases kind with
  | next =>
    obtain ⟨-, target, hset, heq⟩ := next_ends hpresents hgrows hedge
    rw [heq, List.mem_singleton] at htarget
    cases hkind (htarget ▸ hset)
  | contains => cases hkind ((contains_ends hgrows hedge).2.2 _ htarget)
  | moniker =>
    rw [hgrows.links_eq, linksIn_moniker] at hedge
    obtain ⟨label, hlabel, rfl⟩ := List.mem_map.mp hedge
    exact label_ne_attachment hgrows hlabel hattachment (List.mem_singleton.mp htarget)
  | attach =>
    obtain ⟨other, -, label, hlabel, rfl⟩ := exists_label_of_attach hpresents hgrows hedge
    exact label_ne_attachment hgrows hlabel hattachment (List.mem_singleton.mp htarget)

theorem isAttached_attachment {attachment : Attachment}
    (hattachment : attachment ∈ layout.attachments) : graph.IsAttached attachment.vertex := by
  refine ⟨?_, fun kind _ edge hedge =>
    attachment_notMem_allTargets hpresents hgrows hattachment hedge⟩
  rw [countP_source, hgrows.links_eq, linksIn_attach, List.map_map]
  exact List.count_eq_one_of_mem (List.nodup_append.mp (nodup_monikers hgrows)).2.1
    (List.mem_map_of_mem hattachment)

theorem moniker_role {id : Nat} (hid : id ∈ graph.vertices .moniker) :
    graph.IsCanonical id ∨ graph.IsAttached id := by
  rw [hgrows.vertices_eq, verticesIn_moniker] at hid
  rcases List.mem_append.mp hid with hid | hid
  · obtain ⟨label, hlabel, rfl⟩ := List.mem_map.mp hid
    exact Or.inl (isCanonical_label hpresents hgrows hlabel)
  · obtain ⟨attachment, hattachment, rfl⟩ := List.mem_map.mp hid
    exact Or.inr (isAttached_attachment hpresents hgrows hattachment)

end Presented

end Layout

/-- Every graph that a run gives is well formed. -/
theorem Program.index_wellFormed {program : Program} {options : IndexOptions} {index : Index}
    (h : program.index options = .ok index) : index.graph.WellFormed := by
  obtain ⟨table, occurrences, layout, -, -, hpresents, hgrows⟩ := exists_layout h
  have hnumbered : index.graph.elements.toList.map Element.id =
      List.range' 1 index.graph.elements.size := by
    have hsize : index.graph.elements.size = (layout.elements options).length := by
      rw [← Array.length_toList, hgrows.elements]
      rfl
    rw [hgrows.elements, hsize]
    exact hgrows.numbers
  exact {
    numbered := hnumbered
    next_ends := fun _ => Layout.next_ends hpresents hgrows
    moniker_ends := fun _ => Layout.moniker_ends hpresents hgrows
    attach_ends := fun _ => Layout.attach_ends hpresents hgrows
    contains_ends := fun _ => Layout.contains_ends hgrows
    range_next := fun _ => Layout.range_next hgrows
    range_contained := fun _ => Layout.range_contained hgrows
    resultSet_reached := fun _ => Layout.resultSet_reached hgrows
    resultSet_moniker := fun id _ => Layout.resultSet_moniker hpresents hgrows id
    document_contains := fun id _ => Layout.document_contains hgrows id
    moniker_role := fun _ => Layout.moniker_role hpresents hgrows
    attach_once := fun _ hedge _ htarget _ => Layout.attach_once hpresents hgrows hedge htarget }

/-- The graph of the shop has vertices of all kinds, so that nothing of the above is void. -/
theorem Program.index_shop_wellFormed : ∃ index, shop.index {} = .ok index ∧
    VertexLabel.all.map (fun kind => (kind, (index.graph.vertices kind).length)) =
      [(.document, 2), (.moniker, 5), (.range, 5), (.resultSet, 4)] ∧
    index.graph.WellFormed := by
  have hsizes : (shop.index {}).toOption.map (fun index =>
      VertexLabel.all.map fun kind => (kind, (index.graph.vertices kind).length)) =
        some [(.document, 2), (.moniker, 5), (.range, 5), (.resultSet, 4)] := by
    decide +kernel
  obtain ⟨index, hindex, hsizes⟩ := Option.map_eq_some_iff.mp hsizes
  rw [toOption_eq_some_iff] at hindex
  exact ⟨index, hindex, hsizes, index_wellFormed hindex⟩

-- a range without a result set
example : ¬Graph.WellFormed (Graph.empty.push (.vertex (.range (.onLine 0 0 1)
    ⟨.definition, "a", 14, none⟩))) := by
  decide +kernel

end MonikerIndex
