import MonikerIndex.Proofs.Alias.Publication

/-!
# Growing graphs

A graph grows at its end, and every element gets the next number. `Grows graph block after` says
that `after` is `graph` with the elements of `block` behind it, numbered in order; a run is then a
chain of such steps, and a whole graph is what the empty graph has grown by.

The vertices and edges of one kind are read off the list of elements (`verticesIn`, `linksIn`).
Numbers are never given twice, so a number belongs to one vertex and tells its kind
(`Grows.nodup_vertices`, `Grows.label_unique`).
-/

namespace MonikerIndex

/-! ### Vertices and edges of one kind -/

/-- The numbers of the vertices of one kind. -/
def verticesIn (label : VertexLabel) (elements : List Element) : List Nat :=
  (elements.filter fun element => element.vertex?.map Vertex.label == some label).map Element.id

/-- The edges of one kind. -/
def linksIn (label : EdgeLabel) (elements : List Element) : List Edge :=
  elements.filterMap fun element => element.edge?.filter (·.label == label)

@[simp] theorem verticesIn_nil (label : VertexLabel) : verticesIn label [] = [] := rfl

@[simp] theorem verticesIn_cons_vertex (label : VertexLabel) (id : Nat) (node : Vertex)
    (elements : List Element) :
    verticesIn label (⟨id, .vertex node⟩ :: elements) =
      if node.label = label then id :: verticesIn label elements
      else verticesIn label elements := by
  simp only [verticesIn, List.filter_cons, Element.vertex?, Option.map_some]
  by_cases h : node.label = label
  · simp [h]
  · simp [h]

@[simp] theorem verticesIn_cons_edge (label : VertexLabel) (id : Nat) (edge : Edge)
    (elements : List Element) :
    verticesIn label (⟨id, .edge edge⟩ :: elements) = verticesIn label elements := rfl

@[simp] theorem verticesIn_append (label : VertexLabel) (before after : List Element) :
    verticesIn label (before ++ after) = verticesIn label before ++ verticesIn label after := by
  simp [verticesIn]

@[simp] theorem verticesIn_flatMap {α : Type} (label : VertexLabel) (blocks : List α)
    (block : α → List Element) :
    verticesIn label (blocks.flatMap block) = blocks.flatMap (verticesIn label <| block ·) := by
  induction blocks with
  | nil => rfl
  | cons first blocks ih => simp [ih]

@[simp] theorem linksIn_nil (label : EdgeLabel) : linksIn label [] = [] := rfl

@[simp] theorem linksIn_cons_vertex (label : EdgeLabel) (id : Nat) (node : Vertex)
    (elements : List Element) :
    linksIn label (⟨id, .vertex node⟩ :: elements) = linksIn label elements := rfl

@[simp] theorem linksIn_cons_edge (label : EdgeLabel) (id : Nat) (edge : Edge)
    (elements : List Element) :
    linksIn label (⟨id, .edge edge⟩ :: elements) =
      if edge.label = label then edge :: linksIn label elements else linksIn label elements := by
  simp only [linksIn, List.filterMap_cons, Element.edge?, Option.filter_some]
  by_cases h : edge.label = label
  · simp [h]
  · simp [h]

@[simp] theorem linksIn_append (label : EdgeLabel) (before after : List Element) :
    linksIn label (before ++ after) = linksIn label before ++ linksIn label after := by
  simp [linksIn]

@[simp] theorem linksIn_flatMap {α : Type} (label : EdgeLabel) (blocks : List α)
    (block : α → List Element) :
    linksIn label (blocks.flatMap block) = blocks.flatMap (linksIn label <| block ·) := by
  induction blocks with
  | nil => rfl
  | cons first blocks ih => simp [ih]

theorem mem_verticesIn_iff {label : VertexLabel} {elements : List Element} {id : Nat} :
    id ∈ verticesIn label elements ↔
      ∃ node : Vertex, node.label = label ∧ ⟨id, .vertex node⟩ ∈ elements := by
  simp only [verticesIn, List.mem_map, List.mem_filter, beq_iff_eq]
  constructor
  · rintro ⟨⟨id, payload⟩, ⟨hmem, hlabel⟩, rfl⟩
    cases payload with
    | vertex node => exact ⟨node, by simpa [Element.vertex?] using hlabel, hmem⟩
    | edge edge => simp [Element.vertex?] at hlabel
  · rintro ⟨node, hlabel, hmem⟩
    exact ⟨_, ⟨hmem, by simp [Element.vertex?, hlabel]⟩, rfl⟩

namespace Graph

/-- The numbers of a graph's vertices of one kind. -/
def vertices (graph : Graph) (label : VertexLabel) : List Nat :=
  verticesIn label graph.elements.toList

/-- A graph's edges of one kind, without their numbers. -/
def links (graph : Graph) (label : EdgeLabel) : List Edge :=
  (graph.edges label).map Prod.snd

theorem links_eq (graph : Graph) (label : EdgeLabel) :
    graph.links label = linksIn label graph.elements.toList := by
  simp only [links, edges, linksIn, List.map_filterMap, Option.map_map]
  refine List.filterMap_congr fun element _ => ?_
  cases element.edge?.filter (·.label == label) with
  | none => rfl
  | some edge => rfl

theorem mem_monikers_iff {graph : Graph} {id : Nat} {name : Moniker} :
    (id, name) ∈ graph.monikers ↔ ⟨id, .vertex (.moniker name)⟩ ∈ graph.elements.toList := by
  simp only [monikers, List.mem_filterMap, Option.map_eq_some_iff, Prod.mk.injEq]
  constructor
  · rintro ⟨⟨id, payload⟩, hmem, name, hname, rfl, rfl⟩
    simp only [Element.moniker?] at hname
    split at hname
    · cases hname
      exact hmem
    · cases hname
  · intro hmem
    exact ⟨_, hmem, name, rfl, rfl, rfl⟩

/-! ### Growth -/

/-- Whether a graph grows into another one by the elements of a block, numbered in order. -/
structure Grows (graph : Graph) (block : List Element) (after : Graph) : Prop where
  elements : after.elements.toList = graph.elements.toList ++ block
  numbers : block.map Element.id = List.range' graph.nextId block.length

namespace Grows

variable {graph middle after : Graph} {block block' : List Element}

theorem refl (graph : Graph) : graph.Grows [] graph := ⟨by simp, by simp⟩

theorem push (graph : Graph) (payload : Payload) :
    graph.Grows [⟨graph.nextId, payload⟩] (graph.push payload) :=
  ⟨by simp [Graph.push], by simp⟩

theorem lastId_eq (h : graph.Grows block after) :
    after.lastId = graph.lastId + block.length := by
  simpa [lastId] using congrArg List.length h.elements

theorem trans (h : graph.Grows block middle) (h' : middle.Grows block' after) :
    graph.Grows (block ++ block') after where
  elements := by rw [h'.elements, h.elements, List.append_assoc]
  numbers := by
    rw [List.map_append, h.numbers, h'.numbers, nextId_eq, nextId_eq, h.lastId_eq,
      List.length_append, ← List.range'_append_1]
    congr 2
    omega

/-- A graph grows by one more element. -/
theorem snoc (h : graph.Grows block middle) (payload : Payload) :
    graph.Grows (block ++ [⟨middle.nextId, payload⟩]) (middle.push payload) :=
  h.trans (push middle payload)

/-- A graph grows by a vertex and an edge from or to it. -/
theorem push_push (graph : Graph) (first second : Payload) :
    graph.Grows [⟨graph.nextId, first⟩, ⟨graph.nextId + 1, second⟩]
      ((graph.push first).push second) := by
  have hnext : (graph.push first).nextId = graph.nextId + 1 := by simp
  exact hnext ▸ (push graph first).snoc second

/-- What a graph has grown by is numbered after all it held before. -/
theorem bounds (h : graph.Grows block after) {element : Element} (hmem : element ∈ block) :
    graph.lastId < element.id ∧ element.id ≤ after.lastId := by
  have hid : element.id ∈ block.map Element.id := List.mem_map_of_mem hmem
  rw [h.numbers, List.mem_range'_1, nextId_eq] at hid
  have hlast := h.lastId_eq
  omega

theorem nodup_ids (h : graph.Grows block after) : (block.map Element.id).Nodup := by
  rw [h.numbers]
  exact List.nodup_range'

theorem nodup_vertices (h : graph.Grows block after) (label : VertexLabel) :
    (verticesIn label block).Nodup :=
  h.nodup_ids.sublist (List.filter_sublist.map _)

/-- A number tells the kind of its vertex. -/
theorem label_unique (h : graph.Grows block after) {id : Nat} {label label' : VertexLabel}
    (hid : id ∈ verticesIn label block) (hid' : id ∈ verticesIn label' block) :
    label = label' := by
  obtain ⟨node, rfl, hmem⟩ := mem_verticesIn_iff.mp hid
  obtain ⟨node', rfl, hmem'⟩ := mem_verticesIn_iff.mp hid'
  have heq := List.inj_on_of_nodup_map h.nodup_ids hmem hmem' rfl
  cases heq
  rfl

end Grows

theorem Grows.vertices_eq {graph : Graph} {block : List Element} (h : empty.Grows block graph)
    (label : VertexLabel) : graph.vertices label = verticesIn label block := by
  rw [vertices, h.elements]
  rfl

theorem Grows.links_eq {graph : Graph} {block : List Element} (h : empty.Grows block graph)
    (label : EdgeLabel) : graph.links label = linksIn label block := by
  rw [Graph.links_eq, h.elements]
  rfl

/-- In a graph that has grown from nothing, an element is found under its number. -/
theorem get?_eq_some_iff {graph : Graph} {block : List Element} (h : empty.Grows block graph)
    {id : Nat} {element : Element} :
    graph.get? id = some element ↔ element ∈ block ∧ element.id = id := by
  have helements : graph.elements.toList = block := h.elements
  have hplace : ∀ i, block[i]? = some element → element.id = i + 1 := by
    intro i hi
    have hnumber : (block.map Element.id)[i]? = some element.id := by
      rw [List.getElem?_map, hi, Option.map_some]
    rw [h.numbers] at hnumber
    obtain ⟨hlt, hget⟩ := List.getElem?_eq_some_iff.mp hnumber
    rw [List.getElem_range'] at hget
    have hzero : empty.nextId = 1 := rfl
    omega
  unfold get?
  rw [← Array.getElem?_toList, helements]
  constructor
  · intro hget
    split at hget
    · cases hget
    · have hid := hplace _ hget
      exact ⟨List.mem_of_getElem? hget, by omega⟩
  · rintro ⟨hmem, rfl⟩
    obtain ⟨i, hi⟩ := List.mem_iff_getElem?.mp hmem
    rw [hplace i hi, if_neg (Nat.succ_ne_zero i)]
    exact hi

/-! ### Accepted edges -/

/-- An edge to one target is accepted if both ends are there. -/
theorem emitEdge_of_target {graph : Graph} {edge : Edge} {target : Nat}
    (htargets : edge.allTargets = [target]) (hsource : 1 ≤ edge.source ∧ edge.source ≤ graph.lastId)
    (htarget : 1 ≤ target ∧ target ≤ graph.lastId) :
    graph.emitEdge edge = .ok (graph.push (.edge edge), graph.nextId) := by
  refine emitEdge_eq_ok (by simp [htargets]) ?_
  intro endpoint hmem
  rw [Edge.endpoints, htargets] at hmem
  rcases List.mem_cons.mp hmem with rfl | hmem
  · exact hsource
  · rw [List.mem_singleton.mp hmem]
    exact htarget

theorem emitEdge_contains {graph : Graph} {document : Nat} {ranges : List Nat}
    (hranges : ranges ≠ []) (hdocument : 1 ≤ document ∧ document ≤ graph.lastId)
    (hbounds : ∀ range ∈ ranges, 1 ≤ range ∧ range ≤ graph.lastId) :
    graph.emitEdge (.contains document ranges) =
      .ok (graph.push (.edge (.contains document ranges)), graph.nextId) := by
  refine emitEdge_eq_ok hranges ?_
  intro endpoint hmem
  rcases List.mem_cons.mp hmem with rfl | hmem
  · exact hdocument
  · exact hbounds endpoint hmem

end Graph

end MonikerIndex
