import MonikerIndex.Proofs.Emission.Mentions
import MonikerIndex.Proofs.Retelling.Emission

/-!
# Moving code within its file

An edit above a declaration moves it down; the positions of a file change, but not their order. A
run reads positions in three ways: it sorts by them, it drops a site at the place of another one,
and it digests them into identifiers that are unique in their documents only. The first two look at
the order alone, so export identities, numbers and edges stay as they are.

Only positions in use can be asked to keep their order. No other map than the identity increases on
all positions, since there are finitely many of them.

That ranges get the moved spans of the file they are in is read off the layouts of both graphs: they
place the same occurrences, translated, under the same numbers (`occurrence_eq_of_vertex_eq`).

Main statement: with code moved, a run gives the same elements but for the spans of ranges and the
identifiers that are digests of places (`index_move`).
-/

namespace MonikerIndex

/-! ### Moved programs -/

/-- The span between the images of both ends. -/
def Span.map (f : Position → Position) (span : Span) : Span :=
  ⟨f span.start, f span.stop⟩

namespace Program

/-- The program with every position moved by the map of its file. -/
def move (move : String → Position → Position) (program : Program) : Program :=
  { program with
    symbols := program.symbols.map fun symbol =>
      { symbol with
        declarations := symbol.declarations.map fun declaration =>
          { declaration with
            span := declaration.span.map (move declaration.file)
            fullSpan := declaration.fullSpan.map (Span.map (move declaration.file)) } }
    references := program.references.map fun reference =>
      { reference with span := reference.span.map (move reference.file) }
    aliases := program.aliases.map fun aliasFact =>
      { aliasFact with span := aliasFact.span.map (move aliasFact.file) } }

/-- The positions in a file at which a name, a reference or an alias starts or ends. -/
def positionsIn (program : Program) (file : String) : List Position :=
  (program.places.filter (·.file == file)).flatMap fun place => [place.span.start, place.span.stop]

/-- Whether positions in use keep their order within each file. -/
def IncreasingOn (program : Program) (move : String → Position → Position) : Prop :=
  ∀ file, ∀ a ∈ program.positionsIn file, ∀ b ∈ program.positionsIn file,
    compare a b = .lt → compare (move file a) (move file b) = .lt

theorem mem_positionsIn {program : Program} {place : Place} (h : place ∈ program.places) :
    place.span.start ∈ program.positionsIn place.file ∧
      place.span.stop ∈ program.positionsIn place.file := by
  have hplace : place ∈ program.places.filter (·.file == place.file) :=
    List.mem_filter.mpr ⟨h, beq_self_eq_true _⟩
  constructor
  · exact List.mem_flatMap.mpr ⟨place, hplace, List.mem_cons_self⟩
  · exact List.mem_flatMap.mpr ⟨place, hplace, List.mem_cons_of_mem _ List.mem_cons_self⟩

variable {program : Program} {move : String → Position → Position}

theorem IncreasingOn.compare_eq (h : program.IncreasingOn move) {file : String} {a b : Position}
    (ha : a ∈ program.positionsIn file) (hb : b ∈ program.positionsIn file) :
    compare (move file a) (move file b) = compare a b := by
  cases hcompare : compare a b with
  | lt => exact h file a ha b hb hcompare
  | gt =>
    rw [Std.OrientedOrd.eq_swap, h file b hb a ha (Std.OrientedCmp.lt_of_gt hcompare)]
    rfl
  | eq =>
    rw [Std.compare_eq_iff_eq.mp hcompare]
    exact Std.ReflOrd.compare_self

end Program

/-! ### Moving as a translation -/

namespace Translation

/-- The translation that changes positions only. -/
def ofPositions (move : String → Position → Position) : Translation where
  handle := id
  file := id
  span := fun file => Span.map (move file)

variable (move : String → Position → Position)

theorem ofPositions_aliasFact :
    (ofPositions move).aliasFact = fun aliasFact =>
      { aliasFact with span := aliasFact.span.map (move aliasFact.file) } := by
  funext aliasFact
  simp [Translation.aliasFact, ofPositions]

end Translation

namespace Program

variable {program : Program} {move : String → Position → Position}

theorem keeps_move (h : program.IncreasingOn move) :
    (Translation.ofPositions move).Keeps program (program.move move) where
  start := by
    intro a ha b hb hfile
    have hstart := h.compare_eq (mem_positionsIn ha).1 (hfile ▸ (mem_positionsIn hb).1)
    rw [← hstart]
    simp only [Translation.place, Translation.ofPositions, Span.map, hfile]
  stop := by
    intro a ha b hb hfile
    have hstop := h.compare_eq (mem_positionsIn ha).2 (hfile ▸ (mem_positionsIn hb).2)
    rw [← hstop]
    simp only [Translation.place, Translation.ofPositions, Span.map, hfile]
  kind := fun _ _ => rfl
  moduleName := fun _ _ => rfl

theorem retells_move (h : program.IncreasingOn move) :
    Retells (.ofPositions move) program (program.move move) where
  documents := by
    have hsame : ∀ document, (Translation.ofPositions move).document document = document :=
      fun _ => rfl
    rw [List.map_id'' hsame]
    exact List.Perm.refl _
  symbols := by
    refine ⟨_, ?_, List.Perm.refl _⟩
    rw [Program.move, List.forall₂_map_right_iff, List.forall₂_same]
    intro symbol _
    refine ⟨rfl, rfl, rfl, ?_, rfl, rfl, AgreeBy.refl _ _⟩
    exact (congrFun Option.map_id symbol.parent).symm
  references := AgreeBy.refl _ _
  aliases := by
    rw [Translation.ofPositions_aliasFact]
    exact AgreeBy.refl _ _
  handle_inj := fun _ _ _ _ heq => heq
  compare_file := fun _ _ _ _ => rfl
  compare_span := by
    intro a ha b hb hfile
    exact congrArg₂ Ordering.then ((keeps_move h).start a ha b hb hfile)
      ((keeps_move h).stop a ha b hb hfile)
  compare_handle := fun _ _ _ _ _ _ _ => rfl

end Program

/-! ### Placements side by side -/

theorem verticesIn_eq_of_retold {T : Translation} {S : String → String → Prop}
    {elements elements' : List Element}
    (h : List.Forall₂ (Element.Retold T S) elements elements') (label : VertexLabel) :
    verticesIn label elements' = verticesIn label elements := by
  induction h with
  | nil => rfl
  | @cons element told elements elements' hhead _ ih =>
    obtain ⟨id, payload, payload', rfl, rfl, hpayload⟩ := hhead.exists_payloads
    cases hpayload with
    | document => rw [verticesIn_cons_vertex, verticesIn_cons_vertex, ih]; rfl
    | range => rw [verticesIn_cons_vertex, verticesIn_cons_vertex, ih]; rfl
    | resultSet => rw [verticesIn_cons_vertex, verticesIn_cons_vertex, ih]
    | moniker => rw [verticesIn_cons_vertex, verticesIn_cons_vertex, ih]; rfl
    | edge => exact ih

theorem Covers.map_occurrence {program : Program} {occurrences : List Occurrence}
    {chapters : List Chapter} {resultSets : List (Nat × Nat)}
    (h : Covers program occurrences chapters resultSets) :
    (chapters.flatMap Chapter.placements).map Placement.occurrence =
      program.sortedDocuments.flatMap fun document =>
        Occurrence.inFile occurrences document.path := by
  rw [← h.documents, List.map_flatMap, List.flatMap_map]
  exact List.flatMap_congr h.placements

theorem Layout.exists_placement_of_range {layout : Layout} {options : IndexOptions} {id : Nat}
    {span : Span} {tag : RangeTag}
    (h : ⟨id, .vertex (.range span tag)⟩ ∈ layout.elements options) :
    ∃ placement ∈ layout.placements, id = placement.vertex ∧ span = placement.occurrence.span ∧
      tag = placement.occurrence.tag := by
  rcases List.mem_append.mp h with hmem | hmem
  · obtain ⟨chapter, hchapter, hmem⟩ := List.mem_flatMap.mp hmem
    have hplaced : ∃ placement ∈ chapter.placements,
        ⟨id, .vertex (.range span tag)⟩ ∈ placement.elements := by
      simpa [Chapter.elements] using hmem
    obtain ⟨placement, hplacement, hmem⟩ := hplaced
    refine ⟨placement, List.mem_flatMap_of_mem hchapter hplacement, ?_⟩
    cases hfirst : placement.isFirst with
    | false => simpa [Placement.elements, hfirst] using hmem
    | true => simpa [Placement.elements, hfirst] using hmem
  · simp [Label.elements, Attachment.elements] at hmem

/-- Two runs that come to tables and occurrences come to the same ones, translated. -/
theorem Retells.occurrences_agree {T : Translation} {program other : Program}
    (h : Retells T program other) {table table' : SymbolTable}
    {occurrences occurrences' : List Occurrence} (hmerge : program.merge = .ok table)
    (hmerge' : other.merge = .ok table')
    (hoccurrences : program.occurrences table = .ok occurrences)
    (hoccurrences' : other.occurrences table' = .ok occurrences') :
    (∀ occurrence ∈ occurrences, occurrence.place ∈ program.places) ∧
      AgreeBy Occurrence.place (occurrences.map T.occurrence) occurrences' := by
  have htable := h.merge_alike
  rw [hmerge, hmerge'] at htable
  have halike := h.occurrences_alike hmerge
  rw [← htable.rel_of_ok, hoccurrences, hoccurrences'] at halike
  exact halike.rel_of_ok

namespace Retells

variable {T : Translation} {program other : Program} (h : Retells T program other)
  (hkeeps : T.Keeps program other) (hnodup : (program.documents.map Document.path).Nodup)
  {occurrences occurrences' : List Occurrence} {layout layout' : Layout}
  {resultSets resultSets' : List (Nat × Nat)}
  (hplaces : ∀ occurrence ∈ occurrences, occurrence.place ∈ program.places)
  (hagree : AgreeBy Occurrence.place (occurrences.map T.occurrence) occurrences')
  (hcovers : Covers program occurrences layout.chapters resultSets)
  (hcovers' : Covers other occurrences' layout'.chapters resultSets')

include h hkeeps hnodup hplaces hagree hcovers hcovers'

theorem map_occurrence_placements :
    layout'.placements.map Placement.occurrence =
      (layout.placements.map Placement.occurrence).map T.occurrence := by
  rw [Layout.placements, hcovers'.map_occurrence, Layout.placements, hcovers.map_occurrence,
    h.sortedDocuments_eq hnodup, List.flatMap_map, List.map_flatMap]
  refine List.flatMap_congr fun document hdocument => ?_
  exact h.inFile_file hkeeps hplaces hagree (Program.path_mem_files (mem_sortBy.mp hdocument))

/-- Where both graphs have the same ranges, a range places the same occurrence in both,
    translated. -/
theorem occurrence_eq_of_vertex_eq
    (hvertices : layout'.placements.map Placement.vertex = layout.placements.map Placement.vertex)
    (hdistinct : (layout.placements.map Placement.vertex).Nodup) {placement placement' : Placement}
    (hmem : placement ∈ layout.placements) (hmem' : placement' ∈ layout'.placements)
    (hvertex : placement'.vertex = placement.vertex) :
    placement'.occurrence = T.occurrence placement.occurrence := by
  have hpairs : (layout'.placements.map fun other => (other.vertex, other.occurrence)) =
      layout.placements.map fun other => (other.vertex, T.occurrence other.occurrence) := by
    have hoccurrences :=
      h.map_occurrence_placements hkeeps hnodup hplaces hagree hcovers hcovers'
    rw [List.map_map] at hoccurrences
    rw [← List.zip_map', ← List.zip_map', hvertices, hoccurrences]
    rfl
  have hpair : (placement'.vertex, placement'.occurrence) ∈
      layout.placements.map fun other => (other.vertex, T.occurrence other.occurrence) := by
    rw [← hpairs]
    exact List.mem_map_of_mem hmem'
  obtain ⟨found, hfound, heq⟩ := List.mem_map.mp hpair
  obtain ⟨hid, hoccurrence⟩ := Prod.mk.inj heq
  -- numbers are not given twice, so it is the placement itself that was found
  have hsame := List.inj_on_of_nodup_map hdistinct hfound hmem (hid.trans hvertex)
  rw [← hoccurrence, hsame]

end Retells

/-! ### The files of ranges -/

/-- Whether each range of a graph is in the given file, that is, contained in the document with that
    path. The vertices of documents are given by their paths. -/
structure Graph.Houses (graph : Graph) (program : Program) (vertexOf : String → Nat)
    (fileOf : Nat → String) : Prop where
  documents : Set.BijOn vertexOf {path | path ∈ program.documents.map Document.path}
    {id | id ∈ graph.vertices .document}
  document : ∀ document ∈ program.documents, ∃ languageId, graph.get? (vertexOf document.path) =
    some ⟨vertexOf document.path,
      .vertex (.document (.ofPath document.path) languageId document.actualKind)⟩
  ranges : ∀ range ∈ graph.vertices .range, ∃ document ∈ program.documents,
    fileOf range = document.path ∧
      ∃ edge ∈ graph.edgesFrom .contains (vertexOf document.path), range ∈ edge.allTargets

namespace Layout

variable {layout : Layout} {program : Program} {options : IndexOptions} {table : SymbolTable}
  {occurrences : List Occurrence} {graph : Graph}

def fileOf (layout : Layout) (range : Nat) : String :=
  ((layout.placements.map fun placement =>
    (placement.vertex, placement.occurrence.file)).lookup range).getD ""

theorem fileOf_placement (hgrows : Graph.empty.Grows (layout.elements options) graph)
    {placement : Placement} (hmem : placement ∈ layout.placements) :
    layout.fileOf placement.vertex = placement.occurrence.file := by
  have hentry : (placement.vertex, placement.occurrence.file) ∈ layout.placements.map
      fun placement => (placement.vertex, placement.occurrence.file) := List.mem_map_of_mem hmem
  rw [fileOf, lookup_of_mem ?_ hentry]
  · rfl
  · rw [List.map_map]
    exact nodup_placements hgrows

theorem houses (hpresents : layout.Presents program options table occurrences)
    (hgrows : Graph.empty.Grows (layout.elements options) graph)
    (hnodup : (program.documents.map Document.path).Nodup) (hmerge : program.merge = .ok table)
    (hoccurrences : program.occurrences table = .ok occurrences) :
    graph.Houses program layout.vertexOf layout.fileOf := by
  have hfaithful := faithful hpresents hgrows hnodup hmerge hoccurrences
  refine ⟨hfaithful.documents, fun document hmem => ⟨_, hfaithful.document document hmem⟩, ?_⟩
  intro range hrange
  rw [hgrows.vertices_eq, verticesIn_range] at hrange
  obtain ⟨placement, hplacement, rfl⟩ := List.mem_map.mp hrange
  obtain ⟨chapter, hchapter, hinner⟩ := List.mem_flatMap.mp hplacement
  have hfile := ((hpresents.covers.mem_occurrences_iff hchapter).mp
    (List.mem_map_of_mem hinner)).2
  refine ⟨chapter.document, hpresents.covers.document_mem hchapter, ?_, ?_⟩
  · rw [fileOf_placement hgrows hplacement, hfile]
  · rw [vertexOf_chapter hpresents hnodup hchapter, edgesFrom_contains hgrows hchapter,
      if_neg (List.ne_nil_of_mem hinner)]
    exact ⟨_, List.mem_singleton.mpr rfl, List.mem_map_of_mem hinner⟩

end Layout

/-! ### Runs on moved code -/

/-- Whether two elements are the same but for what tells where code is in its file: the spans of a
    range, which are moved by the map of its file, and the identifier of a moniker that is unique in
    its document. -/
inductive Element.Moved (move : String → Position → Position) (fileOf : Nat → String) :
    Element → Element → Prop where
  | same (element : Element) (h : element.isRange = false) : Moved move fileOf element element
  | range (id : Nat) (span : Span) (tag : RangeTag) :
      Moved move fileOf ⟨id, .vertex (.range span tag)⟩
        ⟨id, .vertex (.range (span.map (move (fileOf id)))
          { tag with fullSpan := tag.fullSpan.map (Span.map (move (fileOf id))) })⟩
  | moniker (id : Nat) (scheme identifier identifier' : String) :
      Moved move fileOf ⟨id, .vertex (.moniker ((Identity.internal identifier).under scheme))⟩
        ⟨id, .vertex (.moniker ((Identity.internal identifier').under scheme))⟩

theorem Element.moved_of_retold {move : String → Position → Position} {fileOf : Nat → String}
    {S : String → String → Prop} {element told : Element}
    (h : Element.Retold (.ofPositions move) S element told)
    (hrange : ∀ id span span' tag tag', element = ⟨id, .vertex (.range span tag)⟩ →
      told = ⟨id, .vertex (.range span' tag')⟩ → Element.Moved move fileOf element told) :
    Element.Moved move fileOf element told := by
  obtain ⟨id, payload, payload', rfl, rfl, hpayload⟩ := h.exists_payloads
  cases hpayload with
  | document path languageId kind => exact .same _ rfl
  | range file span tag => exact hrange _ _ _ _ _ rfl rfl
  | resultSet => exact .same _ rfl
  | moniker hidentity scheme =>
    cases hidentity with
    | exported identifier => exact .same _ rfl
    | internal h => exact .moniker _ _ _ _
  | edge connection => exact .same _ rfl

theorem Program.exists_moved {program : Program} {move : String → Position → Position}
    (h : program.IncreasingOn move) {options : IndexOptions} {S : String → String → Prop}
    {index moved : Index} (hindex : program.index options = .ok index)
    (hmoved : (program.move move).index options = .ok moved)
    (hgraph : Graph.Retold (.ofPositions move) S index.graph moved.graph) :
    ∃ vertexOf fileOf, index.graph.Houses program vertexOf fileOf ∧
      List.Forall₂ (Element.Moved move fileOf) index.graph.elements.toList
        moved.graph.elements.toList := by
  obtain ⟨_, hdocuments, -⟩ := bind_eq_ok_iff.mp hindex
  have hnodup := (checkDocuments_eq_ok_iff.mp hdocuments).1
  obtain ⟨table, occurrences, layout, hmerge, hoccurrences, hpresents, hgrows⟩ :=
    exists_layout hindex
  obtain ⟨table', occurrences', layout', hmerge', hoccurrences', hpresents', hgrows'⟩ :=
    exists_layout hmoved
  have hretells := retells_move h
  obtain ⟨hplaces, hagree⟩ :=
    hretells.occurrences_agree hmerge hmerge' hoccurrences hoccurrences'
  have hvertices : layout'.placements.map Placement.vertex =
      layout.placements.map Placement.vertex := by
    rw [← layout'.verticesIn_range options, ← layout.verticesIn_range options,
      ← hgrows'.vertices_eq, ← hgrows.vertices_eq]
    exact verticesIn_eq_of_retold hgraph .range
  refine ⟨layout.vertexOf, layout.fileOf,
    Layout.houses hpresents hgrows hnodup hmerge hoccurrences, forall₂_imp_mem hgraph ?_⟩
  intro element hmem told hmem' hretold
  refine Element.moved_of_retold hretold ?_
  rintro id span span' tag tag' rfl rfl
  rw [hgrows.elements] at hmem
  rw [hgrows'.elements] at hmem'
  obtain ⟨placement, hplacement, rfl, rfl, rfl⟩ := Layout.exists_placement_of_range hmem
  obtain ⟨placement', hplacement', hvertex, rfl, rfl⟩ := Layout.exists_placement_of_range hmem'
  rw [hretells.occurrence_eq_of_vertex_eq (keeps_move h) hnodup hplaces hagree hpresents.covers
    hpresents'.covers hvertices (Layout.nodup_placements hgrows) hplacement hplacement'
    hvertex.symm]
  simp only [Translation.occurrence, Translation.ofPositions,
    ← Layout.fileOf_placement hgrows hplacement]
  exact .range _ _ _

/-- Where code is in its file does not matter: with positions moved in order, a run succeeds exactly
    if it did before, and gives the same elements under the same numbers, but for the spans of
    ranges, which are the moved ones, and the identifiers of monikers that are unique in their
    documents. -/
theorem Program.index_move {program : Program} {move : String → Position → Position}
    (h : program.IncreasingOn move) (scheme languageId : String) :
    Alike (fun index moved =>
        (∃ vertexOf fileOf, index.graph.Houses program vertexOf fileOf ∧
          List.Forall₂ (Element.Moved move fileOf) index.graph.elements.toList
            moved.graph.elements.toList) ∧ moved.aliasStats = index.aliasStats)
      (program.index { scheme := scheme, languageId := languageId })
      ((program.move move).index { scheme := scheme, languageId := languageId }) := by
  have hrun := (retells_move h).index_retold (keeps_move h)
    { scheme := scheme, languageId := languageId } apartFromPaths_of_colon
    fun table record => ⟨colon_notMem_digest _, colon_notMem_digest _⟩
  generalize hindex : program.index { scheme := scheme, languageId := languageId } = outcome at hrun
  generalize hmoved : (program.move move).index { scheme := scheme, languageId := languageId } =
    outcome' at hrun
  cases hrun with
  | error hkind => exact .error hkind
  | ok hpair => exact .ok ⟨exists_moved h hindex hmoved hpair.1, hpair.2⟩

/-- Puts two lines above the code of the shop, and indents the line of its constant. -/
def Program.shopMove (file : String) (position : Position) : Position :=
  if file = "/p/shop.ts" then
    ⟨position.line + 2, position.character + if position.line = 3 then 4 else 0⟩
  else position

/-- The shop after an edit. Only the constant that is not exported gets another name. -/
theorem Program.index_move_shop : shop.IncreasingOn shopMove ∧
    ∃ index moved, shop.index {} = .ok index ∧ (shop.move shopMove).index {} = .ok moved ∧
      index.graph.names = shopNames "Rpu7jjQ+Qs39IuafeoDCAQ==" ∧
      moved.graph.names = shopNames "IuaN3QVHjdt6uL/iNJLI/g==" ∧
      ∃ vertexOf fileOf, index.graph.Houses shop vertexOf fileOf ∧
        List.Forall₂ (Element.Moved shopMove fileOf) index.graph.elements.toList
          moved.graph.elements.toList := by
  have hincreasing : shop.IncreasingOn shopMove := by
    have hfiles : ∀ place ∈ shop.places, place.file = "/p/shop.ts" := by decide +kernel
    have hall : ∀ a ∈ shop.positionsIn "/p/shop.ts", ∀ b ∈ shop.positionsIn "/p/shop.ts",
        compare a b = .lt →
          compare (shopMove "/p/shop.ts" a) (shopMove "/p/shop.ts" b) = .lt := by
      decide +kernel
    intro file a ha
    obtain ⟨place, hplace, -⟩ := List.mem_flatMap.mp ha
    obtain ⟨hplace, hfile⟩ := List.mem_filter.mp hplace
    obtain rfl : "/p/shop.ts" = file := (hfiles place hplace).symm.trans (beq_iff_eq.mp hfile)
    exact hall a ha
  have hmoved : ((shop.move shopMove).index {}).toOption.map (·.graph.names) =
      some (shopNames "IuaN3QVHjdt6uL/iNJLI/g==") := by
    decide +kernel
  obtain ⟨index, hindex, hnames⟩ := exists_index_shop
  obtain ⟨moved, hmoved, hnames'⟩ := Option.map_eq_some_iff.mp hmoved
  rw [toOption_eq_some_iff] at hmoved
  have hrun := index_move hincreasing "tsc" "typescript"
  rw [hindex, hmoved] at hrun
  exact ⟨hincreasing, index, moved, hindex, hmoved, hnames, hnames', hrun.rel_of_ok.1⟩

end MonikerIndex
