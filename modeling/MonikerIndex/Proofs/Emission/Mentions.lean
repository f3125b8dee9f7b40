import MonikerIndex.Proofs.Emission.Run
import MonikerIndex.Proofs.Emission.Views
import MonikerIndex.Proofs.Identities
import Mathlib.Data.Set.Function

/-!
# What a graph says of its program

A graph is read from its documents: the contains edge of a document leads to ranges, and the next
edge of a range to a result set (`mentions?`). What is read has to be what the program reports: one
definition for each site of a record, one reference for each reported reference, each with the
result set of its record, and nothing else.

Main statement: the graph of a run says this of every document, up to order, and its monikers say
who is who (`Faithful`, `index_faithful`).
-/

namespace MonikerIndex

/-! ### Reading a graph -/

/-- What a range says: where it is, what is there, and which result set it leads to. -/
structure Mention where
  span : Span
  tag : RangeTag
  resultSet : Nat
  deriving DecidableEq, Repr

namespace Graph

/-- The edges of one kind that leave a vertex. -/
def edgesFrom (graph : Graph) (label : EdgeLabel) (source : Nat) : List Edge :=
  (graph.links label).filter (·.source == source)

/-- What a range says, if it leads to just one result set. -/
def mention? (graph : Graph) (id : Nat) : Option Mention :=
  match graph.get? id, graph.edgesFrom .next id with
  | some ⟨_, .vertex (.range span tag)⟩, [edge] =>
      edge.target.map fun resultSet => ⟨span, tag, resultSet⟩
  | _, _ => none

/-- What the ranges of a document say. There is no answer if one of them cannot be read. -/
def mentions? (graph : Graph) (document : Nat) : Option (List Mention) :=
  ((graph.edgesFrom .contains document).flatMap Edge.allTargets).mapM graph.mention?

end Graph

/-! ### What is to be read -/

/-- The definitions in a file: one for each site of each record. -/
def SymbolTable.definitionsIn (table : SymbolTable) (resultSet : Nat → Nat) (file : String) :
    List Mention :=
  table.records.flatMap fun record =>
    (record.sites.filter (·.file == file)).map fun site =>
      ⟨site.span, ⟨.definition, site.text, site.kind.lsp, site.fullSpan⟩, resultSet record.id⟩

/-- The references in a file, each with the kind of the record that it is resolved to. -/
def Program.referencesIn (program : Program) (table : SymbolTable) (resultSet : Nat → Nat)
    (file : String) : List Mention :=
  (program.references.filter (·.file == file)).filterMap fun reference =>
    ((table.resolve reference.target).bind table.record?).map fun record =>
      ⟨reference.span, ⟨.reference, reference.text, record.kind.lsp, none⟩, resultSet record.id⟩

/-- Whether a graph says of a program what is reported, given the result set of each record and the
    vertex of each document. -/
structure Faithful (program : Program) (options : IndexOptions) (table : SymbolTable)
    (graph : Graph) (resultSet : Nat → Nat) (vertexOf : String → Nat) : Prop where
  /-- A record is known by its place in the table. -/
  ids : ∀ id record, table.record? id = some record → record.id = id
  resultSets : Set.BijOn resultSet {id | id < table.records.length}
    {id | id ∈ graph.vertices .resultSet}
  documents : Set.BijOn vertexOf {path | path ∈ program.documents.map Document.path}
    {id | id ∈ graph.vertices .document}
  document : ∀ document ∈ program.documents, graph.get? (vertexOf document.path) =
    some ⟨vertexOf document.path,
      .vertex (.document (.ofPath document.path) options.languageId document.actualKind)⟩
  /-- No reference is passed over. -/
  resolved : ∀ reference ∈ program.references,
    ((table.resolve reference.target).bind table.record?).isSome
  ranges : ∀ document ∈ program.documents, ∃ mentions,
    graph.mentions? (vertexOf document.path) = some mentions ∧
      mentions.Perm (table.definitionsIn resultSet document.path ++
        program.referencesIn table resultSet document.path)
  contains : ∀ document ∈ program.documents,
    graph.edgesFrom .contains (vertexOf document.path) ≠ [] ↔
      table.definitionsIn resultSet document.path ++
        program.referencesIn table resultSet document.path ≠ []
  named : ∀ record ∈ table.records,
    graph.edgesFrom .moniker (resultSet record.id) ≠ [] ↔
      record.name.isSome ∧ (table.visibility record.id ≠ .everywhere ∨
        ∀ outer ∈ table.chain record.id, outer.name.isSome ∨ outer.exportForm.isSome)
  identities : ∀ record ∈ table.records, ∀ edge ∈ graph.edgesFrom .moniker (resultSet record.id),
    ∃ moniker identity, edge.allTargets = [moniker] ∧
      (program.naming options).identity? table record (table.visibility record.id) =
        some identity ∧
      (moniker, identity.under options.scheme) ∈ graph.monikers

/-! ### Lists with keys -/

section Keys

variable {α β κ : Type} [DecidableEq κ]

theorem filter_key_eq_singleton {key : α → κ} {xs : List α} (hnodup : (xs.map key).Nodup) {x : α}
    (hmem : x ∈ xs) : xs.filter (key · == key x) = [x] := by
  rw [← List.perm_singleton,
    List.perm_ext_iff_of_nodup (hnodup.of_map.filter _) (List.nodup_singleton x)]
  intro y
  rw [List.mem_filter, List.mem_singleton, beq_iff_eq]
  constructor
  · rintro ⟨hy, hkey⟩
    exact List.inj_on_of_nodup_map hnodup hy hmem hkey
  · rintro rfl
    exact ⟨hmem, rfl⟩

/-- Where keys and values are distinct, looking up takes keys to values one to one. -/
theorem bijOn_lookup {entries : List (κ × Nat)} (hkeys : (entries.map Prod.fst).Nodup)
    (hvalues : (entries.map Prod.snd).Nodup) :
    Set.BijOn (fun key => (entries.lookup key).getD 0) {key | key ∈ entries.map Prod.fst}
      {value | value ∈ entries.map Prod.snd} := by
  have hlookup : ∀ entry ∈ entries, (entries.lookup entry.1).getD 0 = entry.2 := by
    intro entry hentry
    rw [lookup_of_mem hkeys hentry]
    rfl
  refine ⟨?_, ?_, ?_⟩
  · intro key hkey
    obtain ⟨entry, hentry, rfl⟩ := List.mem_map.mp hkey
    change (entries.lookup entry.1).getD 0 ∈ entries.map Prod.snd
    rw [hlookup entry hentry]
    exact List.mem_map_of_mem hentry
  · intro key hkey key' hkey' heq
    obtain ⟨entry, hentry, rfl⟩ := List.mem_map.mp hkey
    obtain ⟨entry', hentry', rfl⟩ := List.mem_map.mp hkey'
    change (entries.lookup entry.1).getD 0 = (entries.lookup entry'.1).getD 0 at heq
    rw [hlookup entry hentry, hlookup entry' hentry'] at heq
    rw [List.inj_on_of_nodup_map hvalues hentry hentry' heq]
  · intro value hvalue
    obtain ⟨entry, hentry, rfl⟩ := List.mem_map.mp hvalue
    exact ⟨entry.1, List.mem_map_of_mem hentry, hlookup entry hentry⟩

omit [DecidableEq κ] in
theorem mapM_map_eq_some {f : α → κ} {g : κ → Option β} {h : α → β} {xs : List α}
    (hread : ∀ x ∈ xs, g (f x) = some (h x)) : (xs.map f).mapM g = some (xs.map h) := by
  induction xs with
  | nil => rfl
  | cons x xs ih =>
    obtain ⟨hhead, htail⟩ := List.forall_mem_cons.mp hread
    rw [List.map_cons, List.mapM_cons, hhead, ih htail]
    rfl

end Keys

/-! ### Reading a layout -/

def Placement.mention (placement : Placement) : Mention :=
  ⟨placement.occurrence.span, placement.occurrence.tag, placement.resultSet⟩

namespace Layout

variable {layout : Layout} {options : IndexOptions} {graph : Graph}

/-- The result set of a record. -/
def resultSetOf (layout : Layout) (id : Nat) : Nat :=
  (layout.resultSets.lookup id).getD 0

/-- The paths of documents with their vertices. -/
def documentEntries (layout : Layout) : List (String × Nat) :=
  layout.chapters.map fun chapter => (chapter.document.path, chapter.vertex)

/-- The vertex of the document with the given path. -/
def vertexOf (layout : Layout) (path : String) : Nat :=
  (layout.documentEntries.lookup path).getD 0

section Ranges

variable (hgrows : Graph.empty.Grows (layout.elements options) graph)

include hgrows

theorem edgesFrom_next {placement : Placement} (hmem : placement ∈ layout.placements) :
    graph.edgesFrom .next placement.vertex = [.next placement.vertex placement.resultSet] := by
  rw [Graph.edgesFrom, hgrows.links_eq, linksIn_next, List.filter_map]
  exact congrArg _ (filter_key_eq_singleton (nodup_placements hgrows) hmem)

theorem mention?_placement {placement : Placement} (hmem : placement ∈ layout.placements) :
    graph.mention? placement.vertex = some placement.mention := by
  have hrange : graph.get? placement.vertex = some ⟨placement.vertex,
      .vertex (.range placement.occurrence.span placement.occurrence.tag)⟩ := by
    obtain ⟨chapter, hchapter, hplacement⟩ := List.mem_flatMap.mp hmem
    refine (Graph.get?_eq_some_iff hgrows).mpr ⟨List.mem_append_left _ ?_, rfl⟩
    refine List.mem_flatMap_of_mem hchapter (chapter.placements_subset_elements _ ?_)
    exact List.mem_flatMap_of_mem hplacement placement.range_mem_elements
  simp only [Graph.mention?, hrange, edgesFrom_next hgrows hmem]
  rfl

theorem edgesFrom_contains {chapter : Chapter} (hchapter : chapter ∈ layout.chapters) :
    graph.edgesFrom .contains chapter.vertex =
      if chapter.placements = [] then []
      else [.contains chapter.vertex (chapter.placements.map Placement.vertex)] := by
  have hchapters : layout.chapters.filter ((·.source == chapter.vertex) ∘ fun other =>
      Edge.contains other.vertex (other.placements.map Placement.vertex)) = [chapter] :=
    filter_key_eq_singleton (nodup_chapters hgrows) hchapter
  rw [Graph.edgesFrom, hgrows.links_eq, linksIn_contains, List.filter_map, List.filter_comm,
    hchapters]
  by_cases hempty : chapter.placements = []
  · simp [hempty]
  · simp [hempty]

theorem mentions?_chapter {chapter : Chapter} (hchapter : chapter ∈ layout.chapters) :
    graph.mentions? chapter.vertex = some (chapter.placements.map Placement.mention) := by
  have htargets : (graph.edgesFrom .contains chapter.vertex).flatMap Edge.allTargets =
      chapter.placements.map Placement.vertex := by
    rw [edgesFrom_contains hgrows hchapter]
    by_cases hempty : chapter.placements = []
    · simp [hempty]
    · simp [hempty, Edge.contains, Edge.allTargets]
  rw [Graph.mentions?, htargets]
  exact mapM_map_eq_some fun placement hplacement =>
    mention?_placement hgrows (List.mem_flatMap_of_mem hchapter hplacement)

end Ranges

end Layout

/-! ### The mentions of a program -/

def Occurrence.mention (resultSet : Nat → Nat) (occurrence : Occurrence) : Mention :=
  ⟨occurrence.span, occurrence.tag, resultSet occurrence.record⟩

theorem SymbolTable.map_mention_definitions (table : SymbolTable) (resultSet : Nat → Nat)
    (file : String) :
    (table.definitions.filter (·.file == file)).map (Occurrence.mention resultSet) =
      table.definitionsIn resultSet file := by
  simp only [definitions, definitionsIn, List.filter_flatMap, List.map_flatMap, List.filter_map,
    List.map_map]
  rfl

theorem Program.map_mention_references {program : Program} {table : SymbolTable}
    {found : List Occurrence} (hfound : List.Forall₂ (fun reference occurrence =>
      program.findReference table reference = .ok occurrence) program.references found)
    (resultSet : Nat → Nat) (file : String) :
    (found.filter (·.file == file)).map (Occurrence.mention resultSet) =
      program.referencesIn table resultSet file := by
  unfold referencesIn
  generalize program.references = references at hfound ⊢
  induction hfound with
  | nil => rfl
  | @cons reference occurrence references found hok _ ih =>
    obtain ⟨-, record, hrecord, rfl⟩ := findReference_eq_ok_iff.mp hok
    rw [List.filter_cons, List.filter_cons]
    by_cases hfile : reference.file = file
    · simp only [Occurrence.ofReference, hfile, beq_self_eq_true, if_true, List.map_cons,
        List.filterMap_cons, hrecord, Option.map_some]
      rw [ih]
      rfl
    · simpa [Occurrence.ofReference, hfile] using ih

/-- The occurrences in a file are the sites of records and the references there. -/
theorem Program.map_mention_inFile_perm {program : Program} {table : SymbolTable}
    {occurrences : List Occurrence} (h : program.occurrences table = .ok occurrences)
    (resultSet : Nat → Nat) (file : String) :
    ((Occurrence.inFile occurrences file).map (Occurrence.mention resultSet)).Perm
      (table.definitionsIn resultSet file ++ program.referencesIn table resultSet file) := by
  obtain ⟨found, hfound, rfl⟩ := occurrences_eq_ok_iff.mp h
  rw [← table.map_mention_definitions, ← map_mention_references hfound, ← List.map_append,
    ← List.filter_append]
  exact (sortBy_perm _ _).map _

namespace Layout

variable {layout : Layout} {program : Program} {options : IndexOptions} {table : SymbolTable}
  {occurrences : List Occurrence} {graph : Graph}
  (hpresents : layout.Presents program options table occurrences)

include hpresents

/-! ### Documents -/

theorem paths_perm :
    (layout.documentEntries.map Prod.fst).Perm (program.documents.map Document.path) := by
  have hpaths : layout.documentEntries.map Prod.fst =
      program.sortedDocuments.map Document.path := by
    rw [← hpresents.covers.documents, documentEntries, List.map_map, List.map_map]
    rfl
  rw [hpaths]
  exact (sortBy_perm _ _).map Document.path

theorem vertexOf_chapter (hnodup : (program.documents.map Document.path).Nodup) {chapter : Chapter}
    (hchapter : chapter ∈ layout.chapters) :
    layout.vertexOf chapter.document.path = chapter.vertex := by
  have hentry : (chapter.document.path, chapter.vertex) ∈ layout.documentEntries :=
    List.mem_map_of_mem hchapter
  rw [vertexOf, lookup_of_mem ((paths_perm hpresents).nodup_iff.mpr hnodup) hentry]
  rfl

theorem mentions_perm (hoccurrences : program.occurrences table = .ok occurrences)
    {chapter : Chapter} (hchapter : chapter ∈ layout.chapters) :
    (chapter.placements.map Placement.mention).Perm
      (table.definitionsIn layout.resultSetOf chapter.document.path ++
        program.referencesIn table layout.resultSetOf chapter.document.path) := by
  have hmentions : chapter.placements.map Placement.mention =
      (Occurrence.inFile occurrences chapter.document.path).map
        (Occurrence.mention layout.resultSetOf) := by
    rw [← hpresents.covers.placements chapter hchapter, List.map_map]
    refine List.map_congr_left fun placement hplacement => ?_
    have hpair := hpresents.covers.gathers.pair_mem (List.mem_flatMap_of_mem hchapter hplacement)
    have hlookup := lookup_of_mem hpresents.covers.nodup_records hpair
    simp only [Placement.mention, Function.comp, Occurrence.mention, resultSetOf, hlookup,
      Option.getD_some]
  rw [hmentions]
  exact Program.map_mention_inFile_perm hoccurrences _ _

/-! ### Monikers -/

theorem exists_label_iff {id : Nat} (hid : id ∈ layout.resultSets.map Prod.fst) :
    (∃ label ∈ layout.labels, label.record = id) ↔
      (table.identity? (program.naming options) id).isSome := by
  constructor
  · rintro ⟨label, hlabel, rfl⟩
    rw [(mem_resultSets_of_label hpresents.labels hlabel).2]
    rfl
  · intro hsome
    obtain ⟨identity, hidentity⟩ := Option.isSome_iff_exists.mp hsome
    obtain ⟨⟨record, resultSet⟩, hentry, rfl⟩ := List.mem_map.mp hid
    have hcontent : (record, resultSet, identity) ∈ layout.labels.map Label.content := by
      rw [hpresents.labels]
      exact mem_identified_iff.mpr ⟨hentry, hidentity⟩
    obtain ⟨label, hlabel, heq⟩ := List.mem_map.mp hcontent
    exact ⟨label, hlabel, congrArg Prod.fst heq⟩

variable (hgrows : Graph.empty.Grows (layout.elements options) graph)

include hgrows

theorem bijOn_resultSetOf :
    Set.BijOn layout.resultSetOf {id | id ∈ layout.resultSets.map Prod.fst}
      {id | id ∈ graph.vertices .resultSet} := by
  rw [hgrows.vertices_eq, verticesIn_resultSet]
  exact bijOn_lookup hpresents.covers.nodup_records (nodup_resultSets hgrows)

theorem mem_edgesFrom_moniker_iff {id : Nat} (hid : id ∈ layout.resultSets.map Prod.fst)
    {edge : Edge} :
    edge ∈ graph.edgesFrom .moniker (layout.resultSetOf id) ↔
      ∃ label ∈ layout.labels, label.record = id ∧
        edge = .moniker label.resultSet label.vertex := by
  have hset : ∀ label ∈ layout.labels, layout.resultSetOf label.record = label.resultSet ∧
      label.record ∈ layout.resultSets.map Prod.fst := by
    intro label hlabel
    obtain ⟨hentry, -⟩ := mem_resultSets_of_label hpresents.labels hlabel
    refine ⟨?_, List.mem_map.mpr ⟨_, hentry, rfl⟩⟩
    rw [resultSetOf, lookup_of_mem hpresents.covers.nodup_records hentry]
    rfl
  rw [Graph.edgesFrom, List.mem_filter, beq_iff_eq, hgrows.links_eq, linksIn_moniker, List.mem_map]
  constructor
  · rintro ⟨⟨label, hlabel, rfl⟩, hsource⟩
    obtain ⟨heq, hrecord⟩ := hset label hlabel
    refine ⟨label, hlabel, ?_, rfl⟩
    exact (bijOn_resultSetOf hpresents hgrows).injOn hrecord hid (heq.trans hsource)
  · rintro ⟨label, hlabel, rfl, rfl⟩
    exact ⟨⟨label, hlabel, rfl⟩, (hset label hlabel).1.symm⟩

theorem edgesFrom_moniker_ne_nil_iff (hmerge : program.merge = .ok table) {record : Record}
    (hrecord : record ∈ table.records) (hid : record.id ∈ layout.resultSets.map Prod.fst) :
    graph.edgesFrom .moniker (layout.resultSetOf record.id) ≠ [] ↔
      record.name.isSome ∧ (table.visibility record.id ≠ .everywhere ∨
        ∀ outer ∈ table.chain record.id, outer.name.isSome ∨ outer.exportForm.isSome) := by
  have hfound := (Program.merge_grounded hmerge).record?_id hrecord
  rw [← SymbolTable.isSome_identity?_iff hfound rfl, ← exists_label_iff hpresents hid]
  constructor
  · intro hne
    obtain ⟨edge, hedge⟩ := List.exists_mem_of_ne_nil _ hne
    obtain ⟨label, hlabel, heq, -⟩ := (mem_edgesFrom_moniker_iff hpresents hgrows hid).mp hedge
    exact ⟨label, hlabel, heq⟩
  · rintro ⟨label, hlabel, heq⟩
    have hedge := (mem_edgesFrom_moniker_iff hpresents hgrows hid).mpr ⟨label, hlabel, heq, rfl⟩
    exact List.ne_nil_of_mem hedge

theorem bijOn_vertexOf (hnodup : (program.documents.map Document.path).Nodup) :
    Set.BijOn layout.vertexOf {path | path ∈ program.documents.map Document.path}
      {id | id ∈ graph.vertices .document} := by
  have hperm := paths_perm hpresents
  have hpaths : {path | path ∈ program.documents.map Document.path} =
      {path | path ∈ layout.documentEntries.map Prod.fst} :=
    Set.ext fun _ => hperm.mem_iff.symm
  have hvertices : layout.chapters.map Chapter.vertex = layout.documentEntries.map Prod.snd := by
    rw [documentEntries, List.map_map]
    rfl
  rw [hpaths, hgrows.vertices_eq, verticesIn_document, hvertices]
  refine bijOn_lookup (hperm.nodup_iff.mpr hnodup) ?_
  rw [← hvertices]
  exact nodup_chapters hgrows

/-! ### All together -/

theorem faithful (hnodup : (program.documents.map Document.path).Nodup)
    (hmerge : program.merge = .ok table)
    (hoccurrences : program.occurrences table = .ok occurrences) :
    Faithful program options table graph layout.resultSetOf layout.vertexOf := by
  have hgrounded := Program.merge_grounded hmerge
  have hlisted : ∀ {id}, id ∈ layout.resultSets.map Prod.fst ↔ id < table.records.length :=
    hpresents.covers.mem_records_iff_lt hgrounded hoccurrences
  constructor
  case ids => exact hgrounded.id_eq
  case resultSets =>
    have hset : {id | id < table.records.length} = {id | id ∈ layout.resultSets.map Prod.fst} :=
      Set.ext fun _ => hlisted.symm
    rw [hset]
    exact bijOn_resultSetOf hpresents hgrows
  case documents => exact bijOn_vertexOf hpresents hgrows hnodup
  case document =>
    intro document hdocument
    obtain ⟨chapter, hchapter, rfl⟩ := hpresents.covers.exists_chapter hdocument
    rw [vertexOf_chapter hpresents hnodup hchapter]
    refine (Graph.get?_eq_some_iff hgrows).mpr ⟨List.mem_append_left _ ?_, rfl⟩
    exact List.mem_flatMap_of_mem hchapter List.mem_cons_self
  case resolved =>
    intro reference hreference
    obtain ⟨found, hfound, -⟩ := Program.occurrences_eq_ok_iff.mp hoccurrences
    obtain ⟨occurrence, -, hok⟩ := exists_mem_right_of_forall₂ hfound hreference
    obtain ⟨-, record, hrecord, -⟩ := Program.findReference_eq_ok_iff.mp hok
    rw [hrecord]
    rfl
  case ranges =>
    intro document hdocument
    obtain ⟨chapter, hchapter, rfl⟩ := hpresents.covers.exists_chapter hdocument
    rw [vertexOf_chapter hpresents hnodup hchapter]
    exact ⟨_, mentions?_chapter hgrows hchapter, mentions_perm hpresents hoccurrences hchapter⟩
  case contains =>
    intro document hdocument
    obtain ⟨chapter, hchapter, rfl⟩ := hpresents.covers.exists_chapter hdocument
    rw [vertexOf_chapter hpresents hnodup hchapter, edgesFrom_contains hgrows hchapter]
    have hperm := mentions_perm hpresents hoccurrences hchapter
    by_cases hempty : chapter.placements = []
    · rw [hempty] at hperm
      exact iff_of_false (by simp [hempty]) (not_not_intro hperm.nil_eq.symm)
    · refine iff_of_true (by simp [hempty]) fun hnil => hempty ?_
      rw [hnil] at hperm
      exact List.map_eq_nil_iff.mp hperm.eq_nil
  case named =>
    intro record hrecord
    exact edgesFrom_moniker_ne_nil_iff hpresents hgrows hmerge hrecord
      (hlisted.mpr (hgrounded.id_lt hrecord))
  case identities =>
    intro record hrecord edge hedge
    rw [mem_edgesFrom_moniker_iff hpresents hgrows (hlisted.mpr (hgrounded.id_lt hrecord))] at hedge
    obtain ⟨label, hlabel, heq, rfl⟩ := hedge
    obtain ⟨-, hidentity⟩ := mem_resultSets_of_label hpresents.labels hlabel
    refine ⟨label.vertex, label.identity, rfl, ?_, ?_⟩
    · rw [heq, SymbolTable.identity?, hgrounded.record?_id hrecord] at hidentity
      exact hidentity
    · exact (mem_monikers_iff hgrows).mpr (Or.inl ⟨label, hlabel, rfl, rfl⟩)

end Layout

/-- The graph of a run says of its program what is reported, nothing more and nothing twice. -/
theorem Program.index_faithful {program : Program} {options : IndexOptions} {index : Index}
    (h : program.index options = .ok index) :
    ∃ table, program.merge = .ok table ∧ ∃ resultSet vertexOf,
      Faithful program options table index.graph resultSet vertexOf := by
  obtain ⟨_, hdocuments, -⟩ := bind_eq_ok_iff.mp h
  have hnodup := (checkDocuments_eq_ok_iff.mp hdocuments).1
  obtain ⟨table, occurrences, layout, hmerge, hoccurrences, hpresents, hgrows⟩ := exists_layout h
  exact ⟨table, hmerge, layout.resultSetOf, layout.vertexOf,
    Layout.faithful hpresents hgrows hnodup hmerge hoccurrences⟩

/-- In the graph of the shop, nothing is said in one document and five things in the other one. -/
theorem Program.index_shop_faithful : ∃ index, shop.index {} = .ok index ∧
    (index.graph.vertices .document).map (fun id => (index.graph.mentions? id).map
      fun mentions => mentions.map fun mention => (mention.tag.text, mention.resultSet)) =
        [some [], some [("Shop", 3), ("open", 6), ("hours", 9), ("", 12), ("open", 6)]] ∧
    ∃ table, shop.merge = .ok table ∧ ∃ resultSet vertexOf,
      Faithful shop {} table index.graph resultSet vertexOf := by
  have hmentions : (shop.index {}).toOption.map (fun index =>
      (index.graph.vertices .document).map fun id => (index.graph.mentions? id).map
        fun mentions => mentions.map fun mention => (mention.tag.text, mention.resultSet)) =
          some [some [], some [("Shop", 3), ("open", 6), ("hours", 9), ("", 12), ("open", 6)]] := by
    decide +kernel
  obtain ⟨index, hindex, hmentions⟩ := Option.map_eq_some_iff.mp hmentions
  rw [toOption_eq_some_iff] at hindex
  exact ⟨index, hindex, hmentions, index_faithful hindex⟩

end MonikerIndex
