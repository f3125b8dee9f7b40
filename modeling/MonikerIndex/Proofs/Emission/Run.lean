import MonikerIndex.Proofs.Emission.Layout
import MonikerIndex.Proofs.Retelling.Index
import MonikerIndex.Proofs.Sites

/-!
# How a run ends

Once documents, symbols and references are found to be in order, a run can end in three ways
(`Ending`): two records bear one public identifier, or an alias is not in order, or there is a graph
with a layout that presents the program. No other error is left, since no edge is ever refused.

A run that succeeds went through all checks and gives the graph of a layout (`exists_layout`).
-/

namespace MonikerIndex

/-! ### Occurrences -/

namespace Program

variable {program : Program} {table : SymbolTable} {occurrences : List Occurrence}

theorem findReference_eq_ok_iff {reference : Reference} {occurrence : Occurrence} :
    program.findReference table reference = .ok occurrence ↔
      program.hasDocument reference.file = true ∧ ∃ record,
        (table.resolve reference.target).bind table.record? = some record ∧
          occurrence = .ofReference reference record := by
  unfold findReference
  cases hfile : program.hasDocument reference.file with
  | false => simp
  | true =>
    cases hrecord : (table.resolve reference.target).bind table.record? with
    | none => simp
    | some record => simp [eq_comm]

theorem occurrences_eq_ok_iff :
    program.occurrences table = .ok occurrences ↔ ∃ found,
      List.Forall₂ (fun reference occurrence =>
        program.findReference table reference = .ok occurrence) program.references found ∧
      occurrences = table.definitions ++ found := by
  rw [Program.occurrences, map_eq_ok_iff]
  constructor
  · rintro ⟨found, hfound, rfl⟩
    exact ⟨found, mapM_eq_ok_iff.mp hfound, rfl⟩
  · rintro ⟨found, hfound, rfl⟩
    exact ⟨found, mapM_eq_ok_iff.mpr hfound, rfl⟩

/-- Every occurrence is one of a record, in a document. -/
theorem mem_of_occurrences (hgrounded : program.Grounded table)
    (h : program.occurrences table = .ok occurrences) {occurrence : Occurrence}
    (hmem : occurrence ∈ occurrences) :
    program.hasDocument occurrence.file = true ∧ occurrence.record < table.records.length := by
  obtain ⟨found, hfound, rfl⟩ := occurrences_eq_ok_iff.mp h
  rcases List.mem_append.mp hmem with hmem | hmem
  · obtain ⟨record, hrecord, hmem⟩ := List.mem_flatMap.mp hmem
    obtain ⟨site, hsite, rfl⟩ := List.mem_map.mp hmem
    exact ⟨hgrounded.inDocuments record hrecord site hsite, hgrounded.id_lt hrecord⟩
  · obtain ⟨reference, -, hok⟩ := exists_mem_left_of_forall₂ hfound hmem
    obtain ⟨hfile, record, hrecord, rfl⟩ := findReference_eq_ok_iff.mp hok
    obtain ⟨id, -, hid⟩ := Option.bind_eq_some_iff.mp hrecord
    exact ⟨hfile, hgrounded.id_lt (List.mem_of_getElem? hid)⟩

/-- Every record occurs, since it is declared somewhere. -/
theorem exists_occurrence (hgrounded : program.Grounded table)
    (h : program.occurrences table = .ok occurrences) {id : Nat}
    (hid : id < table.records.length) : ∃ occurrence ∈ occurrences, occurrence.record = id := by
  obtain ⟨found, -, rfl⟩ := occurrences_eq_ok_iff.mp h
  have hrecord : table.records[id] ∈ table.records := List.getElem_mem hid
  obtain ⟨site, hsite⟩ := List.exists_mem_of_ne_nil _ (hgrounded.sited _ hrecord)
  refine ⟨.ofSite table.records[id] site, ?_, ?_⟩
  · exact List.mem_append_left _ (List.mem_flatMap_of_mem hrecord (List.mem_map_of_mem hsite))
  · exact hgrounded.id_eq id _ (List.getElem?_eq_getElem hid)

end Program

/-- In the graph of a program, the records with a result set are all records. -/
theorem Covers.mem_records_iff_lt {program : Program} {table : SymbolTable}
    {occurrences : List Occurrence} {chapters : List Chapter} {resultSets : List (Nat × Nat)}
    (h : Covers program occurrences chapters resultSets) (hgrounded : program.Grounded table)
    (hoccurrences : program.occurrences table = .ok occurrences) {id : Nat} :
    id ∈ resultSets.map Prod.fst ↔ id < table.records.length := by
  rw [h.mem_records_iff]
  constructor
  · rintro ⟨occurrence, hmem, -, rfl⟩
    exact (Program.mem_of_occurrences hgrounded hoccurrences hmem).2
  · intro hid
    obtain ⟨occurrence, hmem, hrecord⟩ := Program.exists_occurrence hgrounded hoccurrences hid
    exact ⟨occurrence, hmem, (Program.mem_of_occurrences hgrounded hoccurrences hmem).1, hrecord⟩

/-! ### Endings -/

/-- How a run ends whose documents, symbols and references are in order. -/
inductive Ending (program : Program) (options : IndexOptions) (table : SymbolTable)
    (occurrences : List Occurrence) : Except Error Index → Prop where
  | collision {chapters : List Chapter} {resultSets : List (Nat × Nat)} {identifier : String}
      (hcovers : Covers program occurrences chapters resultSets)
      (hclash : ¬(publicIdentifiers
        (identified (table.identity? (program.naming options)) resultSets)).Nodup) :
      Ending program options table occurrences (.error (.collision identifier))
  | badAlias {chapters : List Chapter} {resultSets : List (Nat × Nat)} {e : Error}
      (hcovers : Covers program occurrences chapters resultSets)
      (hdistinct : (publicIdentifiers
        (identified (table.identity? (program.naming options)) resultSets)).Nodup)
      (hlinks : program.links (program.naming options) table = .error e) :
      Ending program options table occurrences (.error e)
  | graph {links : List Link} {layout : Layout} {index : Index}
      (hlinks : program.links (program.naming options) table = .ok links)
      (hpresents : layout.Presents program options table occurrences)
      (hgrows : Graph.empty.Grows (layout.elements options) index.graph) :
      Ending program options table occurrences (.ok index)

/-- What is attached to the labels of a table has new identifiers and leads to labels. -/
theorem exists_attachments_of_labels {table : SymbolTable} {naming : Naming} {labels : List Label}
    {resultSets : List (Nat × Nat)} (hid : ∀ id record, table.record? id = some record →
      record.id = id)
    (hlabels : labels.map Label.content = identified (table.identity? naming) resultSets)
    (hnodup : (labels.map Label.record).Nodup) (scheme : String) (graph : Graph)
    (visits : List Visit) :
    let canonical := ((labels.map Label.canonical).lookup ·)
    ∃ attachments : List Attachment,
      graph.Grows (attachments.flatMap (Attachment.elements scheme))
        (graph.attachAliases scheme canonical (firstUses (table.identifiers canonical)
          (visits.filterMap (·.use? canonical)))) ∧
      (∀ attachment ∈ attachments, ∃ label ∈ labels,
        attachment.record = label.record ∧ attachment.target = label.vertex) ∧
      (∀ attachment ∈ attachments, ∃ path : ExportPath,
        attachment.identifier = path.identifier) ∧
      Unused (labels.map (·.identity.identifier)) (attachments.map Attachment.identifier) := by
  intro canonical
  obtain ⟨attachments, huses, htargets, hgrows⟩ := graph.exists_attachments scheme canonical
    (firstUses (table.identifiers canonical) (visits.filterMap (·.use? canonical)))
  obtain ⟨⟨hdistinct, hnew⟩, hsubset⟩ := unused_firstUses (table.identifiers canonical)
    (visits.filterMap (·.use? canonical))
  -- every attachment comes from a visit to a record with a canonical moniker
  have hvisit : ∀ attachment ∈ attachments, ∃ (visit : Visit) (moniker : Canonical),
      canonical attachment.record = some moniker ∧
        attachment.identifier = visit.path.identifier := by
    intro attachment hmem
    have huse : attachment.use ∈ visits.filterMap (·.use? canonical) := by
      apply hsubset
      rw [← huses]
      exact List.mem_map_of_mem hmem
    obtain ⟨visit, -, huse⟩ := List.mem_filterMap.mp huse
    obtain ⟨moniker, hmoniker, heq⟩ := Option.map_eq_some_iff.mp huse
    obtain ⟨hidentifier, hrecord⟩ := Prod.mk.inj heq
    exact ⟨visit, moniker, hrecord ▸ hmoniker, hidentifier.symm⟩
  have hidentifiers : (firstUses (table.identifiers canonical)
      (visits.filterMap (·.use? canonical))).map Prod.fst =
        attachments.map Attachment.identifier := by
    rw [← huses, List.map_map]
    rfl
  rw [hidentifiers] at hdistinct hnew
  refine ⟨attachments, hgrows, ?_, ?_, hdistinct, ?_⟩
  · intro attachment hmem
    obtain ⟨-, moniker, hmoniker, -⟩ := hvisit attachment hmem
    obtain ⟨label, hlabel, hrecord, rfl⟩ := (lookup_canonical_iff hnodup).mp hmoniker
    refine ⟨label, hlabel, hrecord.symm, ?_⟩
    rw [htargets attachment hmem, hmoniker]
    rfl
  · intro attachment hmem
    obtain ⟨visit, -, -, hidentifier⟩ := hvisit attachment hmem
    exact ⟨visit.path, hidentifier⟩
  · intro identifier hmem htaken
    obtain ⟨label, hlabel, rfl⟩ := List.mem_map.mp htaken
    obtain ⟨-, hidentity⟩ := mem_resultSets_of_label hlabels hlabel
    obtain ⟨record, hrecord, -⟩ := Option.bind_eq_some_iff.mp hidentity
    have hlt : label.record < table.records.length := (List.getElem?_eq_some_iff.mp hrecord).1
    have hcanonical : canonical label.record = some label.canonical.2 :=
      (lookup_canonical_iff hnodup).mpr ⟨label, hlabel, rfl, rfl⟩
    exact hnew _ hmem (SymbolTable.mem_identifiers hid hlt hcanonical)

namespace Program

variable {program : Program} {options : IndexOptions} {table : SymbolTable}
  {occurrences : List Occurrence}

/-- A run whose documents, symbols and references are in order ends in one of three ways. -/
theorem index_ending (hdocuments : checkDocuments [] program.documents = .ok ())
    (hmerge : program.merge = .ok table)
    (hoccurrences : program.occurrences table = .ok occurrences) :
    Ending program options table occurrences (program.index options) := by
  obtain ⟨emission, chapters, hemit, hcovers, hgrows, hsound⟩ :=
    program.exists_chapters options occurrences
  have hrun : program.index options =
      emission.label (program.naming options) table options.scheme >>= fun labelling =>
        program.publishAliases (program.naming options) table (labelling.canonical.lookup ·)
          options.scheme labelling.graph >>= fun outcome => .ok ⟨outcome.1, outcome.2⟩ := by
    rw [index, hdocuments, hmerge]
    simp only [bind, Except.bind, hoccurrences, hemit]
    rfl
  rw [hrun]
  unfold Emission.label
  rcases @Labelling.foldlM_label { graph := emission.graph }
      (table.identity? (program.naming options)) options.scheme emission.resultSets hsound with
    ⟨hunused, labelling, labels, hlabel, hlabels, hgrows', hcanonical⟩ |
      ⟨hclash, identifier, hlabel⟩
  · rw [hlabel]
    change Ending program options table occurrences (program.publishAliases _ _ _ _ _ >>= _)
    have hid := (merge_grounded hmerge).id_eq
    have hnodup := nodup_records_labels hlabels hcovers.nodup_records
    rw [hcanonical, List.nil_append]
    cases hlinks : program.links (program.naming options) table with
    | error e =>
      have hfail : ∀ canonical, program.publishAliases (program.naming options) table canonical
          options.scheme labelling.graph = .error e := by
        intro canonical
        rw [publishAliases, hlinks]
        rfl
      rw [hfail]
      exact .badAlias hcovers hunused.1 hlinks
    | ok links =>
      have hvertex : ∀ id moniker, (labels.map Label.canonical).lookup id = some moniker →
          1 ≤ moniker.vertex ∧ moniker.vertex ≤ labelling.graph.lastId := by
        intro id moniker hmoniker
        obtain ⟨label, hlabel, -, rfl⟩ := (lookup_canonical_iff hnodup).mp hmoniker
        have hbounds := hgrows'.bounds
          (List.mem_flatMap_of_mem hlabel (label.moniker_mem_elements options.scheme))
        dsimp only [Label.canonical] at hbounds ⊢
        omega
      obtain ⟨stats, hpublish⟩ := publishAliases_of_links options.scheme hid hlinks hvertex
      obtain ⟨attachments, hgrows'', hattached, hpaths, hnew⟩ := exists_attachments_of_labels hid
        hlabels hnodup options.scheme labelling.graph (table.visits links)
      rw [hpublish]
      have hsets : emission.resultSets = Layout.resultSets ⟨chapters, labels, attachments⟩ := by
        rw [hcovers.gathers.eq_append, List.nil_append]
        rfl
      have hdistinct : (publicIdentifiers (labels.map Label.content)).Nodup := by
        rw [hlabels]
        exact hunused.1
      have hpresents : Layout.Presents ⟨chapters, labels, attachments⟩ program options table
          occurrences :=
        ⟨hsets ▸ hcovers, hsets ▸ hlabels, hdistinct, hattached, hpaths, hnew⟩
      exact .graph hlinks hpresents (hgrows.trans (hgrows'.trans hgrows''))
  · rw [hlabel]
    refine .collision hcovers fun hnodup => hclash ⟨hnodup, ?_⟩
    intro _ _ htaken
    cases htaken

/-- The graph of a run that succeeds has a layout that presents the program. -/
theorem exists_layout {index : Index} (h : program.index options = .ok index) :
    ∃ table occurrences layout, program.merge = .ok table ∧
      program.occurrences table = .ok occurrences ∧
      Layout.Presents layout program options table occurrences ∧
      Graph.empty.Grows (layout.elements options) index.graph := by
  have hindex := h
  obtain ⟨_, hdocuments, h⟩ := bind_eq_ok_iff.mp h
  obtain ⟨table, hmerge, h⟩ := bind_eq_ok_iff.mp h
  obtain ⟨occurrences, hoccurrences, -⟩ := bind_eq_ok_iff.mp h
  have hending : Ending program options table occurrences (.ok index) := by
    rw [← hindex]
    exact index_ending hdocuments hmerge hoccurrences
  cases hending with
  | @graph links layout _ hlinks hpresents hgrows =>
    exact ⟨table, occurrences, layout, hmerge, hoccurrences, hpresents, hgrows⟩

end Program

/-! ### A program with its monikers -/

/-- The identifiers of a graph's monikers, each with where it is unique. -/
def Graph.names (graph : Graph) : List (Uniqueness × String) :=
  graph.monikers.map fun entry => (entry.2.unique, entry.2.identifier)

namespace Program

/-- A program with all that a graph can hold: an exported namespace with a member, a hidden constant
    with a nameless function in it, a reference, an alias, and a document where nothing occurs. -/
def shop : Program where
  root := "/p"
  documents := [.moduleFile "/p/shop.ts", .script "/p/empty.ts"]
  symbols := [
    { handle := 1, name := some "Shop", kind := .namespaceBlock
      declarations := [{ file := "/p/shop.ts", span := .onLine 0 17 21, exported := true }] },
    { handle := 2, name := some "open", kind := .function, parent := some 1
      declarations := [{ file := "/p/shop.ts", span := .onLine 1 18 22, exported := true }] },
    { handle := 3, name := some "hours", kind := .constant
      declarations := [{ file := "/p/shop.ts", span := .onLine 3 6 11 }] },
    { handle := 4, name := none, kind := .function, parent := some 3
      declarations := [{ file := "/p/shop.ts", span := .onLine 3 14 22 }] }]
  references := [⟨"/p/shop.ts", .onLine 4 5 9, "open", 2⟩]
  aliases := [⟨"/p/shop.ts", .onLine 5 17 22, none, "Store", 1⟩]

/-- The monikers of the shop, with the given digest for its constant: two of the group, one of the
    document, and two for the alias. -/
def shopNames (hours : String) : List (Uniqueness × String) :=
  [(.group, "shop:Shop"), (.group, "shop:Shop.open"), (.document, hours), (.group, "shop:Store"),
    (.group, "shop:Store.open")]

theorem exists_index_shop : ∃ index, shop.index {} = .ok index ∧
    index.graph.names = shopNames "Rpu7jjQ+Qs39IuafeoDCAQ==" := by
  have hnames : (shop.index {}).toOption.map (·.graph.names) =
      some (shopNames "Rpu7jjQ+Qs39IuafeoDCAQ==") := by
    decide +kernel
  obtain ⟨index, hindex, hnames⟩ := Option.map_eq_some_iff.mp hnames
  exact ⟨index, toOption_eq_some_iff.mp hindex, hnames⟩

end Program

end MonikerIndex
