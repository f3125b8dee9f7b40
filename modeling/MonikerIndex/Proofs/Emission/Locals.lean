import MonikerIndex.Proofs.Emission.Mentions

/-!
# Internal names in a document

A moniker that is unique in its document is to tell apart what is defined there. It is the digest of
a text that holds file, names and start of a record's first site, so two records get the same one
where these texts agree. Nothing rules this out: what is confined to a body shares no record, even
with a member of the same name at the same place, and only public identifiers are checked for
doubles.

Main statement: if no two texts have the same digest, internal names are distinct in each document
of a graph exactly if no two records that are declared there agree in start and scope
(`index_localsDistinct_iff`).
-/

namespace MonikerIndex

/-! ### What is told apart -/

namespace Graph

/-- Whether a range of the document defines what the result set stands for. -/
def Defines (graph : Graph) (document resultSet : Nat) : Prop :=
  ∃ mentions, graph.mentions? document = some mentions ∧
    ∃ mention ∈ mentions, mention.resultSet = resultSet ∧ mention.tag.role = .definition

instance (graph : Graph) (document resultSet : Nat) :
    Decidable (graph.Defines document resultSet) :=
  decidable_of_iff ((graph.mentions? document).any fun mentions =>
    ∃ mention ∈ mentions, mention.resultSet = resultSet ∧ mention.tag.role = .definition)
    (by simp [Defines, Option.any_eq_true])

/-- Whether a moniker edge leads from the result set to the moniker. -/
def Carries (graph : Graph) (resultSet : Nat) (name : Moniker) : Prop :=
  ∃ edge ∈ graph.edgesFrom .moniker resultSet, ∃ entry ∈ graph.monikers,
    edge.allTargets = [entry.1] ∧ entry.2 = name

instance (graph : Graph) (resultSet : Nat) (name : Moniker) :
    Decidable (graph.Carries resultSet name) :=
  inferInstanceAs (Decidable (∃ edge ∈ graph.edgesFrom .moniker resultSet,
    ∃ entry ∈ graph.monikers, edge.allTargets = [entry.1] ∧ entry.2 = name))

/-- Whether result sets that are defined in one document, and carry monikers that are unique in
    theirs, have different identifiers. -/
def LocalsDistinct (graph : Graph) : Prop :=
  ∀ first ∈ graph.vertices .resultSet, ∀ second ∈ graph.vertices .resultSet, first ≠ second →
    ∀ name other, graph.Carries first name → graph.Carries second other →
      name.unique = .document → other.unique = .document →
      ∀ document ∈ graph.vertices .document,
        graph.Defines document first → graph.Defines document second →
          name.identifier ≠ other.identifier

end Graph

/-- Whether named records that are not seen everywhere differ in start or scope, as soon as some
    file declares both. -/
def SymbolTable.LocalsApart (table : SymbolTable) : Prop :=
  ∀ record ∈ table.records, ∀ other ∈ table.records, record.id ≠ other.id →
    record.name.isSome → other.name.isSome →
    table.visibility record.id ≠ .everywhere → table.visibility other.id ≠ .everywhere →
    (∃ site ∈ record.sites, ∃ site' ∈ other.sites, site.file = site'.file) →
      ¬(table.scopeChars record = table.scopeChars other ∧ record.start = other.start)

instance (table : SymbolTable) : Decidable table.LocalsApart :=
  decidable_of_iff (∀ record ∈ table.records, ∀ other ∈ table.records,
    ¬(record.id ≠ other.id ∧ record.name.isSome ∧ other.name.isSome ∧
      table.visibility record.id ≠ .everywhere ∧ table.visibility other.id ≠ .everywhere ∧
      (∃ site ∈ record.sites, ∃ site' ∈ other.sites, site.file = site'.file) ∧
      table.scopeChars record = table.scopeChars other ∧ record.start = other.start))
    (by simp only [SymbolTable.LocalsApart, not_and])

/-! ### Reading definitions and monikers -/

section Faithful

variable {program : Program} {options : IndexOptions} {table : SymbolTable} {graph : Graph}
  {resultSet : Nat → Nat} {vertexOf : String → Nat}
  (h : Faithful program options table graph resultSet vertexOf)

include h

theorem Faithful.resultSet_inj {record other : Record} (hrecord : record ∈ table.records)
    (hother : other ∈ table.records) (heq : resultSet record.id = resultSet other.id) :
    record = other := by
  obtain ⟨id, hid⟩ := List.mem_iff_getElem?.mp hrecord
  obtain ⟨id', hid'⟩ := List.mem_iff_getElem?.mp hother
  have hlt : ∀ {id} {record : Record}, table.records[id]? = some record →
      record.id < table.records.length :=
    fun hget => h.ids _ _ hget ▸ (List.getElem?_eq_some_iff.mp hget).1
  have hsame : record.id = other.id := h.resultSets.injOn (hlt hid) (hlt hid') heq
  rw [h.ids _ _ hid, h.ids _ _ hid'] at hsame
  subst hsame
  exact Option.some.inj (hid.symm.trans hid')

theorem Faithful.exists_record {vertex : Nat} (hvertex : vertex ∈ graph.vertices .resultSet) :
    ∃ record ∈ table.records, resultSet record.id = vertex := by
  obtain ⟨id, hid, rfl⟩ := h.resultSets.surjOn hvertex
  have hget := List.getElem?_eq_getElem hid
  exact ⟨_, List.mem_of_getElem? hget, by rw [h.ids id _ hget]⟩

/-- A document defines the records that are declared in it. -/
theorem Faithful.defines_iff {document : Document} (hdocument : document ∈ program.documents)
    {record : Record} (hrecord : record ∈ table.records) :
    graph.Defines (vertexOf document.path) (resultSet record.id) ↔
      ∃ site ∈ record.sites, site.file = document.path := by
  obtain ⟨mentions, hmentions, hperm⟩ := h.ranges document hdocument
  constructor
  · rintro ⟨others, hothers, mention, hmem, hset, hrole⟩
    rw [hmentions] at hothers
    cases hothers
    rcases List.mem_append.mp (hperm.mem_iff.mp hmem) with hmem | hmem
    · obtain ⟨owner, howner, hmem⟩ := List.mem_flatMap.mp hmem
      obtain ⟨site, hsite, rfl⟩ := List.mem_map.mp hmem
      obtain ⟨hsite, hfile⟩ := List.mem_filter.mp hsite
      rw [← h.resultSet_inj howner hrecord hset]
      exact ⟨site, hsite, by simpa using hfile⟩
    · obtain ⟨reference, -, hreference⟩ := List.mem_filterMap.mp hmem
      obtain ⟨target, -, rfl⟩ := Option.map_eq_some_iff.mp hreference
      cases hrole
  · rintro ⟨site, hsite, hfile⟩
    have hdefinition : (⟨site.span, ⟨.definition, site.text, site.kind.lsp, site.fullSpan⟩,
        resultSet record.id⟩ : Mention) ∈ table.definitionsIn resultSet document.path := by
      refine List.mem_flatMap_of_mem hrecord (List.mem_map.mpr ⟨site, ?_, rfl⟩)
      exact List.mem_filter.mpr ⟨hsite, by simpa using hfile⟩
    exact ⟨mentions, hmentions, _, hperm.mem_iff.mpr (List.mem_append_left _ hdefinition), rfl, rfl⟩

end Faithful

namespace Layout

variable {layout : Layout} {program : Program} {options : IndexOptions} {table : SymbolTable}
  {occurrences : List Occurrence} {graph : Graph}
  (hpresents : layout.Presents program options table occurrences)
  (hgrows : Graph.empty.Grows (layout.elements options) graph)

include hgrows in
theorem moniker_unique {vertex : Nat} {name other : Moniker} (h : (vertex, name) ∈ graph.monikers)
    (h' : (vertex, other) ∈ graph.monikers) : name = other := by
  have hget : ∀ {name : Moniker}, (vertex, name) ∈ graph.monikers →
      graph.get? vertex = some ⟨vertex, .vertex (.moniker name)⟩ := by
    intro name hname
    have hmem := Graph.mem_monikers_iff.mp hname
    rw [hgrows.elements] at hmem
    exact (Graph.get?_eq_some_iff hgrows).mpr ⟨hmem, rfl⟩
  have heq := Option.some.inj ((hget h).symm.trans (hget h'))
  cases heq
  rfl

include hpresents hgrows in
/-- The result set of a record carries the moniker of the record's identity and no other one. -/
theorem carries_iff {id : Nat} (hid : id ∈ layout.resultSets.map Prod.fst) {name : Moniker} :
    graph.Carries (layout.resultSetOf id) name ↔
      ∃ identity, table.identity? (program.naming options) id = some identity ∧
        name = identity.under options.scheme := by
  have hlabel : ∀ label ∈ layout.labels,
      (label.vertex, label.identity.under options.scheme) ∈ graph.monikers :=
    fun label hlabel => (mem_monikers_iff hgrows).mpr (Or.inl ⟨label, hlabel, rfl, rfl⟩)
  constructor
  · rintro ⟨edge, hedge, ⟨vertex, _⟩, hname, htargets, rfl⟩
    obtain ⟨label, hmem, rfl, rfl⟩ := (mem_edgesFrom_moniker_iff hpresents hgrows hid).mp hedge
    have hvertex : label.vertex = vertex := (List.cons.inj htargets).1
    refine ⟨label.identity, (mem_resultSets_of_label hpresents.labels hmem).2, ?_⟩
    exact moniker_unique hgrows hname (hvertex ▸ hlabel label hmem)
  · rintro ⟨identity, hidentity, rfl⟩
    obtain ⟨label, hmem, rfl⟩ :=
      (exists_label_iff hpresents hid).mpr (by rw [hidentity]; rfl)
    have hsame := (mem_resultSets_of_label hpresents.labels hmem).2
    rw [hidentity] at hsame
    refine ⟨_, (mem_edgesFrom_moniker_iff hpresents hgrows hid).mpr ⟨label, hmem, rfl, rfl⟩,
      (label.vertex, _), ?_, rfl, rfl⟩
    rw [Option.some.inj hsame]
    exact hlabel label hmem

end Layout

/-! ### Identifiers that are digests -/

namespace SymbolTable

variable {table : SymbolTable} {naming : Naming} {record : Record}

theorem identity?_of_internal (hrecord : table.record? record.id = some record)
    (hname : record.name.isSome) (hvisible : table.visibility record.id ≠ .everywhere) :
    table.identity? naming record.id =
      some (.internal (naming.digest (Naming.localText table record))) :=
  identity?_eq_some_iff.mpr ⟨record, hrecord, hname, Or.inr ⟨hvisible, rfl⟩⟩

theorem internal_of_identity? (hrecord : table.record? record.id = some record)
    {identity : Identity} (h : table.identity? naming record.id = some identity)
    (hunique : identity.unique = .document) :
    record.name.isSome ∧ table.visibility record.id ≠ .everywhere ∧
      identity = .internal (naming.digest (Naming.localText table record)) := by
  obtain ⟨found, hfound, hname, ⟨-, path, -, rfl⟩ | ⟨hvisible, rfl⟩⟩ := identity?_eq_some_iff.mp h
  · cases hunique
  · rw [hrecord] at hfound
    cases hfound
    exact ⟨hname, hvisible, rfl⟩

end SymbolTable

namespace Layout

variable {layout : Layout} {program : Program} {options : IndexOptions} {table : SymbolTable}
  {occurrences : List Occurrence} {graph : Graph}
  (hpresents : layout.Presents program options table occurrences)
  (hgrows : Graph.empty.Grows (layout.elements options) graph)
  (hnodup : (program.documents.map Document.path).Nodup) (hmerge : program.merge = .ok table)
  (hoccurrences : program.occurrences table = .ok occurrences)

include hpresents hmerge hoccurrences in
theorem mem_resultSets {record : Record} (hrecord : record ∈ table.records) :
    record.id ∈ layout.resultSets.map Prod.fst :=
  (hpresents.covers.mem_records_iff_lt (Program.merge_grounded hmerge) hoccurrences).mpr
    ((Program.merge_grounded hmerge).id_lt hrecord)

include hpresents hgrows hmerge hoccurrences in
/-- The records with monikers that are unique in their documents are the named ones that are not
    seen everywhere. -/
theorem carries_document_iff {record : Record} (hrecord : record ∈ table.records)
    {name : Moniker} :
    graph.Carries (layout.resultSetOf record.id) name ∧ name.unique = .document ↔
      record.name.isSome ∧ table.visibility record.id ≠ .everywhere ∧
        name = (Identity.internal (options.digest (Naming.localText table record))).under
          options.scheme := by
  have hget := (Program.merge_grounded hmerge).record?_id hrecord
  rw [carries_iff hpresents hgrows (mem_resultSets hpresents hmerge hoccurrences hrecord)]
  constructor
  · rintro ⟨⟨identity, hidentity, rfl⟩, hunique⟩
    obtain ⟨hname, hvisible, rfl⟩ := SymbolTable.internal_of_identity? hget hidentity hunique
    exact ⟨hname, hvisible, rfl⟩
  · rintro ⟨hname, hvisible, rfl⟩
    exact ⟨⟨_, SymbolTable.identity?_of_internal hget hname hvisible, rfl⟩, rfl⟩

include hpresents hgrows hnodup hmerge hoccurrences

theorem localsApart_of_distinct (h : graph.LocalsDistinct) : table.LocalsApart := by
  have hfaithful := faithful hpresents hgrows hnodup hmerge hoccurrences
  have hgrounded := Program.merge_grounded hmerge
  intro record hrecord other hother hne hname hname' hvisible hvisible'
  rintro ⟨site, hsite, site', hsite', hfile⟩ hsame
  -- both are defined in the document of the shared file, and carry the digest of one text
  obtain ⟨hcarries, hunique⟩ := (carries_document_iff hpresents hgrows hmerge hoccurrences
    hrecord).mpr ⟨hname, hvisible, rfl⟩
  obtain ⟨hcarries', hunique'⟩ := (carries_document_iff hpresents hgrows hmerge hoccurrences
    hother).mpr ⟨hname', hvisible', rfl⟩
  obtain ⟨document, hdocument, hpath⟩ :=
    Program.hasDocument_iff.mp (hgrounded.inDocuments record hrecord site hsite)
  refine h _ (hfaithful.resultSets.mapsTo (hgrounded.id_lt hrecord))
    _ (hfaithful.resultSets.mapsTo (hgrounded.id_lt hother)) ?_
    _ _ hcarries hcarries' hunique hunique'
    _ (hfaithful.documents.mapsTo (List.mem_map_of_mem hdocument)) ?_ ?_ ?_
  · intro heq
    exact hne (congrArg Record.id (hfaithful.resultSet_inj hrecord hother heq))
  · exact (hfaithful.defines_iff hdocument hrecord).mpr ⟨site, hsite, hpath.symm⟩
  · exact (hfaithful.defines_iff hdocument hother).mpr ⟨site', hsite', hfile.symm.trans hpath.symm⟩
  · exact congrArg options.digest (Naming.localText_eq_iff.mpr hsame)

theorem localsDistinct_of_apart (hdigest : Function.Injective options.digest)
    (h : table.LocalsApart) : graph.LocalsDistinct := by
  have hfaithful := faithful hpresents hgrows hnodup hmerge hoccurrences
  intro first hfirst second hsecond hne name other hcarries hcarries' hunique hunique'
    vertex hvertex hdefines hdefines' heq
  obtain ⟨record, hrecord, rfl⟩ := hfaithful.exists_record hfirst
  obtain ⟨record', hrecord', rfl⟩ := hfaithful.exists_record hsecond
  obtain ⟨path, hpath, rfl⟩ := hfaithful.documents.surjOn hvertex
  obtain ⟨document, hdocument, rfl⟩ := List.mem_map.mp hpath
  obtain ⟨site, hsite, hfile⟩ := (hfaithful.defines_iff hdocument hrecord).mp hdefines
  obtain ⟨site', hsite', hfile'⟩ := (hfaithful.defines_iff hdocument hrecord').mp hdefines'
  obtain ⟨hname, hvisible, rfl⟩ := (carries_document_iff hpresents hgrows hmerge hoccurrences
    hrecord).mp ⟨hcarries, hunique⟩
  obtain ⟨hname', hvisible', rfl⟩ := (carries_document_iff hpresents hgrows hmerge hoccurrences
    hrecord').mp ⟨hcarries', hunique'⟩
  refine h record hrecord record' hrecord' ?_ hname hname' hvisible hvisible'
    ⟨site, hsite, site', hsite', hfile.trans hfile'.symm⟩
    (Naming.localText_eq_iff.mp (hdigest heq))
  intro hid
  exact hne (congrArg layout.resultSetOf hid)

end Layout

/-- Where no two texts have the same digest, internal names are distinct in each document of a graph
    exactly if the table keeps the records behind them apart. -/
theorem Program.index_localsDistinct_iff {program : Program} {options : IndexOptions}
    {index : Index} {table : SymbolTable} (h : program.index options = .ok index)
    (hmerge : program.merge = .ok table) (hdigest : Function.Injective options.digest) :
    index.graph.LocalsDistinct ↔ table.LocalsApart := by
  obtain ⟨_, hdocuments, -⟩ := bind_eq_ok_iff.mp h
  have hnodup := (checkDocuments_eq_ok_iff.mp hdocuments).1
  obtain ⟨merged, occurrences, layout, hmerged, hoccurrences, hpresents, hgrows⟩ := exists_layout h
  rw [hmerge] at hmerged
  cases hmerged
  exact ⟨Layout.localsApart_of_distinct hpresents hgrows hnodup hmerge hoccurrences,
    Layout.localsDistinct_of_apart hpresents hgrows hnodup hmerge hoccurrences hdigest⟩

/-- A class that its file does not export, with a property, and with a parameter of the same name
    that starts in the given column of the line of the property. -/
def Program.hiddenPerson (column : UInt32) : Program where
  root := "/p"
  documents := [.moduleFile "/p/a.ts"]
  symbols := [
    { handle := 1, name := some "Person", kind := .classType
      declarations := [{ file := "/p/a.ts", span := .onLine 0 6 12 }] },
    { handle := 2, name := some "name", kind := .property, parent := some 1
      declarations := [{ file := "/p/a.ts", span := .onLine 1 21 25, exported := true }] },
    { handle := 3, name := some "name", kind := .parameter, parent := some 1, scope := .confined
      declarations := [{ file := "/p/a.ts", span := .onLine 1 column (column + 4) }] }]

/-- A parameter beside the property is told apart from it. -/
theorem Program.index_hiddenPerson_localsDistinct :
    ∃ index table, (hiddenPerson 30).index { digest := id } = .ok index ∧
      (hiddenPerson 30).merge = .ok table ∧ Function.Injective (id : String → String) ∧
      index.graph.monikers.map (·.2.identifier) =
        ["/p/a.ts|Person|0:6", "/p/a.ts|Person.name|1:21", "/p/a.ts|Person.name|1:30"] ∧
      index.graph.LocalsDistinct := by
  have hindex : ((hiddenPerson 30).index { digest := id }).toOption.map (fun index =>
      index.graph.monikers.map (·.2.identifier)) =
        some ["/p/a.ts|Person|0:6", "/p/a.ts|Person.name|1:21", "/p/a.ts|Person.name|1:30"] := by
    decide +kernel
  have hmerge : (hiddenPerson 30).merge.toOption.any (fun table => table.LocalsApart) = true := by
    decide +kernel
  simp only [Option.any_eq_true, toOption_eq_some_iff, decide_eq_true_eq] at hmerge
  obtain ⟨table, hmerge, hapart⟩ := hmerge
  obtain ⟨index, hindex, hmonikers⟩ := Option.map_eq_some_iff.mp hindex
  rw [toOption_eq_some_iff] at hindex
  exact ⟨index, table, hindex, hmerge, Function.injective_id, hmonikers,
    (index_localsDistinct_iff hindex hmerge Function.injective_id).mpr hapart⟩

/-- A parameter that is a property as well gets the name of the property. -/
theorem Program.index_hiddenPerson_not_localsDistinct :
    ∃ index, (hiddenPerson 21).index { digest := id } = .ok index ∧
      Function.Injective (id : String → String) ∧ ¬index.graph.LocalsDistinct := by
  have hindex : ((hiddenPerson 21).index { digest := id }).toOption.any (fun index =>
      (5 ∈ index.graph.vertices .resultSet ∧ 8 ∈ index.graph.vertices .resultSet ∧
        1 ∈ index.graph.vertices .document) ∧
      (index.graph.Defines 1 5 ∧ index.graph.Defines 1 8) ∧
      index.graph.Carries 5 ((Identity.internal "/p/a.ts|Person.name|1:21").under "tsc") ∧
      index.graph.Carries 8 ((Identity.internal "/p/a.ts|Person.name|1:21").under "tsc")) =
        true := by
    decide +kernel
  simp only [Option.any_eq_true, toOption_eq_some_iff, decide_eq_true_eq] at hindex
  obtain ⟨index, hindex, ⟨hset, hset', hdocument⟩, ⟨hdefines, hdefines'⟩, hname, hname'⟩ := hindex
  refine ⟨index, hindex, Function.injective_id, fun h => ?_⟩
  exact h 5 hset 8 hset' (by decide) _ _ hname hname' rfl rfl 1 hdocument hdefines hdefines' rfl

end MonikerIndex
