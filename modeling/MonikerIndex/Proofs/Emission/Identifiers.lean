import MonikerIndex.Proofs.Emission.Run
import MonikerIndex.Proofs.Emission.Views
import MonikerIndex.Proofs.Identities

/-!
# Unique identifiers

Labelling refuses a public identifier that is used twice, and attaching passes over identifiers that
are there already. Together they keep the identifiers of all monikers apart that are unique in the
group. The identifiers of the others have no colon, so they do not interfere.

Main statement: `index_identifiers_unique`.
-/

namespace MonikerIndex

namespace Layout

variable {layout : Layout} {program : Program} {options : IndexOptions} {table : SymbolTable}
  {occurrences : List Occurrence} {graph : Graph} {id other : Nat} {name name' : Moniker}
  (hpresents : layout.Presents program options table occurrences)

include hpresents

/-- A label has the identity of an export path or of a digest. -/
theorem identity_cases {label : Label} (hlabel : label ∈ layout.labels) :
    (∃ path : ExportPath, label.identity = .exported path.identifier) ∨
      ∃ text, label.identity = .internal (options.digest text) :=
  SymbolTable.identity?_cases (mem_resultSets_of_label hpresents.labels hlabel).2

theorem kind_of_group {label : Label} (hlabel : label ∈ layout.labels)
    (hgroup : label.identity.unique = .group) : label.identity.kind = .exported := by
  rcases identity_cases hpresents hlabel with ⟨path, heq⟩ | ⟨text, heq⟩
  · rw [heq]
    rfl
  · rw [heq] at hgroup
    cases hgroup

/-- Labelling lets no two labels have one public identifier. -/
theorem label_unique {label label' : Label} (hlabel : label ∈ layout.labels)
    (hlabel' : label' ∈ layout.labels) (hgroup : label.identity.unique = .group)
    (hgroup' : label'.identity.unique = .group)
    (heq : label.identity.identifier = label'.identity.identifier) : label = label' := by
  have hdistinct : ((layout.labels.filter fun label => label.identity.kind = .exported).map
      (·.identity.identifier)).Nodup := by
    have hnodup := hpresents.distinct
    rw [publicIdentifiers, List.filter_map, List.map_map] at hnodup
    exact hnodup
  refine List.inj_on_of_nodup_map hdistinct ?_ ?_ heq
  · exact List.mem_filter.mpr ⟨hlabel, by simp [kind_of_group hpresents hlabel hgroup]⟩
  · exact List.mem_filter.mpr ⟨hlabel', by simp [kind_of_group hpresents hlabel' hgroup']⟩

/-- Attaching passes over the identifiers of labels. -/
theorem attachment_ne_label {attachment : Attachment}
    (hattachment : attachment ∈ layout.attachments) {label : Label}
    (hlabel : label ∈ layout.labels) : attachment.identifier ≠ label.identity.identifier := by
  intro heq
  exact hpresents.unused.2 _ (List.mem_map_of_mem hattachment)
    (heq ▸ List.mem_map_of_mem hlabel)

variable (hgrows : Graph.empty.Grows (layout.elements options) graph)

include hgrows

theorem eq_of_identifier_eq (hname : (id, name) ∈ graph.monikers)
    (hname' : (other, name') ∈ graph.monikers) (hgroup : name.unique = .group)
    (hgroup' : name'.unique = .group) (heq : name.identifier = name'.identifier) :
    id = other := by
  rcases (mem_monikers_iff hgrows).mp hname with
    ⟨label, hlabel, rfl, rfl⟩ | ⟨attachment, hattachment, rfl, rfl⟩
  · rcases (mem_monikers_iff hgrows).mp hname' with
      ⟨label', hlabel', rfl, rfl⟩ | ⟨attachment', hattachment', rfl, rfl⟩
    · rw [label_unique hpresents hlabel hlabel' hgroup hgroup' heq]
    · exact absurd heq.symm (attachment_ne_label hpresents hattachment' hlabel)
  · rcases (mem_monikers_iff hgrows).mp hname' with
      ⟨label', hlabel', rfl, rfl⟩ | ⟨attachment', hattachment', rfl, rfl⟩
    · exact absurd heq (attachment_ne_label hpresents hattachment hlabel')
    · rw [List.inj_on_of_nodup_map hpresents.unused.1 hattachment hattachment' heq]

theorem colon_mem_of_group (hname : (id, name) ∈ graph.monikers) (hgroup : name.unique = .group) :
    ':' ∈ name.identifier.toList := by
  rcases (mem_monikers_iff hgrows).mp hname with
    ⟨label, hlabel, rfl, rfl⟩ | ⟨attachment, hattachment, rfl, rfl⟩
  · rcases identity_cases hpresents hlabel with ⟨path, heq⟩ | ⟨text, heq⟩
    · rw [heq]
      exact path.colon_mem_identifier
    · rw [heq] at hgroup
      cases hgroup
  · obtain ⟨path, heq⟩ := hpresents.paths attachment hattachment
    rw [heq]
    exact path.colon_mem_identifier

/-- What is unique in its document only is named by a digest. -/
theorem exists_digest_of_document (hname : (id, name) ∈ graph.monikers)
    (hdocument : name.unique = .document) : ∃ text, name.identifier = options.digest text := by
  rcases (mem_monikers_iff hgrows).mp hname with
    ⟨label, hlabel, rfl, rfl⟩ | ⟨attachment, hattachment, rfl, rfl⟩
  · rcases identity_cases hpresents hlabel with ⟨path, heq⟩ | ⟨text, heq⟩
    · rw [heq] at hdocument
      cases hdocument
    · rw [heq]
      exact ⟨text, rfl⟩
  · cases hdocument

end Layout

/-- In the graph of a run, two monikers that are unique in the group have different identifiers. If
    digests have no colon, as those in base64 (`colon_notMem_digest`), no such moniker has the
    identifier of one that is unique in its document only. -/
theorem Program.index_identifiers_unique {program : Program} {options : IndexOptions}
    {index : Index} (h : program.index options = .ok index) :
    (∀ entry ∈ index.graph.monikers, ∀ other ∈ index.graph.monikers, entry.1 ≠ other.1 →
      entry.2.unique = .group → other.2.unique = .group →
        entry.2.identifier ≠ other.2.identifier) ∧
    ((∀ text, ':' ∉ (options.digest text).toList) →
      ∀ entry ∈ index.graph.monikers, ∀ other ∈ index.graph.monikers,
        entry.2.unique = .group → other.2.unique = .document →
          entry.2.identifier ≠ other.2.identifier) := by
  obtain ⟨table, occurrences, layout, -, -, hpresents, hgrows⟩ := exists_layout h
  constructor
  · intro entry hentry other hother hne hgroup hgroup' heq
    exact hne (Layout.eq_of_identifier_eq hpresents hgrows hentry hother hgroup hgroup' heq)
  · intro hdigest entry hentry other hother hgroup hdocument heq
    have hcolon := Layout.colon_mem_of_group hpresents hgrows hentry hgroup
    obtain ⟨text, htext⟩ := Layout.exists_digest_of_document hpresents hgrows hother hdocument
    rw [heq, htext] at hcolon
    exact hdigest text hcolon

/-- No two of the group's identifiers of the shop are equal, nor is one of them that of the
    constant. -/
theorem Program.index_shop_identifiers : ∃ index, shop.index {} = .ok index ∧
    index.graph.names = shopNames "Rpu7jjQ+Qs39IuafeoDCAQ==" ∧
    (∀ entry ∈ index.graph.monikers, ∀ other ∈ index.graph.monikers, entry.1 ≠ other.1 →
      entry.2.unique = .group → other.2.unique = .group →
        entry.2.identifier ≠ other.2.identifier) ∧
    ∀ entry ∈ index.graph.monikers, ∀ other ∈ index.graph.monikers,
      entry.2.unique = .group → other.2.unique = .document →
        entry.2.identifier ≠ other.2.identifier := by
  obtain ⟨index, hindex, hnames⟩ := exists_index_shop
  obtain ⟨hgroup, hdocument⟩ := index_identifiers_unique hindex
  exact ⟨index, hindex, hnames, hgroup, hdocument colon_notMem_digest⟩

end MonikerIndex
