import MonikerIndex.Proofs.Emission.Chapters

/-!
# The layout of a graph

Behind the chapters of its documents a graph holds a label for each record that has an identity: a
moniker and the edge to it from the record's result set. Last come the attachments: an alias moniker
and the edge from it to the moniker it stands for.

Labelling goes through unless a public identifier would be used twice (`foldlM_label`), and
attaching always does (`publishAliases_of_links`). A run that succeeds gives the graph of a layout
(`exists_layout`); what is said of such graphs elsewhere is read off the layout.
-/

namespace MonikerIndex

/-! ### Labels -/

/-- The moniker of a record in the graph. -/
structure Label where
  record : Nat
  resultSet : Nat
  identity : Identity
  /-- The moniker. -/
  vertex : Nat

namespace Label

def elements (scheme : String) (label : Label) : List Element :=
  [⟨label.vertex, .vertex (.moniker (label.identity.under scheme))⟩,
    ⟨label.vertex + 1, .edge (.moniker label.resultSet label.vertex)⟩]

theorem moniker_mem_elements (scheme : String) (label : Label) :
    ⟨label.vertex, .vertex (.moniker (label.identity.under scheme))⟩ ∈ label.elements scheme :=
  List.mem_cons_self

/-- What later steps know of a label. -/
def canonical (label : Label) : Nat × Canonical :=
  (label.record, ⟨label.vertex, label.identity.identifier⟩)

/-- A label without its number in the graph. -/
def content (label : Label) : Nat × Nat × Identity :=
  (label.record, label.resultSet, label.identity)

end Label

/-- The identities of records that have a result set, with both. -/
def identified (identity? : Nat → Option Identity) (entries : List (Nat × Nat)) :
    List (Nat × Nat × Identity) :=
  entries.filterMap fun entry => (identity? entry.1).map fun identity =>
    (entry.1, entry.2, identity)

/-- The identifiers of all public identities. -/
def publicIdentifiers (contents : List (Nat × Nat × Identity)) : List String :=
  (contents.filter fun content => content.2.2.kind = .exported).map (·.2.2.identifier)

/-- Whether identifiers are distinct and not taken. -/
def Unused (taken identifiers : List String) : Prop :=
  identifiers.Nodup ∧ ∀ identifier ∈ identifiers, identifier ∉ taken

theorem unused_cons_iff {taken identifiers : List String} {identifier : String} :
    Unused taken (identifier :: identifiers) ↔
      identifier ∉ taken ∧ Unused (identifier :: taken) identifiers := by
  simp only [Unused, List.nodup_cons, List.mem_cons, forall_eq_or_imp, not_or]
  constructor
  · rintro ⟨⟨hnew, hnodup⟩, htaken, hrest⟩
    exact ⟨htaken, hnodup, fun other hother => ⟨fun heq => hnew (heq ▸ hother), hrest other hother⟩⟩
  · rintro ⟨htaken, hnodup, hrest⟩
    exact ⟨⟨fun hmem => (hrest _ hmem).1 rfl, hnodup⟩, htaken, fun other hother =>
      (hrest other hother).2⟩

theorem identified_cons (identity? : Nat → Option Identity) (entry : Nat × Nat)
    (entries : List (Nat × Nat)) :
    identified identity? (entry :: entries) =
      match identity? entry.1 with
      | none => identified identity? entries
      | some identity => (entry.1, entry.2, identity) :: identified identity? entries := by
  cases h : identity? entry.1 with
  | none => simp [identified, h]
  | some identity => simp [identified, h]

theorem publicIdentifiers_cons (content : Nat × Nat × Identity)
    (contents : List (Nat × Nat × Identity)) :
    publicIdentifiers (content :: contents) =
      if content.2.2.kind = .exported then content.2.2.identifier :: publicIdentifiers contents
      else publicIdentifiers contents := by
  simp only [publicIdentifiers, List.filter_cons, decide_eq_true_eq]
  split
  · rfl
  · rfl

/-- An identity that is not in the way is taken, if it is public, before the others. -/
theorem unused_publicIdentifiers_cons_iff {taken : List String} {content : Nat × Nat × Identity}
    {contents : List (Nat × Nat × Identity)}
    (hfree : ¬(content.2.2.kind = .exported ∧ content.2.2.identifier ∈ taken)) :
    Unused taken (publicIdentifiers (content :: contents)) ↔
      Unused (if content.2.2.kind = .exported then content.2.2.identifier :: taken else taken)
        (publicIdentifiers contents) := by
  rw [publicIdentifiers_cons]
  split
  · rename_i hkind
    rw [unused_cons_iff]
    exact ⟨And.right, fun h => ⟨fun hmem => hfree ⟨hkind, hmem⟩, h⟩⟩
  · rfl

namespace Labelling

variable {state : Labelling} {identity? : Nat → Option Identity}

/-- Emitting an identity adds a label, unless its identifier is public and taken. -/
theorem emit_cases (scheme : String) (record : Nat) {resultSet : Nat} (identity : Identity)
    (hset : 1 ≤ resultSet ∧ resultSet ≤ state.graph.lastId) :
    ((identity.kind = .exported ∧ identity.identifier ∈ state.taken) ∧
        state.emit scheme record resultSet identity = .error (.collision identity.identifier)) ∨
      ¬(identity.kind = .exported ∧ identity.identifier ∈ state.taken) ∧
        ∃ (after : Labelling) (label : Label),
          state.emit scheme record resultSet identity = .ok after ∧
          label.content = (record, resultSet, identity) ∧
          state.graph.Grows (label.elements scheme) after.graph ∧
          after.canonical = state.canonical ++ [label.canonical] ∧
          after.taken = if identity.kind = .exported then identity.identifier :: state.taken
            else state.taken := by
  unfold emit
  by_cases htaken : identity.kind = .exported ∧ identity.identifier ∈ state.taken
  · exact Or.inl ⟨htaken, if_pos htaken⟩
  · rw [if_neg htaken]
    have hedge : (state.graph.push (.vertex (.moniker (identity.under scheme)))).emitEdge
        (.moniker resultSet state.graph.nextId) = .ok (_, _) :=
      Graph.emitEdge_of_target rfl (by simp only [Edge.moniker, Graph.lastId_push]; omega)
        (by simp)
    simp only [Graph.emitVertex, hedge]
    exact Or.inr ⟨htaken, _, ⟨record, resultSet, identity, state.graph.nextId⟩, rfl, rfl,
      Graph.Grows.push_push .., rfl, rfl⟩

/-- Labelling adds a label for each identity, unless a public identifier is used twice. -/
theorem foldlM_label (scheme : String) {entries : List (Nat × Nat)}
    (hentries : ∀ entry ∈ entries, 1 ≤ entry.2 ∧ entry.2 ≤ state.graph.lastId) :
    (Unused state.taken (publicIdentifiers (identified identity? entries)) ∧
      ∃ (after : Labelling) (labels : List Label),
        entries.foldlM (label scheme identity?) state = .ok after ∧
        labels.map Label.content = identified identity? entries ∧
        state.graph.Grows (labels.flatMap (Label.elements scheme)) after.graph ∧
        after.canonical = state.canonical ++ labels.map Label.canonical) ∨
    (¬Unused state.taken (publicIdentifiers (identified identity? entries)) ∧
      ∃ identifier, entries.foldlM (label scheme identity?) state =
        .error (.collision identifier)) := by
  induction entries generalizing state with
  | nil =>
    exact Or.inl ⟨⟨List.nodup_nil, by simp [identified, publicIdentifiers]⟩, state, [], rfl, rfl,
      Graph.Grows.refl _, by simp⟩
  | cons entry entries ih =>
    obtain ⟨record, resultSet⟩ := entry
    obtain ⟨hset, hrest⟩ := List.forall_mem_cons.mp hentries
    rw [List.foldlM_cons, identified_cons]
    cases hidentity : identity? record with
    | none =>
      have hskip : label scheme identity? state (record, resultSet) = .ok state := by
        simp only [label, hidentity]
      rw [hskip]
      exact ih hrest
    | some identity =>
      have hstep : label scheme identity? state (record, resultSet) =
          state.emit scheme record resultSet identity := by simp only [label, hidentity]
      rw [hstep]
      rcases emit_cases scheme record identity hset with
        ⟨⟨hkind, htaken⟩, herror⟩ |
          ⟨hfree, middle, first, hemit, hcontent, hgrows, hcanonical, htaken⟩
      · refine Or.inr ⟨?_, identity.identifier, by rw [herror]; rfl⟩
        rw [publicIdentifiers_cons, if_pos hkind, unused_cons_iff]
        exact fun hunused => hunused.1 htaken
      · have hmiddle : ∀ entry ∈ entries, 1 ≤ entry.2 ∧ entry.2 ≤ middle.graph.lastId := by
          intro entry hentry
          have hbounds := hrest entry hentry
          have hlast := hgrows.lastId_eq
          omega
        rw [unused_publicIdentifiers_cons_iff hfree, ← htaken, hemit]
        rcases ih hmiddle with
          ⟨hunused, after, labels, hrun, hlabels, hgrows', hcanonical'⟩ | herror
        · refine Or.inl ⟨hunused, after, first :: labels, hrun, ?_, hgrows.trans hgrows', ?_⟩
          · rw [List.map_cons, hcontent, hlabels]
          · rw [hcanonical', hcanonical, List.map_cons, List.append_assoc, List.singleton_append]
        · exact Or.inr herror

end Labelling

section Labels

variable {labels : List Label} {identity? : Nat → Option Identity}
  {resultSets : List (Nat × Nat)}

theorem mem_identified_iff {content : Nat × Nat × Identity} :
    content ∈ identified identity? resultSets ↔
      (content.1, content.2.1) ∈ resultSets ∧ identity? content.1 = some content.2.2 := by
  obtain ⟨record, resultSet, identity⟩ := content
  simp only [identified, List.mem_filterMap, Option.map_eq_some_iff, Prod.mk.injEq]
  constructor
  · rintro ⟨⟨record', resultSet'⟩, hmem, identity', hidentity, rfl, rfl, rfl⟩
    exact ⟨hmem, hidentity⟩
  · rintro ⟨hmem, hidentity⟩
    exact ⟨_, hmem, identity, hidentity, rfl, rfl, rfl⟩

theorem identified_sublist (identity? : Nat → Option Identity) (entries : List (Nat × Nat)) :
    ((identified identity? entries).map fun content =>
      (content.1, content.2.1)).Sublist entries := by
  induction entries with
  | nil => exact List.Sublist.slnil
  | cons entry entries ih =>
    rw [identified_cons]
    cases identity? entry.1 with
    | none => exact ih.cons _
    | some identity => exact ih.cons_cons _

theorem mem_resultSets_of_label (h : labels.map Label.content = identified identity? resultSets)
    {label : Label} (hmem : label ∈ labels) :
    (label.record, label.resultSet) ∈ resultSets ∧
      identity? label.record = some label.identity := by
  have hcontent : label.content ∈ identified identity? resultSets := by
    rw [← h]
    exact List.mem_map_of_mem hmem
  exact mem_identified_iff.mp hcontent

theorem labels_sublist (h : labels.map Label.content = identified identity? resultSets) :
    (labels.map fun label => (label.record, label.resultSet)).Sublist resultSets := by
  have hsublist := identified_sublist identity? resultSets
  rw [← h, List.map_map] at hsublist
  exact hsublist

theorem nodup_records_labels (h : labels.map Label.content = identified identity? resultSets)
    (hnodup : (resultSets.map Prod.fst).Nodup) : (labels.map Label.record).Nodup := by
  have hrecords := hnodup.sublist ((labels_sublist h).map Prod.fst)
  rwa [List.map_map] at hrecords

theorem nodup_resultSets_labels (h : labels.map Label.content = identified identity? resultSets)
    (hnodup : (resultSets.map Prod.snd).Nodup) : (labels.map Label.resultSet).Nodup := by
  have hsets := hnodup.sublist ((labels_sublist h).map Prod.snd)
  rwa [List.map_map] at hsets

/-- A record has the canonical moniker of its label. -/
theorem lookup_canonical_iff (hnodup : (labels.map Label.record).Nodup) {id : Nat}
    {moniker : Canonical} :
    (labels.map Label.canonical).lookup id = some moniker ↔
      ∃ label ∈ labels, label.record = id ∧ moniker = label.canonical.2 := by
  constructor
  · intro h
    obtain ⟨label, hlabel, heq⟩ := List.mem_map.mp (mem_of_lookup h)
    obtain ⟨hid, hmoniker⟩ := Prod.mk.inj heq
    exact ⟨label, hlabel, hid, hmoniker.symm⟩
  · rintro ⟨label, hlabel, rfl, rfl⟩
    refine lookup_of_mem ?_ (List.mem_map_of_mem hlabel)
    rw [List.map_map]
    exact hnodup

end Labels

/-! ### Attachments -/

/-- An alias moniker in the graph. -/
structure Attachment where
  identifier : String
  record : Nat
  /-- The moniker that it stands for. -/
  target : Nat
  /-- The alias moniker. -/
  vertex : Nat

namespace Attachment

def elements (scheme : String) (attachment : Attachment) : List Element :=
  [⟨attachment.vertex, .vertex (.moniker ((Identity.exported attachment.identifier).under scheme))⟩,
    ⟨attachment.vertex + 1, .edge (.attach attachment.vertex attachment.target)⟩]

def use (attachment : Attachment) : String × Nat :=
  (attachment.identifier, attachment.record)

end Attachment

theorem Graph.exists_attachments (scheme : String) (canonical : Nat → Option Canonical)
    (graph : Graph) (pairs : List (String × Nat)) :
    ∃ attachments : List Attachment, attachments.map Attachment.use = pairs ∧
      (∀ attachment ∈ attachments,
        attachment.target = ((canonical attachment.record).map Canonical.vertex).getD 0) ∧
      graph.Grows (attachments.flatMap (Attachment.elements scheme))
        (graph.attachAliases scheme canonical pairs) := by
  induction pairs generalizing graph with
  | nil => exact ⟨[], rfl, by simp, Graph.Grows.refl _⟩
  | cons pair pairs ih =>
    let first : Attachment :=
      ⟨pair.1, pair.2, ((canonical pair.2).map Canonical.vertex).getD 0, graph.nextId⟩
    obtain ⟨attachments, huses, htargets, hgrows⟩ :=
      ih ((graph.push (.vertex (.moniker ((Identity.exported pair.1).under scheme)))).push
        (.edge (.attach graph.nextId first.target)))
    refine ⟨first :: attachments, by rw [List.map_cons, huses]; rfl, ?_, ?_⟩
    · intro attachment hmem
      rcases List.mem_cons.mp hmem with rfl | hmem
      · rfl
      · exact htargets attachment hmem
    · have hfirst : graph.Grows (first.elements scheme) _ := Graph.Grows.push_push ..
      exact hfirst.trans hgrows

theorem unused_firstUses (taken : List String) (pairs : List (String × Nat)) :
    Unused taken ((firstUses taken pairs).map Prod.fst) ∧ firstUses taken pairs ⊆ pairs := by
  induction pairs generalizing taken with
  | nil => exact ⟨⟨List.nodup_nil, by simp [firstUses]⟩, by simp [firstUses]⟩
  | cons pair pairs ih =>
    rw [firstUses_cons]
    split
    · exact ⟨(ih taken).1, List.subset_cons_of_subset _ (ih taken).2⟩
    · rename_i hnew
      obtain ⟨hunused, hsubset⟩ := ih (pair.1 :: taken)
      exact ⟨unused_cons_iff.mpr ⟨hnew, hunused⟩, List.cons_subset_cons _ hsubset⟩

/-- Once all aliases are found to be in order, the alias pass goes through. -/
theorem Program.publishAliases_of_links {program : Program} {naming : Naming} {table : SymbolTable}
    {canonical : Nat → Option Canonical} {graph : Graph} {links : List Link} (scheme : String)
    (hid : ∀ id record, table.record? id = some record → record.id = id)
    (hlinks : program.links naming table = .ok links)
    (hvertex : ∀ id moniker, canonical id = some moniker →
      1 ≤ moniker.vertex ∧ moniker.vertex ≤ graph.lastId) :
    ∃ stats, program.publishAliases naming table canonical scheme graph =
      .ok (graph.attachAliases scheme canonical (firstUses (table.identifiers canonical)
        ((table.visits links).filterMap (·.use? canonical))), stats) := by
  obtain ⟨-, -, -, -, hlt⟩ := SymbolTable.exists_walks_visits hid (mapM_eq_ok_iff.mp hlinks)
  let start : Publication := { graph := graph, taken := table.identifiers canonical }
  have hknown : ∀ visit ∈ table.visits links, ∀ moniker, canonical visit.record = some moniker →
      moniker.identifier ∈ start.taken := by
    intro visit hvisit moniker hmoniker
    exact SymbolTable.mem_identifiers hid (hlt visit hvisit) hmoniker
  obtain ⟨final, hfinal, hgraph⟩ :=
    @Publication.foldlM_publish canonical start scheme _ hvertex hknown
  rw [publishAliases, hlinks, ← hgraph]
  change ∃ stats, ((table.visits links).foldlM (Publication.publish scheme canonical) start >>= _) =
    .ok (final.graph, stats)
  rw [hfinal]
  exact ⟨_, rfl⟩

/-! ### Layouts -/

/-- The contents of a graph, in order. -/
structure Layout where
  chapters : List Chapter
  labels : List Label
  attachments : List Attachment

namespace Layout

def elements (options : IndexOptions) (layout : Layout) : List Element :=
  layout.chapters.flatMap (Chapter.elements options.languageId) ++
    (layout.labels.flatMap (Label.elements options.scheme) ++
      layout.attachments.flatMap (Attachment.elements options.scheme))

def placements (layout : Layout) : List Placement :=
  layout.chapters.flatMap Chapter.placements

/-- The records that occur, each with its result set. -/
def resultSets (layout : Layout) : List (Nat × Nat) :=
  (layout.placements.filter (·.isFirst)).map Placement.pair

/-- What the layout of a program's graph holds. -/
structure Presents (layout : Layout) (program : Program) (options : IndexOptions)
    (table : SymbolTable) (occurrences : List Occurrence) : Prop where
  covers : Covers program occurrences layout.chapters layout.resultSets
  labels : layout.labels.map Label.content =
    identified (table.identity? (program.naming options)) layout.resultSets
  distinct : (publicIdentifiers (layout.labels.map Label.content)).Nodup
  attached : ∀ attachment ∈ layout.attachments, ∃ label ∈ layout.labels,
    attachment.record = label.record ∧ attachment.target = label.vertex
  paths : ∀ attachment ∈ layout.attachments, ∃ path : ExportPath,
    attachment.identifier = path.identifier
  unused : Unused (layout.labels.map (·.identity.identifier))
    (layout.attachments.map Attachment.identifier)

end Layout

end MonikerIndex
