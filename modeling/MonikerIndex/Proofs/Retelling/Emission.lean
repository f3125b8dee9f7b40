import MonikerIndex.Proofs.Retelling.Index

/-!
# Indexing a program told again

Two runs are compared step by step. Their graphs always have the same elements under the same
numbers, but for what a translation changes: the paths of documents, the spans of ranges, and the
identifiers that stand for places (`Graph.Retold`). A step that emits a vertex or an edge keeps
this, since it looks at nothing but the number of the last element.

Steps also look at identifiers: public ones must not be given twice, and an alias gets no moniker
under an identifier that is taken. Only export paths are ever asked for. So it is enough that
related identifiers of places are told apart from export paths alike.

Main statement: a run on the program told again ends as the run on the program did, with a graph
that is the same in this sense or with the same kind of error (`index_retold`).
-/

namespace MonikerIndex

/-! ### Graphs side by side -/

/-- What an element holds in two runs. -/
inductive Payload.Retold (T : Translation) (S : String → String → Prop) :
    Payload → Payload → Prop where
  | document (path languageId : String) (kind : DocumentKind) :
      Retold T S (.vertex (.document (.ofPath path) languageId kind))
        (.vertex (.document (.ofPath (T.file path)) languageId kind))
  | range (file : String) (span : Span) (tag : RangeTag) :
      Retold T S (.vertex (.range span tag)) (.vertex (.range (T.span file span)
        { tag with fullSpan := tag.fullSpan.map (T.span file) }))
  | resultSet : Retold T S (.vertex .resultSet) (.vertex .resultSet)
  | moniker {identity identity' : Identity} (h : Identity.Retold S identity identity')
      (scheme : String) :
      Retold T S (.vertex (.moniker (identity.under scheme)))
        (.vertex (.moniker (identity'.under scheme)))
  | edge (connection : Edge) : Retold T S (.edge connection) (.edge connection)

/-- An element in two runs: it has the same number in both. -/
structure Element.Retold (T : Translation) (S : String → String → Prop)
    (element told : Element) : Prop where
  id : told.id = element.id
  payload : Payload.Retold T S element.payload told.payload

theorem Element.Retold.exists_payloads {T : Translation} {S : String → String → Prop}
    {element told : Element} (h : Element.Retold T S element told) :
    ∃ id payload payload', element = ⟨id, payload⟩ ∧ told = ⟨id, payload'⟩ ∧
      Payload.Retold T S payload payload' := by
  obtain ⟨id, payload⟩ := element
  obtain ⟨_, payload'⟩ := told
  obtain ⟨rfl, hpayload⟩ := h
  exact ⟨_, payload, payload', rfl, rfl, hpayload⟩

/-- Graphs with the same elements but for what is translated. -/
def Graph.Retold (T : Translation) (S : String → String → Prop) (graph told : Graph) : Prop :=
  List.Forall₂ (Element.Retold T S) graph.elements.toList told.elements.toList

namespace Graph.Retold

variable {T : Translation} {S : String → String → Prop} {graph told : Graph}
  (h : Graph.Retold T S graph told)

include h

theorem nextId_eq : told.nextId = graph.nextId := by
  have hlength := h.length_eq
  simp only [Array.length_toList] at hlength
  simp only [nextId, lastId, hlength]

theorem push {payload payload' : Payload} (hpayload : Payload.Retold T S payload payload') :
    Graph.Retold T S (graph.push payload) (told.push payload') := by
  simp only [Graph.Retold, Graph.push, Array.toList_push]
  exact List.rel_append h (.cons ⟨h.nextId_eq, hpayload⟩ .nil)

theorem emitEdge (connection : Edge) :
    Alike (fun result result' => Graph.Retold T S result.1 result'.1)
      (graph.emitEdge connection) (told.emitEdge connection) := by
  unfold Graph.emitEdge
  rw [h.nextId_eq]
  exact (Alike.refl _).bind fun _ _ _ => .ok (h.push (.edge connection))

end Graph.Retold

/-! ### Documents -/

/-- Two runs while documents are emitted. -/
structure Emission.Retold (T : Translation) (S : String → String → Prop)
    (state told : Emission) : Prop where
  graph : Graph.Retold T S state.graph told.graph
  resultSets : told.resultSets = state.resultSets

namespace Emission.Retold

variable {T : Translation} {S : String → String → Prop} {state told : Emission}
  (h : Emission.Retold T S state told)

include h

theorem resultSet (record : Nat) :
    Emission.Retold T S (state.resultSet record).1 (told.resultSet record).1 ∧
      (told.resultSet record).2 = (state.resultSet record).2 := by
  simp only [Emission.resultSet, h.resultSets]
  cases state.resultSets.lookup record with
  | some vertex => exact ⟨h, rfl⟩
  | none =>
    simp only [Graph.emitVertex, h.graph.nextId_eq]
    exact ⟨⟨h.graph.push .resultSet, rfl⟩, trivial⟩

theorem range (occurrence : Occurrence) :
    Alike (fun result result' => Emission.Retold T S result.1 result'.1 ∧ result'.2 = result.2)
      (state.range occurrence) (told.range (T.occurrence occurrence)) := by
  obtain ⟨hstate, hset⟩ := h.resultSet occurrence.record
  simp only [Emission.range, Translation.occurrence, hset, Graph.emitVertex,
    hstate.graph.nextId_eq]
  refine ((hstate.graph.push (.range occurrence.file _ _)).emitEdge _).bind ?_
  intro result result' hgraph
  exact .ok ⟨⟨hgraph, hstate.resultSets⟩, rfl⟩

omit h in
theorem ranges {state told : Emission} (h : Emission.Retold T S state told)
    (occurrences : List Occurrence) :
    Alike (fun result result' => Emission.Retold T S result.1 result'.1 ∧ result'.2 = result.2)
      (state.ranges occurrences) (told.ranges (occurrences.map T.occurrence)) := by
  induction occurrences generalizing state told with
  | nil => exact .ok ⟨h, rfl⟩
  | cons occurrence occurrences ih =>
    rw [List.map_cons, Emission.ranges, Emission.ranges]
    refine (h.range occurrence).bind ?_
    rintro ⟨state, vertex⟩ ⟨told, vertex'⟩ ⟨hstate, hvertex⟩
    refine (ih hstate).bind ?_
    rintro ⟨state, vertices⟩ ⟨told, vertices'⟩ ⟨hstate, hvertices⟩
    exact .ok ⟨hstate, congrArg₂ _ hvertex hvertices⟩

theorem document {options : IndexOptions} {document : Document}
    (hkind : (T.document document).actualKind = document.actualKind)
    {xs ys : List Occurrence} (hfile : Occurrence.inFile ys (T.file document.path) =
      (Occurrence.inFile xs document.path).map T.occurrence) :
    Alike (Emission.Retold T S) (Emission.document options xs state document)
      (Emission.document options ys told (T.document document)) := by
  have hpath : (T.document document).path = T.file document.path := rfl
  simp only [Emission.document, hkind, hpath, hfile, Graph.emitVertex, h.graph.nextId_eq]
  have hstart : Emission.Retold T S
      ⟨state.graph.push (.vertex (.document (.ofPath document.path) options.languageId
        document.actualKind)), state.resultSets⟩
      ⟨told.graph.push (.vertex (.document (.ofPath (T.file document.path)) options.languageId
        document.actualKind)), told.resultSets⟩ :=
    ⟨h.graph.push (.document _ _ _), h.resultSets⟩
  refine (hstart.ranges _).bind ?_
  rintro ⟨state, vertices⟩ ⟨told, vertices'⟩ ⟨hstate, rfl⟩
  split
  · exact .ok hstate
  · refine (hstate.graph.emitEdge _).bind ?_
    intro result result' hgraph
    exact .ok ⟨hgraph, hstate.resultSets⟩

end Emission.Retold

theorem Retells.emitDocuments_alike {T : Translation} {program other : Program}
    (h : Retells T program other) (hkeeps : T.Keeps program other)
    (hnodup : (program.documents.map Document.path).Nodup) (options : IndexOptions)
    {xs ys : List Occurrence} (hplaces : ∀ occurrence ∈ xs, occurrence.place ∈ program.places)
    (hagree : AgreeBy Occurrence.place (xs.map T.occurrence) ys) (S : String → String → Prop) :
    Alike (Emission.Retold T S) (program.emitDocuments options xs)
      (other.emitDocuments options ys) := by
  unfold Program.emitDocuments
  rw [h.sortedDocuments_eq hnodup]
  refine Alike.foldlM ?_ (forall₂_map_self T.document program.sortedDocuments) ⟨.nil, rfl⟩
  rintro state told document _ hstate ⟨hdocument, rfl⟩
  have hdocument : document ∈ program.documents := mem_sortBy.mp hdocument
  exact hstate.document (hkeeps.kind document hdocument)
    (h.inFile_file hkeeps hplaces hagree (Program.path_mem_files hdocument))

/-! ### Monikers -/

/-- Whether related identifiers are told apart from export paths alike. -/
def ApartFromPaths (S : String → String → Prop) : Prop :=
  ∀ identifier identifier', S identifier identifier' → ∀ path : ExportPath,
    path.identifier = identifier ↔ path.identifier = identifier'

theorem apartFromPaths_of_colon :
    ApartFromPaths fun identifier identifier' =>
      ':' ∉ identifier.toList ∧ ':' ∉ identifier'.toList := by
  rintro identifier identifier' ⟨h, h'⟩ path
  have hcolon := path.colon_mem_identifier
  refine iff_of_false ?_ ?_
  · rintro rfl
    exact h hcolon
  · rintro rfl
    exact h' hcolon

/-- The canonical moniker of a record in two runs. -/
structure Canonical.Retold (canonical told : Canonical) : Prop where
  vertex : told.vertex = canonical.vertex
  identifier : ∀ path : ExportPath,
    path.identifier = canonical.identifier ↔ path.identifier = told.identifier

theorem Identity.Retold.canonical {S : String → String → Prop} (hS : ApartFromPaths S)
    {identity identity' : Identity} (h : Identity.Retold S identity identity') (vertex : Nat) :
    Canonical.Retold ⟨vertex, identity.identifier⟩ ⟨vertex, identity'.identifier⟩ := by
  cases h with
  | exported identifier => exact ⟨rfl, fun _ => Iff.rfl⟩
  | internal h => exact ⟨rfl, hS _ _ h⟩

/-- Two runs while monikers are emitted. -/
structure Labelling.Retold (T : Translation) (S : String → String → Prop)
    (state told : Labelling) : Prop where
  graph : Graph.Retold T S state.graph told.graph
  canonical : List.Forall₂ (fun entry entry' => entry'.1 = entry.1 ∧
    Canonical.Retold entry.2 entry'.2) state.canonical told.canonical
  taken : told.taken = state.taken

namespace Labelling.Retold

variable {T : Translation} {S : String → String → Prop} {state told : Labelling}
  (h : Labelling.Retold T S state told)

include h

theorem emit (hS : ApartFromPaths S) (scheme : String) (record resultSet : Nat)
    {identity identity' : Identity} (hidentity : Identity.Retold S identity identity') :
    Alike (Labelling.Retold T S) (state.emit scheme record resultSet identity)
      (told.emit scheme record resultSet identity') := by
  have hkind : identity'.kind = identity.kind := by
    cases hidentity with
    | exported => rfl
    | internal => rfl
  have hpublic : identity.kind = .exported → identity'.identifier = identity.identifier := by
    cases hidentity with
    | exported => exact fun _ => rfl
    | internal => exact fun hexported => nomatch hexported
  have hrefused : (identity'.kind = .exported ∧ identity'.identifier ∈ told.taken) ↔
      identity.kind = .exported ∧ identity.identifier ∈ state.taken := by
    rw [hkind, h.taken]
    exact and_congr_right fun hexported => by rw [hpublic hexported]
  unfold Labelling.emit
  by_cases htaken : identity.kind = .exported ∧ identity.identifier ∈ state.taken
  · rw [if_pos htaken, if_pos (hrefused.mpr htaken)]
    exact .error rfl
  · rw [if_neg htaken, if_neg (mt hrefused.mp htaken)]
    simp only [Graph.emitVertex, h.graph.nextId_eq]
    refine ((h.graph.push (.moniker hidentity scheme)).emitEdge _).bind ?_
    intro result result' hgraph
    refine .ok ⟨hgraph, List.rel_append h.canonical (.cons ?_ .nil), ?_⟩
    · exact ⟨rfl, hidentity.canonical hS _⟩
    · by_cases hexported : identity.kind = .exported
      · simp only [hkind, hexported, if_true, hpublic hexported, h.taken]
      · simp only [hkind, hexported, if_false, h.taken]

theorem label (hS : ApartFromPaths S) (scheme : String)
    {identity? identity?' : Nat → Option Identity}
    (hidentity : ∀ id, Option.Rel (Identity.Retold S) (identity? id) (identity?' id))
    (entry : Nat × Nat) :
    Alike (Labelling.Retold T S) (state.label scheme identity? entry)
      (told.label scheme identity?' entry) := by
  obtain ⟨record, resultSet⟩ := entry
  have hrecord := hidentity record
  simp only [Labelling.label]
  generalize identity? record = found at hrecord
  generalize identity?' record = found' at hrecord
  cases hrecord with
  | none => exact .ok h
  | some hrel => exact h.emit hS scheme record resultSet hrel

/-- The canonical monikers are found under the same records. -/
theorem lookup (record : Nat) :
    Option.Rel Canonical.Retold (state.canonical.lookup record) (told.canonical.lookup record) := by
  have hcanonical := h.canonical
  generalize state.canonical = entries at hcanonical
  generalize told.canonical = entries' at hcanonical
  induction hcanonical with
  | nil => exact .none
  | @cons entry entry' entries entries' hentry _ ih =>
    obtain ⟨key, canonical⟩ := entry
    obtain ⟨key', canonical'⟩ := entry'
    obtain ⟨hkey, hcanonical⟩ := hentry
    simp only at hkey hcanonical
    subst hkey
    rw [List.lookup_cons, List.lookup_cons]
    cases record == key' with
    | true => exact .some hcanonical
    | false => exact ih

end Labelling.Retold

/-! ### Aliases -/

/-- Two runs while aliases are published: the same export paths are taken. -/
structure Publication.Retold (T : Translation) (S : String → String → Prop)
    (state told : Publication) : Prop where
  graph : Graph.Retold T S state.graph told.graph
  taken : ∀ path : ExportPath, path.identifier ∈ state.taken ↔ path.identifier ∈ told.taken
  attached : told.attached = state.attached
  duplicates : told.duplicates = state.duplicates

theorem Publication.Retold.publish {T : Translation} {S : String → String → Prop}
    {state told : Publication} (h : Publication.Retold T S state told) (scheme : String)
    {canonical canonical' : Nat → Option Canonical}
    (hcanonical : ∀ record, Option.Rel Canonical.Retold (canonical record) (canonical' record))
    (visit : Visit) :
    Alike (Publication.Retold T S) (state.publish scheme canonical visit)
      (told.publish scheme canonical' visit) := by
  have hrecord := hcanonical visit.record
  simp only [Publication.publish]
  generalize canonical visit.record = found at hrecord
  generalize canonical' visit.record = found' at hrecord
  cases hrecord with
  | none => exact .ok h
  | @some moniker moniker' hmoniker =>
    have hsame : (visit.path.identifier == moniker'.identifier ||
        told.taken.contains visit.path.identifier) =
          (visit.path.identifier == moniker.identifier ||
            state.taken.contains visit.path.identifier) := by
      rw [Bool.eq_iff_iff]
      simp only [Bool.or_eq_true, beq_iff_eq, List.contains_iff_mem]
      exact (or_congr (hmoniker.identifier visit.path) (h.taken visit.path)).symm
    simp only [hsame, hmoniker.vertex, Graph.emitVertex, h.graph.nextId_eq]
    split
    · exact .ok ⟨h.graph, h.taken, h.attached, congrArg (· + 1) h.duplicates⟩
    · refine ((h.graph.push (.moniker (.exported _) scheme)).emitEdge _).bind ?_
      intro result result' hgraph
      refine .ok ⟨hgraph, fun path => ?_, congrArg (· + 1) h.attached, h.duplicates⟩
      rw [List.mem_cons, List.mem_cons, h.taken path]

theorem SymbolTable.mem_identifiers_retold {table : SymbolTable}
    {canonical canonical' : Nat → Option Canonical}
    (hcanonical : ∀ record, Option.Rel Canonical.Retold (canonical record) (canonical' record))
    (path : ExportPath) :
    path.identifier ∈ table.identifiers canonical ↔
      path.identifier ∈ table.identifiers canonical' := by
  simp only [SymbolTable.identifiers, List.mem_filterMap]
  refine exists_congr fun record => and_congr_right fun _ => ?_
  have hrecord := hcanonical record.id
  generalize canonical record.id = found at hrecord
  generalize canonical' record.id = found' at hrecord
  cases hrecord with
  | none => rfl
  | some hmoniker =>
    simp only [Option.map_some, Option.some.injEq]
    rw [eq_comm, hmoniker.identifier path, eq_comm]

/-! ### The whole run -/

namespace Retells

variable {T : Translation} {program other : Program} {table : SymbolTable}
  (h : Retells T program other) (hkeeps : T.Keeps program other)

include h hkeeps

theorem publishAliases_alike (hnodup : (program.documents.map Document.path).Nodup)
    (hmerge : program.merge = .ok table) (options : IndexOptions) {S : String → String → Prop}
    {graph told : Graph} (hgraph : Graph.Retold T S graph told)
    {canonical canonical' : Nat → Option Canonical}
    (hcanonical : ∀ record, Option.Rel Canonical.Retold (canonical record) (canonical' record)) :
    Alike (fun result result' => Graph.Retold T S result.1 result'.1 ∧ result'.2 = result.2)
      (program.publishAliases (program.naming options) table canonical options.scheme graph)
      (other.publishAliases (other.naming options) (T.table table) canonical' options.scheme
        told) := by
  unfold Program.publishAliases
  refine (h.links_alike hkeeps hnodup hmerge options).bind fun links _ heq => ?_
  subst heq
  rw [Translation.visits_table, Translation.identifiers_table]
  have hstart : Publication.Retold T S
      { graph := graph, taken := table.identifiers canonical }
      { graph := told, taken := table.identifiers canonical' } :=
    ⟨hgraph, SymbolTable.mem_identifiers_retold hcanonical, rfl, rfl⟩
  refine (Alike.foldlM (S := Eq) ?_ (List.forall₂_refl _) hstart).bind ?_
  · rintro state state' visit _ hstate rfl
    exact hstate.publish options.scheme hcanonical visit
  · intro state state' hstate
    refine .ok ⟨hstate.graph, ?_⟩
    simp only [hstate.attached, hstate.duplicates]

/-- A run on the program told again ends as the run on the program does. -/
theorem index_retold (options : IndexOptions) {S : String → String → Prop} (hS : ApartFromPaths S)
    (hlocal : ∀ table record, S (options.digest (Naming.localText table record))
      (options.digest (Naming.localText (T.table table) (T.record record)))) :
    Alike (fun index told => Graph.Retold T S index.graph told.graph ∧
      told.aliasStats = index.aliasStats) (program.index options) (other.index options) := by
  unfold Program.index
  refine h.checkDocuments_alike.bind fun _ _ hnodup => ?_
  refine h.merge_alike.attach.bind ?_
  rintro table _ ⟨hmerge, rfl⟩
  refine (h.occurrences_alike hmerge).bind ?_
  rintro xs ys ⟨hplaces, hagree⟩
  refine (h.emitDocuments_alike hkeeps hnodup options hplaces hagree S).bind ?_
  intro emission told hemission
  have hidentity := hkeeps.identity?_table options (Program.merge_grounded hmerge) (hlocal table)
  have hlabel : Alike (Labelling.Retold T S)
      (emission.label (program.naming options) table options.scheme)
      (told.label (other.naming options) (T.table table) options.scheme) := by
    unfold Emission.label
    rw [hemission.resultSets]
    refine Alike.foldlM (S := Eq) ?_ (List.forall₂_refl _) ⟨hemission.graph, .nil, rfl⟩
    rintro state state' entry _ hstate rfl
    exact hstate.label hS options.scheme hidentity entry
  refine hlabel.bind fun labelling told hlabelling => ?_
  refine (h.publishAliases_alike hkeeps hnodup hmerge options hlabelling.graph
    hlabelling.lookup).bind ?_
  rintro ⟨graph, stats⟩ ⟨graph', stats'⟩ ⟨hgraph, hstats⟩
  exact .ok ⟨hgraph, hstats⟩

end Retells

end MonikerIndex
