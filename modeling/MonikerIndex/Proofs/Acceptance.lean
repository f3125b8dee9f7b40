import MonikerIndex.Proofs.Ancestry
import MonikerIndex.Proofs.Emission.Run
import MonikerIndex.Proofs.Identities

/-!
# Which programs are accepted

Every stage of a run checks what it needs of the reported facts. `Accepts P run` says that a stage
succeeds if `P` holds and is otherwise refused for an inconsistency; the relation goes through the
ways in which stages are put together, so there is one lemma per check.

Main statement: a run succeeds exactly if documents, symbols and references are in order
(`InOrder`), no two records bear one public identifier (`Unambiguous`) and all that aliases mention
is there (`AliasesFound`). An identifier that is borne twice is found before a bad alias, and after
everything else (`index_ok_iff`).
-/

namespace MonikerIndex

/-! ### Checks -/

/-- A run that succeeds if a condition holds, and is refused as inconsistent if not. -/
inductive Accepts {α : Type} (P : Prop) : Except Error α → Prop where
  | ok (h : P) (a : α) : Accepts P (.ok a)
  | error (h : ¬P) {e : Error} (hkind : e.kind = .inconsistency) : Accepts P (.error e)

namespace Accepts

variable {α β : Type} {P Q : Prop} {run : Except Error α}

theorem of_exists_iff (hok : (∃ a, run = .ok a) ↔ P)
    (hkind : ∀ e, run = .error e → e.kind = .inconsistency) : Accepts P run := by
  cases run with
  | ok a => exact .ok (hok.mp ⟨a, rfl⟩) a
  | error e =>
    refine .error (fun hP => ?_) (hkind e rfl)
    obtain ⟨a, ha⟩ := hok.mpr hP
    cases ha

theorem congr (h : Accepts P run) (hiff : P ↔ Q) : Accepts Q run := by
  rwa [← propext hiff]

theorem bind {f : α → Except Error β} (h : Accepts P run)
    (hf : P → ∀ a, run = .ok a → Accepts Q (f a)) : Accepts (P ∧ Q) (run >>= f) := by
  cases h with
  | ok hP a => exact (hf hP a rfl).congr ⟨fun hQ => ⟨hP, hQ⟩, And.right⟩
  | error hP hkind => exact .error (fun h => hP h.1) hkind

theorem map (h : Accepts P run) (f : α → β) : Accepts P (run.map f) := by
  cases h with
  | ok hP a => exact .ok hP (f a)
  | error hP hkind => exact .error hP hkind

/-- A traversal accepts what is accepted at every member. -/
theorem mapM {P : α → Prop} {f : α → Except Error β} {xs : List α}
    (h : ∀ x ∈ xs, Accepts (P x) (f x)) : Accepts (∀ x ∈ xs, P x) (xs.mapM f) := by
  cases hrun : xs.mapM f with
  | ok ys =>
    refine .ok (fun x hx => ?_) ys
    obtain ⟨y, -, hy⟩ := exists_mem_right_of_forall₂ (mapM_eq_ok_iff.mp hrun) hx
    have hone := h x hx
    rw [hy] at hone
    cases hone with
    | ok hP _ => exact hP
  | error e =>
    obtain ⟨x, hx, herror⟩ := exists_error_of_mapM_eq_error hrun
    have hone := h x hx
    rw [herror] at hone
    cases hone with
    | error hP hkind => exact .error (fun hall => hP (hall x hx)) hkind

end Accepts

namespace Program

variable {program : Program} {table : SymbolTable}

/-! ### Documents and symbols -/

theorem hasDocument_iff_mem {path : String} :
    program.hasDocument path = true ↔ path ∈ program.documents.map Document.path := by
  rw [hasDocument_iff, List.mem_map]

theorem isSome_symbol?_iff_mem {handle : Handle} :
    (program.symbol? handle).isSome ↔ handle ∈ program.symbols.map Symbol.handle := by
  rw [isSome_symbol?_iff, List.mem_map]

theorem checkDocuments_accepts (program : Program) :
    Accepts (program.documents.map Document.path).Nodup (checkDocuments [] program.documents) := by
  refine .of_exists_iff ?_ fun e => kind_of_checkDocuments_error
  constructor
  · rintro ⟨_, h⟩
    exact (checkDocuments_eq_ok_iff.mp h).1
  · intro hnodup
    exact ⟨(), checkDocuments_eq_ok_iff.mpr ⟨hnodup, by simp⟩⟩

theorem check_accepts (program : Program) : Accepts program.Consistent program.check := by
  refine .of_exists_iff ?_ fun e => kind_of_check_error
  constructor
  · rintro ⟨_, h⟩
    exact check_eq_ok_iff.mp h
  · intro hconsistent
    exact ⟨(), check_eq_ok_iff.mpr hconsistent⟩

theorem merge_accepts (program : Program) :
    Accepts (program.Consistent ∧ program.Acyclic) program.merge := by
  rw [merge_eq_bind]
  refine program.check_accepts.bind fun hconsistent _ _ => Accepts.map ?_ _
  exact .of_exists_iff (exists_settlingOrder_iff hconsistent) fun e => kind_of_settlingOrder_error

/-- The handles that a merged table knows are those of the reported symbols. -/
theorem isSome_resolve_iff (hmerge : program.merge = .ok table) {handle : Handle} :
    (table.resolve handle).isSome ↔ handle ∈ program.symbols.map Symbol.handle := by
  obtain ⟨hconsistent, groups, rfl, hsettled, hfound⟩ := exists_settled_of_merge hmerge
  rw [SymbolTable.resolve_ofGroups]
  constructor
  · intro hsome
    by_contra hunreported
    rw [find?_eq_none_of_unreported hsettled hunreported] at hsome
    cases hsome
  · intro hmem
    obtain ⟨symbol, hsymbol, rfl⟩ := List.mem_map.mp hmem
    exact hfound symbol hsymbol

/-! ### References -/

theorem findReference_accepts (hmerge : program.merge = .ok table) (reference : Reference) :
    Accepts (reference.file ∈ program.documents.map Document.path ∧
      reference.target ∈ program.symbols.map Symbol.handle)
      (program.findReference table reference) := by
  refine .of_exists_iff ?_ fun e => kind_of_findReference_error
  simp only [findReference_eq_ok_iff, hasDocument_iff_mem, ← isSome_resolve_iff hmerge]
  constructor
  · rintro ⟨_, hfile, record, hrecord, rfl⟩
    obtain ⟨id, hid, -⟩ := Option.bind_eq_some_iff.mp hrecord
    exact ⟨hfile, by rw [hid]; rfl⟩
  · rintro ⟨hfile, htarget⟩
    obtain ⟨id, hid⟩ := Option.isSome_iff_exists.mp htarget
    have hrecord := List.getElem?_eq_getElem (SymbolTable.resolve_lt hid)
    exact ⟨_, hfile, _, Option.bind_eq_some_iff.mpr ⟨id, hid, hrecord⟩, rfl⟩

theorem occurrences_accepts (hmerge : program.merge = .ok table) :
    Accepts (∀ reference ∈ program.references,
      reference.file ∈ program.documents.map Document.path ∧
        reference.target ∈ program.symbols.map Symbol.handle) (program.occurrences table) :=
  (Accepts.mapM fun reference _ => findReference_accepts hmerge reference).map _

/-! ### Aliases -/

/-- What an alias mentions is there: its target, and its container or else its document. -/
structure AliasFound (program : Program) (aliasFact : Alias) : Prop where
  target : aliasFact.target ∈ program.symbols.map Symbol.handle
  container : ∀ handle, aliasFact.container = some handle →
    handle ∈ program.symbols.map Symbol.handle
  file : aliasFact.container = none → aliasFact.file ∈ program.documents.map Document.path

/-- What every alias mentions is there. -/
def AliasesFound (program : Program) : Prop :=
  ∀ aliasFact ∈ program.aliases, program.AliasFound aliasFact

theorem findTarget_accepts (hmerge : program.merge = .ok table) (aliasFact : Alias) :
    Accepts (aliasFact.target ∈ program.symbols.map Symbol.handle)
      (aliasFact.findTarget table) := by
  rw [← isSome_resolve_iff hmerge, Alias.findTarget]
  cases table.resolve aliasFact.target with
  | some id => exact .ok rfl id
  | none => exact .error (by simp) rfl

theorem findContainer_accepts (hmerge : program.merge = .ok table) (aliasFact : Alias) :
    Accepts (∀ handle, aliasFact.container = some handle →
      handle ∈ program.symbols.map Symbol.handle) (aliasFact.findContainer table) := by
  simp only [← isSome_resolve_iff hmerge, Alias.findContainer]
  cases aliasFact.container with
  | none => exact .ok (by simp) none
  | some handle =>
    simp only [Option.some.injEq, forall_eq']
    cases table.resolve handle with
    | some id => exact .ok rfl (some id)
    | none => exact .error (by simp) rfl

theorem findBase_accepts (naming : Naming) {aliasFact : Alias} {container : Option Nat}
    (hcontainer : aliasFact.findContainer table = .ok container) :
    Accepts (aliasFact.container = none → aliasFact.file ∈ program.documents.map Document.path)
      (aliasFact.findBase program naming table container) := by
  unfold Alias.findContainer at hcontainer
  cases hreported : aliasFact.container with
  | none =>
    rw [hreported] at hcontainer
    cases hcontainer
    simp only [Alias.findBase, forall_const]
    cases hdocument : program.document? aliasFact.file with
    | some document =>
      refine .ok (List.mem_map.mpr ⟨document, List.mem_of_find?_eq_some hdocument, ?_⟩) _
      simpa using List.find?_some hdocument
    | none =>
      refine .error (fun hmem => ?_) rfl
      obtain ⟨document, hmem, hpath⟩ := List.mem_map.mp hmem
      have hne := List.find?_eq_none.mp hdocument document hmem
      simp [hpath] at hne
  | some handle =>
    rw [hreported] at hcontainer
    cases hresolve : table.resolve handle with
    | none => simp [hresolve] at hcontainer
    | some id =>
      simp only [hresolve, Except.ok.injEq] at hcontainer
      subst hcontainer
      simp only [Alias.findBase]
      split
      · exact .ok (fun hnone => by cases hnone) _
      · exact .ok (fun hnone => by cases hnone) _

theorem link_accepts (naming : Naming) (hmerge : program.merge = .ok table) (aliasFact : Alias) :
    Accepts (program.AliasFound aliasFact) (aliasFact.link program naming table) := by
  have hstages : Accepts _ (aliasFact.link program naming table) :=
    (findTarget_accepts hmerge aliasFact).bind fun _ target _ =>
      (findContainer_accepts hmerge aliasFact).bind fun _ container hcontainer =>
        (findBase_accepts naming hcontainer).bind fun _ base _ =>
          Accepts.ok trivial (Link.mk aliasFact.name target container base)
  refine hstages.congr ?_
  constructor
  · rintro ⟨htarget, hcontainer, hfile, -⟩
    exact ⟨htarget, hcontainer, hfile⟩
  · intro h
    exact ⟨h.target, h.container, h.file, trivial⟩

theorem links_accepts (naming : Naming) (hmerge : program.merge = .ok table) :
    Accepts program.AliasesFound (program.links naming table) := by
  refine (Accepts.mapM fun aliasFact _ => link_accepts naming hmerge aliasFact).congr ?_
  simp only [AliasesFound, sortedAliases, mem_sortBy]

end Program

/-! ### Public identifiers -/

namespace SymbolTable

variable {table : SymbolTable} {naming : Naming}

/-- Whether a record bears a public identifier: it is named and seen everywhere, and the identifier
    is that of its export path. -/
def Bears (table : SymbolTable) (naming : Naming) (record : Record) (identifier : String) : Prop :=
  record.name.isSome ∧ table.visibility record.id = .everywhere ∧
    ∃ path, naming.exportPath table record.id = some path ∧ path.identifier = identifier

/-- Whether no two records bear one identifier. -/
def Unambiguous (table : SymbolTable) (naming : Naming) : Prop :=
  ∀ first ∈ table.records, ∀ second ∈ table.records, ∀ identifier,
    table.Bears naming first identifier → table.Bears naming second identifier → first = second

theorem identity?_eq_exported_iff {id : Nat} {record : Record} {identifier : String}
    (hrecord : table.record? id = some record) (hid : record.id = id) :
    table.identity? naming id = some (.exported identifier) ↔
      table.Bears naming record identifier := by
  rw [identity?_eq_some_iff, Bears, hid]
  simp [hrecord, hid, Identity.exported, Identity.internal, @eq_comm _ identifier]

end SymbolTable

namespace Covers

variable {program : Program} {table : SymbolTable} {occurrences : List Occurrence}
  {chapters : List Chapter} {resultSets : List (Nat × Nat)} {naming : Naming}
  (hcovers : Covers program occurrences chapters resultSets) (hgrounded : program.Grounded table)

include hcovers in
theorem nodup_records_identified :
    ((identified (table.identity? naming) resultSets).map Prod.fst).Nodup := by
  have hsublist := (identified_sublist (table.identity? naming) resultSets).map Prod.fst
  rw [List.map_map] at hsublist
  exact hcovers.nodup_records.sublist hsublist

include hcovers hgrounded in
theorem exists_identified_of_bears (hoccurrences : program.occurrences table = .ok occurrences)
    {record : Record} (hrecord : record ∈ table.records) {identifier : String}
    (hbears : table.Bears naming record identifier) :
    ∃ resultSet, (record.id, resultSet, Identity.exported identifier) ∈
      identified (table.identity? naming) resultSets := by
  have hlisted := (hcovers.mem_records_iff_lt hgrounded hoccurrences).mpr (hgrounded.id_lt hrecord)
  obtain ⟨⟨id, resultSet⟩, hmem, hid⟩ := List.mem_map.mp hlisted
  cases hid
  refine ⟨resultSet, mem_identified_iff.mpr ⟨hmem, ?_⟩⟩
  exact (SymbolTable.identity?_eq_exported_iff (hgrounded.record?_id hrecord) rfl).mpr hbears

include hgrounded in
theorem exists_bears_of_identified {content : Nat × Nat × Identity}
    (hmem : content ∈ identified (table.identity? naming) resultSets)
    (hkind : content.2.2.kind = .exported) :
    ∃ record ∈ table.records, record.id = content.1 ∧
      table.Bears naming record content.2.2.identifier := by
  obtain ⟨-, hidentity⟩ := mem_identified_iff.mp hmem
  obtain ⟨record, hrecord, -⟩ := SymbolTable.identity?_eq_some_iff.mp hidentity
  have hid := hgrounded.id_eq _ _ hrecord
  rcases SymbolTable.identity?_cases hidentity with ⟨path, heq⟩ | ⟨text, heq⟩
  · refine ⟨record, List.mem_of_getElem? hrecord, hid, ?_⟩
    rw [heq] at hidentity ⊢
    exact (SymbolTable.identity?_eq_exported_iff hrecord hid).mp hidentity
  · rw [heq] at hkind
    cases hkind

include hcovers hgrounded in
/-- Labelling meets no identifier twice if no two records bear one. -/
theorem nodup_publicIdentifiers_iff (hoccurrences : program.occurrences table = .ok occurrences) :
    (publicIdentifiers (identified (table.identity? naming) resultSets)).Nodup ↔
      table.Unambiguous naming := by
  have hkeys := @nodup_records_identified _ table _ _ _ naming hcovers
  rw [publicIdentifiers, List.nodup_map_iff_inj_on (hkeys.of_map.filter _)]
  constructor
  · intro h first hfirst second hsecond identifier hbears hbears'
    obtain ⟨resultSet, hmem⟩ :=
      hcovers.exists_identified_of_bears hgrounded hoccurrences hfirst hbears
    obtain ⟨resultSet', hmem'⟩ :=
      hcovers.exists_identified_of_bears hgrounded hoccurrences hsecond hbears'
    have hid : first.id = second.id :=
      congrArg Prod.fst (h _ (List.mem_filter.mpr ⟨hmem, rfl⟩) _
        (List.mem_filter.mpr ⟨hmem', rfl⟩) rfl)
    have hsame := hgrounded.record?_id hfirst
    rw [hid, hgrounded.record?_id hsecond] at hsame
    exact (Option.some.inj hsame).symm
  · intro h content hcontent content' hcontent' heq
    obtain ⟨hmem, hkind⟩ := List.mem_filter.mp hcontent
    obtain ⟨hmem', hkind'⟩ := List.mem_filter.mp hcontent'
    obtain ⟨first, hfirst, hid, hbears⟩ :=
      exists_bears_of_identified hgrounded hmem (of_decide_eq_true hkind)
    obtain ⟨second, hsecond, hid', hbears'⟩ :=
      exists_bears_of_identified hgrounded hmem' (of_decide_eq_true hkind')
    rw [← heq] at hbears'
    have hrecord : first = second := h first hfirst second hsecond _ hbears hbears'
    refine List.inj_on_of_nodup_map hkeys hmem hmem' ?_
    rw [← hid, ← hid', hrecord]

end Covers

/-! ### Whole runs -/

namespace Program

variable {program : Program}

/-- Documents, symbols and references are in order. -/
structure InOrder (program : Program) : Prop where
  paths_nodup : (program.documents.map Document.path).Nodup
  handles_nodup : (program.symbols.map Symbol.handle).Nodup
  declared : ∀ symbol ∈ program.symbols, symbol.declarations ≠ [] ∧
    ∀ declaration ∈ symbol.declarations, declaration.file ∈ program.documents.map Document.path
  parents : ∀ symbol ∈ program.symbols, ∀ parent, symbol.parent = some parent →
    parent ∈ program.symbols.map Symbol.handle
  acyclic : program.Acyclic
  references : ∀ reference ∈ program.references,
    reference.file ∈ program.documents.map Document.path ∧
      reference.target ∈ program.symbols.map Symbol.handle

/-- No two records of the program bear one public identifier. -/
def Unambiguous (program : Program) (naming : Naming) : Prop :=
  ∀ table, program.merge = .ok table → table.Unambiguous naming

theorem inOrder_iff : program.InOrder ↔
    (program.documents.map Document.path).Nodup ∧ (program.Consistent ∧ program.Acyclic) ∧
      ∀ reference ∈ program.references,
        reference.file ∈ program.documents.map Document.path ∧
          reference.target ∈ program.symbols.map Symbol.handle := by
  constructor
  · intro h
    refine ⟨h.paths_nodup, ⟨⟨h.handles_nodup, ?_, ?_, ?_⟩, h.acyclic⟩, h.references⟩
    · exact fun symbol hmem => (h.declared symbol hmem).1
    · exact fun symbol hmem declaration hdeclaration =>
        hasDocument_iff_mem.mpr ((h.declared symbol hmem).2 declaration hdeclaration)
    · exact fun symbol hmem parent hparent =>
        isSome_symbol?_iff_mem.mpr (h.parents symbol hmem parent hparent)
  · rintro ⟨hpaths, ⟨hconsistent, hacyclic⟩, hreferences⟩
    refine ⟨hpaths, hconsistent.handles_nodup, ?_, ?_, hacyclic, hreferences⟩
    · exact fun symbol hmem => ⟨hconsistent.declared symbol hmem, fun declaration hdeclaration =>
        hasDocument_iff_mem.mp (hconsistent.inDocuments symbol hmem declaration hdeclaration)⟩
    · exact fun symbol hmem parent hparent =>
        isSome_symbol?_iff_mem.mp (hconsistent.parents symbol hmem parent hparent)

/-- The stages of a run before the first element is emitted. -/
def survey (program : Program) : Except Error (SymbolTable × List Occurrence) := do
  checkDocuments [] program.documents
  let table ← program.merge
  let occurrences ← program.occurrences table
  return (table, occurrences)

theorem survey_accepts (program : Program) : Accepts program.InOrder program.survey := by
  have hstages : Accepts _ program.survey :=
    program.checkDocuments_accepts.bind fun _ _ _ =>
      program.merge_accepts.bind fun _ table hmerge =>
        (occurrences_accepts hmerge).bind fun _ occurrences _ =>
          Accepts.ok trivial (table, occurrences)
  refine hstages.congr ?_
  rw [inOrder_iff, and_true]

theorem survey_eq_ok {table : SymbolTable} {occurrences : List Occurrence}
    (h : program.survey = .ok (table, occurrences)) :
    checkDocuments [] program.documents = .ok () ∧ program.merge = .ok table ∧
      program.occurrences table = .ok occurrences := by
  obtain ⟨_, hdocuments, h⟩ := bind_eq_ok_iff.mp h
  obtain ⟨table', hmerge, h⟩ := bind_eq_ok_iff.mp h
  obtain ⟨occurrences', hoccurrences, h⟩ := bind_eq_ok_iff.mp h
  cases h
  exact ⟨hdocuments, hmerge, hoccurrences⟩

theorem index_of_survey_error {e : Error} (h : program.survey = .error e)
    (options : IndexOptions) : program.index options = .error e := by
  have hindex : ∃ rest, program.index options = program.survey >>= rest := by
    refine ⟨fun found => do
      let emission ← program.emitDocuments options found.2
      let labelling ← emission.label (program.naming options) found.1 options.scheme
      let outcome ← program.publishAliases (program.naming options) found.1
        (labelling.canonical.lookup ·) options.scheme labelling.graph
      return ⟨outcome.1, outcome.2⟩, ?_⟩
    simp only [index, survey, bind_assoc, pure_bind]
  obtain ⟨rest, hrest⟩ := hindex
  rw [hrest, h]
  rfl

/-- A run succeeds exactly if the program is in order, no two records bear one public identifier,
    and what aliases mention is there. It ends with a collision if the program is in order and two
    records bear one identifier, and is refused as inconsistent in every other case. -/
theorem index_ok_iff (program : Program) (options : IndexOptions) :
    ((∃ index, program.index options = .ok index) ↔
      program.InOrder ∧ program.Unambiguous (program.naming options) ∧ program.AliasesFound) ∧
    ∀ e, program.index options = .error e →
      (program.InOrder ∧ ¬program.Unambiguous (program.naming options) → e.kind = .collision) ∧
      (¬(program.InOrder ∧ ¬program.Unambiguous (program.naming options)) →
        e.kind = .inconsistency) ∧
      e.kind ≠ .emissionOrder := by
  have hsurvey := program.survey_accepts
  cases hfound : program.survey with
  | error e =>
    rw [hfound] at hsurvey
    cases hsurvey with
    | error hnot hkind =>
      rw [index_of_survey_error hfound]
      simp [hnot, hkind]
  | ok found =>
    obtain ⟨table, occurrences⟩ := found
    rw [hfound] at hsurvey
    cases hsurvey with
    | ok horder _ =>
      obtain ⟨hdocuments, hmerge, hoccurrences⟩ := survey_eq_ok hfound
      have hgrounded := merge_grounded hmerge
      have hlinks := links_accepts (program.naming options) hmerge
      have hunambiguous : program.Unambiguous (program.naming options) ↔
          table.Unambiguous (program.naming options) := by
        simp [Unambiguous, hmerge]
      rw [hunambiguous]
      have hending := @index_ending program options table occurrences hdocuments hmerge hoccurrences
      generalize program.index options = run at hending ⊢
      cases hending with
      | collision hcovers hclash =>
        -- aliases have not been looked at
        rw [hcovers.nodup_publicIdentifiers_iff hgrounded hoccurrences] at hclash
        simp [horder, hclash, Error.kind]
      | badAlias hcovers hdistinct hfail =>
        rw [hcovers.nodup_publicIdentifiers_iff hgrounded hoccurrences] at hdistinct
        rw [hfail] at hlinks
        cases hlinks with
        | error hnot hkind => simp [hdistinct, hnot, hkind]
      | graph hok hpresents hgrows =>
        have hdistinct := hpresents.distinct
        rw [hpresents.labels,
          hpresents.covers.nodup_publicIdentifiers_iff hgrounded hoccurrences] at hdistinct
        rw [hok] at hlinks
        cases hlinks with
        | ok haliases _ => simp [horder, hdistinct, haliases]

-- the member `b` of `a` and a global of the name `a.b` bear one identifier, and this is found
-- before the alias without a target
example : (Program.index {
    root := "/p"
    documents := [.script "/p/a.ts"]
    symbols := [
      { handle := 1, name := some "a", kind := .namespaceBlock
        declarations := [{ file := "/p/a.ts", span := .onLine 0 10 11 }] },
      { handle := 2, name := some "b", kind := .constant, parent := some 1
        declarations := [{ file := "/p/a.ts", span := .onLine 1 8 9, exported := true }] },
      { handle := 3, name := some "a.b", kind := .constant
        declarations := [{ file := "/p/a.ts", span := .onLine 3 4 7 }] }]
    aliases := [⟨"/p/a.ts", .onLine 4 4 5, none, "c", 9⟩] } {}).mapError Error.kind =
      .error .collision := by
  decide +kernel

end Program

end MonikerIndex
