import MonikerIndex.Index.Basic
import MonikerIndex.Proofs.Identities
import MonikerIndex.Proofs.Sites

/-!
# Reading a program told again

What follows the merge reads handles only to resolve them, and reads the facts only in order. A
translated table resolves translated handles alike, and the way up from a record, its visibility and
its steps are the same. Of files and spans more is read than their order: which of two occurrences
starts first and which ends first, what kind a document has, and the module names of files. Where a
translation keeps these too (`Keeps`), all that is read of the program told again is what was read
before, translated: the documents in order, the occurrences in each file, the export paths of
records and the links.

Identifiers that are digests of places change with the places. They are compared by a relation that
each use chooses (`Identity.Retold`).
-/

namespace MonikerIndex

/-! ### Translated tables -/

namespace Translation

variable (T : Translation) (table : SymbolTable)

theorem records_table : (T.table table).records = table.records.map T.record := rfl

theorem record?_table (id : Nat) : (T.table table).record? id = (table.record? id).map T.record :=
  List.getElem?_map

theorem ascend_table (steps id : Nat) :
    (T.table table).ascend steps id = (table.ascend steps id).map T.record := by
  induction steps generalizing id with
  | zero => rfl
  | succ steps ih =>
    simp only [SymbolTable.ascend, T.record?_table]
    cases table.record? id with
    | none => rfl
    | some record =>
      simp only [Option.map_some, List.map_cons, Translation.record]
      cases record.parent with
      | none => rfl
      | some parent => simp only [ih]

theorem chain_table (id : Nat) : (T.table table).chain id = (table.chain id).map T.record :=
  T.ascend_table table (id + 1) id

theorem ofTop_record (record : Record) :
    Visibility.ofTop (T.record record) = Visibility.ofTop record := by
  simp only [Visibility.ofTop, Translation.record]
  cases record.space <;> rfl

theorem visibility_table (id : Nat) : (T.table table).visibility id = table.visibility id := by
  simp only [SymbolTable.visibility, chain_table, ← List.map_reverse]
  cases (table.chain id).reverse with
  | nil => rfl
  | cons top members =>
    simp only [List.map_cons, Visibility.ofNested, ofTop_record, List.foldl_map]
    rfl

theorem memberStep?_table (id : Nat) : (T.table table).memberStep? id = table.memberStep? id := by
  simp only [SymbolTable.memberStep?, record?_table, visibility_table]
  cases table.record? id with
  | none => rfl
  | some record => rfl

theorem steps_table (links : List Link) : (T.table table).steps links = table.steps links := by
  have hmembers : (T.table table).memberStep? = table.memberStep? :=
    funext (T.memberStep?_table table)
  simp only [SymbolTable.steps, Record.steps, hmembers, records_table, List.map_map]
  rfl

theorem visits_table (links : List Link) : (T.table table).visits links = table.visits links := by
  simp only [SymbolTable.visits, steps_table, records_table, List.length_map]

theorem identifiers_table (canonical : Nat → Option Canonical) :
    (T.table table).identifiers canonical = table.identifiers canonical := by
  simp only [SymbolTable.identifiers, records_table, List.filterMap_map]
  rfl

end Translation

theorem Program.mem_handles_of_mem_aliases {program : Program} {aliasFact : Alias}
    (halias : aliasFact ∈ program.aliases) :
    ∀ handle ∈ aliasFact.target :: aliasFact.container.toList, handle ∈ program.handles := by
  intro handle hhandle
  exact List.mem_append_right _ (List.mem_flatMap.mpr ⟨aliasFact, halias, hhandle⟩)

theorem Program.file_mem_files_of_alias {program : Program} {aliasFact : Alias}
    (halias : aliasFact ∈ program.aliases) : aliasFact.file ∈ program.files :=
  List.mem_append_right _ (List.mem_map_of_mem halias)

/-- Every handle in a merged table is a handle of the program. -/
theorem Program.mem_handles_of_merge {program : Program} {table : SymbolTable}
    (h : program.merge = .ok table) : ∀ record ∈ table.records, ∀ handle ∈ record.handles,
      handle ∈ program.handles := by
  intro record hrecord handle hhandle
  obtain ⟨-, groups, rfl, hsettled, -⟩ := exists_settled_of_merge h
  have hmem : handle ∈ (SymbolTable.ofGroups groups).records.flatMap Record.handles :=
    List.mem_flatMap.mpr ⟨record, hrecord, hhandle⟩
  rw [SymbolTable.flatMap_handles_ofGroups] at hmem
  obtain ⟨group, hgroup, hhandle'⟩ := List.mem_flatMap.mp hmem
  obtain ⟨symbol, hsymbol, rfl⟩ := List.mem_map.mp (hsettled.reported group hgroup handle hhandle')
  exact handle_mem_handles hsymbol

namespace Retells

variable {T : Translation} {program other : Program} {table : SymbolTable}

theorem resolve_table (h : Retells T program other) (hmerge : program.merge = .ok table)
    {handle : Handle} (hhandle : handle ∈ program.handles) :
    (T.table table).resolve (T.handle handle) = table.resolve handle := by
  refine (findIdx?_eq_of_forall₂ (forall₂_map_self T.record table.records) ?_).symm
  rintro record _ ⟨hrecord, rfl⟩
  exact (h.contains_handle (Program.mem_handles_of_merge hmerge record hrecord) hhandle).symm

end Retells

/-! ### Occurrences and names in a translated table -/

namespace Translation

variable {T : Translation} {table : SymbolTable}

def occurrence (T : Translation) (occurrence : Occurrence) : Occurrence where
  file := T.file occurrence.file
  span := T.span occurrence.file occurrence.span
  tag := { occurrence.tag with fullSpan := occurrence.tag.fullSpan.map (T.span occurrence.file) }
  record := occurrence.record

theorem definitions_table : (T.table table).definitions = table.definitions.map T.occurrence := by
  simp only [SymbolTable.definitions, records_table, List.flatMap_map, List.map_flatMap,
    List.map_map, Translation.record]
  rfl

/-- What a translation keeps of files and spans besides their order: what starts first and what ends
    first in a file, the kinds of documents, and the names of modules. -/
structure Keeps (T : Translation) (program other : Program) : Prop where
  start : ∀ a ∈ program.places, ∀ b ∈ program.places, a.file = b.file →
    compare (T.place a).span.start (T.place b).span.start = compare a.span.start b.span.start
  stop : ∀ a ∈ program.places, ∀ b ∈ program.places, a.file = b.file →
    compare (T.place a).span.stop (T.place b).span.stop = compare a.span.stop b.span.stop
  kind : ∀ document ∈ program.documents, (T.document document).actualKind = document.actualKind
  moduleName : ∀ file ∈ program.files,
    Path.moduleName other.root (T.file file) = Path.moduleName program.root file

end Translation

/-- Identities of one record in two runs: export paths are the same, and what stands for places is
    related. -/
inductive Identity.Retold (S : String → String → Prop) : Identity → Identity → Prop where
  | exported (identifier : String) : Retold S (.exported identifier) (.exported identifier)
  | internal {identifier identifier' : String} (h : S identifier identifier') :
      Retold S (.internal identifier) (.internal identifier')

namespace Translation.Keeps

variable {T : Translation} {program other : Program} {table : SymbolTable}
  (h : T.Keeps program other) (options : IndexOptions)

include h

theorem topBase_record {record : Record} (hknown : record.space.Known program) :
    (other.naming options).topBase (T.record record) =
      (program.naming options).topBase record := by
  simp only [Naming.topBase, Translation.record]
  cases hspace : record.space with
  | moduleFile file =>
    rw [hspace] at hknown
    exact congrArg PathBase.moduleFile (h.moduleName file hknown)
  | global => rfl
  | container id => rfl
  | alone handle => rfl

theorem fileBase_file {file : String} (hfile : file ∈ program.files) (isModule : Bool) :
    (other.naming options).fileBase (T.file file) isModule =
      (program.naming options).fileBase file isModule := by
  simp only [Naming.fileBase, Program.naming, h.moduleName file hfile]

theorem nestedPath_map {records : List Record}
    (hknown : ∀ record ∈ records, record.space.Known program) :
    (other.naming options).nestedPath (records.map T.record) =
      (program.naming options).nestedPath records := by
  induction records with
  | nil => rfl
  | cons record outer ih =>
    obtain ⟨hrecord, houter⟩ := List.forall_mem_cons.mp hknown
    cases outer with
    | nil =>
      simp only [List.map_cons, List.map_nil, Naming.nestedPath, h.topBase_record options hrecord]
      rfl
    | cons container outer =>
      rw [List.map_cons, Naming.nestedPath, Naming.nestedPath, ih houter]
      rfl

theorem nestedMemberPath_map {records : List Record}
    (hknown : ∀ record ∈ records, record.space.Known program) :
    (other.naming options).nestedMemberPath (records.map T.record) =
      (program.naming options).nestedMemberPath records := by
  cases records with
  | nil => rfl
  | cons record outer =>
    have hpath := h.nestedPath_map options hknown
    simp only [List.map_cons] at hpath
    simp only [List.map_cons, Naming.nestedMemberPath, hpath]
    rfl

variable (hgrounded : program.Grounded table)

include hgrounded

theorem exportPath_table (id : Nat) :
    (other.naming options).exportPath (T.table table) id =
      (program.naming options).exportPath table id := by
  rw [Naming.exportPath, chain_table]
  exact h.nestedPath_map options fun record hrecord =>
    hgrounded.known record (SymbolTable.mem_records_of_mem_ascend hrecord)

theorem memberPath_table (id : Nat) :
    (other.naming options).memberPath (T.table table) id =
      (program.naming options).memberPath table id := by
  rw [Naming.memberPath, chain_table]
  exact h.nestedMemberPath_map options fun record hrecord =>
    hgrounded.known record (SymbolTable.mem_records_of_mem_ascend hrecord)

theorem identity?_table {S : String → String → Prop}
    (hlocal : ∀ record, S (options.digest (Naming.localText table record))
      (options.digest (Naming.localText (T.table table) (T.record record)))) (id : Nat) :
    Option.Rel (Identity.Retold S) (table.identity? (program.naming options) id)
      ((T.table table).identity? (other.naming options) id) := by
  simp only [SymbolTable.identity?, record?_table, visibility_table]
  cases table.record? id with
  | none => exact .none
  | some record =>
    have hpath := h.exportPath_table options hgrounded record.id
    simp only [Option.map_some, Option.bind_eq_bind, Option.bind_some, Naming.identity?]
    change Option.Rel _ _ (if record.name.isNone then none else if _ then
      ((other.naming options).exportPath (T.table table) record.id).map _ else _)
    rw [hpath]
    split
    · exact .none
    · split
      · cases (program.naming options).exportPath table record.id with
        | none => exact .none
        | some path => exact .some (.exported _)
      · exact .some (.internal (hlocal record))

end Translation.Keeps

/-! ### Documents -/

namespace Program

theorem checkDocuments_eq_ok_iff {seen : List String} {documents : List Document} :
    checkDocuments seen documents = .ok () ↔
      (documents.map Document.path).Nodup ∧ ∀ document ∈ documents, document.path ∉ seen := by
  induction documents generalizing seen with
  | nil => simp [checkDocuments]
  | cons document documents ih =>
    simp only [checkDocuments, List.contains_iff_mem]
    by_cases hseen : document.path ∈ seen
    · simp [hseen]
    · rw [if_neg hseen, ih, List.map_cons, List.nodup_cons]
      constructor
      · rintro ⟨hnodup, hnew⟩
        refine ⟨⟨?_, hnodup⟩, ?_⟩
        · intro hmem
          obtain ⟨other, hother, hpath⟩ := List.mem_map.mp hmem
          exact hnew other hother (hpath ▸ List.mem_cons_self)
        · intro other hother
          rcases List.mem_cons.mp hother with rfl | hother
          · exact hseen
          · exact fun hmem => hnew other hother (List.mem_cons_of_mem _ hmem)
      · rintro ⟨⟨hfirst, hnodup⟩, hnew⟩
        refine ⟨hnodup, fun other hother hmem => ?_⟩
        rcases List.mem_cons.mp hmem with hpath | hmem
        · exact hfirst (List.mem_map.mpr ⟨other, hother, hpath⟩)
        · exact hnew other (List.mem_cons_of_mem _ hother) hmem

theorem kind_of_checkDocuments_error {seen : List String} {documents : List Document} {e : Error}
    (h : checkDocuments seen documents = .error e) : e.kind = .inconsistency := by
  induction documents generalizing seen with
  | nil => cases h
  | cons document documents ih =>
    simp only [checkDocuments] at h
    split at h
    · cases h
      rfl
    · exact ih h

/-- With distinct paths, a document is found under its path. -/
theorem document?_eq_some_iff {program : Program} {document : Document} {path : String}
    (hnodup : (program.documents.map Document.path).Nodup) :
    program.document? path = some document ↔
      document ∈ program.documents ∧ document.path = path := by
  constructor
  · intro h
    exact ⟨List.mem_of_find?_eq_some h, by simpa using List.find?_some h⟩
  · rintro ⟨hmem, rfl⟩
    cases hfind : program.document? document.path with
    | none =>
      have hno := List.find?_eq_none.mp hfind document hmem
      simp at hno
    | some found =>
      have hpath : found.path = document.path := by simpa using List.find?_some hfind
      rw [List.inj_on_of_nodup_map hnodup (List.mem_of_find?_eq_some hfind) hmem hpath]

end Program

/-! ### Occurrences and references -/

/-- Where an occurrence is. -/
def Occurrence.place (occurrence : Occurrence) : Place :=
  ⟨occurrence.file, occurrence.span⟩

instance : Std.TransCmp Occurrence.order :=
  inferInstanceAs (Std.TransCmp (compareLex (compareOn fun occurrence => occurrence.span.start)
    (compareLex (compareOn fun occurrence : Occurrence => occurrence.tag.role.rank)
      (compareOn fun occurrence => occurrence.span.stop))))

/-- Occurrences in a file are in the same order where those at each place are. -/
theorem AgreeBy.inFile_eq {xs ys : List Occurrence} (h : AgreeBy Occurrence.place xs ys)
    (file : String) : Occurrence.inFile xs file = Occurrence.inFile ys file := by
  refine sortBy_eq_of_filter_eq fun x => ?_
  rw [List.filter_filter, List.filter_filter]
  refine h.filter_eq ⟨file, x.span⟩ fun a ha => ?_
  obtain ⟨horder, hfile⟩ := Bool.and_eq_true_iff.mp ha
  obtain ⟨hstart, hrest⟩ := Ordering.then_eq_eq.mp (Ordering.isEq_iff_eq_eq.mp horder)
  obtain ⟨-, hstop⟩ := Ordering.then_eq_eq.mp hrest
  have hspan : a.span = x.span :=
    congrArg₂ Span.mk (Std.compare_eq_iff_eq.mp hstart) (Std.compare_eq_iff_eq.mp hstop)
  exact congrArg₂ Place.mk (beq_iff_eq.mp hfile) hspan

namespace Program

variable {program : Program} {table : SymbolTable}

theorem kind_of_findReference_error {reference : Reference} {e : Error}
    (herror : program.findReference table reference = .error e) : e.kind = .inconsistency := by
  unfold Program.findReference at herror
  split at herror
  · cases herror
    rfl
  · split at herror
    · cases herror
    · cases herror
      rfl

theorem place_of_findReference {reference : Reference} {occurrence : Occurrence}
    (hok : program.findReference table reference = .ok occurrence) :
    occurrence.place = reference.place := by
  unfold Program.findReference at hok
  split at hok
  · cases hok
  · split at hok
    · cases hok
      rfl
    · cases hok

end Program

/-! ### Documents side by side -/

namespace Retells

variable {T : Translation} {program other : Program} {table : SymbolTable}
  (h : Retells T program other)

include h

theorem nodup_paths_iff :
    (other.documents.map Document.path).Nodup ↔ (program.documents.map Document.path).Nodup := by
  have hpaths : (program.documents.map T.document).map Document.path =
      (program.documents.map Document.path).map T.file := by
    simp only [List.map_map]
    rfl
  rw [← (h.documents.map Document.path).nodup_iff, hpaths]
  refine ⟨List.Nodup.of_map _, fun hnodup => hnodup.map_on ?_⟩
  intro a ha b hb heq
  obtain ⟨document, hdocument, rfl⟩ := List.mem_map.mp ha
  obtain ⟨document', hdocument', rfl⟩ := List.mem_map.mp hb
  exact h.file_inj (Program.path_mem_files hdocument) (Program.path_mem_files hdocument') heq

/-- Either both programs have distinct paths, or both are found inconsistent. -/
theorem checkDocuments_alike :
    Alike (fun _ _ => (program.documents.map Document.path).Nodup)
      (Program.checkDocuments [] program.documents)
      (Program.checkDocuments [] other.documents) := by
  have hok : ∀ {documents : List Document}, Program.checkDocuments [] documents = .ok () ↔
      (documents.map Document.path).Nodup := by
    intro documents
    simp [Program.checkDocuments_eq_ok_iff]
  exact .of_ok_iff hok (hok.trans h.nodup_paths_iff)
    (fun _ => Program.kind_of_checkDocuments_error) fun _ => Program.kind_of_checkDocuments_error

theorem document?_file (hnodup : (program.documents.map Document.path).Nodup) {file : String}
    (hfile : file ∈ program.files) :
    other.document? (T.file file) = (program.document? file).map T.document := by
  refine Option.ext fun told => ?_
  rw [Program.document?_eq_some_iff (h.nodup_paths_iff.mpr hnodup), Option.map_eq_some_iff]
  constructor
  · rintro ⟨htold, hpath⟩
    obtain ⟨document, hdocument, rfl⟩ := List.mem_map.mp (h.documents.mem_iff.mpr htold)
    refine ⟨document, (Program.document?_eq_some_iff hnodup).mpr ⟨hdocument, ?_⟩, rfl⟩
    exact h.file_inj (Program.path_mem_files hdocument) hfile hpath
  · rintro ⟨document, hfound, rfl⟩
    obtain ⟨hdocument, rfl⟩ := (Program.document?_eq_some_iff hnodup).mp hfound
    exact ⟨h.documents.mem_iff.mp (List.mem_map_of_mem hdocument), rfl⟩

theorem sortedDocuments_eq (hnodup : (program.documents.map Document.path).Nodup) :
    other.sortedDocuments = program.sortedDocuments.map T.document := by
  have hsorted : other.sortedDocuments =
      sortBy (compareOn Document.path) (program.documents.map T.document) := by
    refine sortBy_eq_of_perm h.documents.symm fun a ha b hb heq => ?_
    exact List.inj_on_of_nodup_map (h.nodup_paths_iff.mpr hnodup) ha hb
      (Std.compare_eq_iff_eq.mp heq)
  rw [hsorted]
  refine sortBy_map fun a ha b hb => ?_
  exact h.compare_file _ (Program.path_mem_files ha) _ (Program.path_mem_files hb)

/-! ### Occurrences side by side -/

theorem findReference_alike (hmerge : program.merge = .ok table) {reference : Reference}
    (hreference : reference ∈ program.references) :
    Alike (fun occurrence told =>
        occurrence.place ∈ program.places ∧ told = T.occurrence occurrence)
      (program.findReference table reference)
      (other.findReference (T.table table) (T.reference reference)) := by
  have hplace := Program.place_mem_places_of_reference hreference
  have hfile : reference.file ∈ program.files := Program.file_mem_files_of_place hplace
  have htarget : reference.target ∈ program.handles := by
    simp only [Program.handles, List.mem_append, List.mem_map]
    exact Or.inl (Or.inr ⟨reference, hreference, rfl⟩)
  have hdocument : other.hasDocument (T.reference reference).file =
      program.hasDocument reference.file := h.hasDocument_file hfile
  have hresolve : (T.table table).resolve (T.reference reference).target =
      table.resolve reference.target := h.resolve_table hmerge htarget
  simp only [Program.findReference, hdocument, hresolve]
  split
  · exact .error rfl
  · cases table.resolve reference.target with
    | none => exact .error rfl
    | some id =>
      simp only [Option.bind_some, Translation.record?_table]
      cases table.record? id with
      | none => exact .error rfl
      | some record => exact .ok ⟨hplace, rfl⟩

/-- The occurrences of the program told again are those of the program, translated, in an order that
    agrees at each place. -/
theorem occurrences_alike (hmerge : program.merge = .ok table) :
    Alike (fun xs ys => (∀ occurrence ∈ xs, occurrence.place ∈ program.places) ∧
        AgreeBy Occurrence.place (xs.map T.occurrence) ys)
      (program.occurrences table) (other.occurrences (T.table table)) := by
  have hfound : Alike (List.Forall₂ fun occurrence told =>
        occurrence.place ∈ program.places ∧ told = T.occurrence occurrence)
      (program.references.mapM (program.findReference table))
      ((program.references.map T.reference).mapM (other.findReference (T.table table))) := by
    refine Alike.mapM (forall₂_map_self T.reference program.references) ?_
    rintro reference _ ⟨hreference, rfl⟩
    exact h.findReference_alike hmerge hreference
  have hagree := hfound.trans (Alike.mapM_agreeBy h.references
    (fun _ _ => Program.place_of_findReference) fun _ _ => Program.kind_of_findReference_error)
  refine hagree.map ?_
  rintro found told ⟨translated, hforall, htold⟩
  constructor
  · intro occurrence hoccurrence
    rcases List.mem_append.mp hoccurrence with hdefinition | hreference
    · obtain ⟨record, hrecord, hmem⟩ := List.mem_flatMap.mp hdefinition
      obtain ⟨site, hsite, rfl⟩ := List.mem_map.mp hmem
      exact Program.place_mem_places_of_merge hmerge hrecord hsite
    · obtain ⟨_, -, hplace, -⟩ := exists_mem_right_of_forall₂ hforall hreference
      exact hplace
  · have htranslated : translated = found.map T.occurrence := by
      rw [← List.forall₂_eq_eq_eq, List.forall₂_map_right_iff]
      exact hforall.flip.imp fun _ _ hpair => hpair.2
    rw [List.map_append, Translation.definitions_table]
    exact (AgreeBy.refl _ _).append (htranslated ▸ htold)

/-- Each file has its occurrences in the same order. -/
theorem inFile_file (hkeeps : T.Keeps program other) {xs ys : List Occurrence}
    (hplaces : ∀ occurrence ∈ xs, occurrence.place ∈ program.places)
    (hagree : AgreeBy Occurrence.place (xs.map T.occurrence) ys) {file : String}
    (hfile : file ∈ program.files) :
    Occurrence.inFile ys (T.file file) = (Occurrence.inFile xs file).map T.occurrence := by
  rw [← hagree.inFile_eq, Occurrence.inFile, Occurrence.inFile, List.filter_map]
  have hfilter : xs.filter ((fun occurrence => occurrence.file == T.file file) ∘ T.occurrence) =
      xs.filter (·.file == file) := by
    refine List.filter_congr fun occurrence hoccurrence => ?_
    rw [Bool.eq_iff_iff, Function.comp, beq_iff_eq, beq_iff_eq]
    exact ⟨h.file_inj (Program.file_mem_files_of_place (hplaces occurrence hoccurrence)) hfile,
      congrArg T.file⟩
  rw [hfilter]
  refine sortBy_map fun a ha b hb => ?_
  obtain ⟨hmem, hfile⟩ := List.mem_filter.mp ha
  obtain ⟨hmem', hfile'⟩ := List.mem_filter.mp hb
  -- both are in one file, where starts and ends are compared as before
  have hsame : a.file = b.file := (beq_iff_eq.mp hfile).trans (beq_iff_eq.mp hfile').symm
  have hstart := hkeeps.start a.place (hplaces a hmem) b.place (hplaces b hmem') hsame
  have hstop := hkeeps.stop a.place (hplaces a hmem) b.place (hplaces b hmem') hsame
  change (compare (T.place a.place).span.start (T.place b.place).span.start).then
      ((compare a.tag.role.rank b.tag.role.rank).then
        (compare (T.place a.place).span.stop (T.place b.place).span.stop)) = _
  rw [hstart, hstop]
  rfl

/-! ### Aliases side by side -/

theorem sortedAliases_eq (hkeeps : T.Keeps program other) :
    other.sortedAliases = program.sortedAliases.map T.aliasFact := by
  have hkey : ∀ a b : Alias, compareLex (compareOn Alias.file)
      (compareOn fun aliasFact => aliasFact.span.start) a b = .eq → a.start = b.start := by
    intro a b heq
    obtain ⟨hfile, hstart⟩ := Ordering.then_eq_eq.mp heq
    exact Prod.ext (Std.compare_eq_iff_eq.mp hfile) (Std.compare_eq_iff_eq.mp hstart)
  unfold Program.sortedAliases
  rw [← h.aliases.sortBy_eq hkey]
  refine sortBy_map fun a ha b hb => ?_
  have hfile := h.compare_file _ (Program.file_mem_files_of_alias ha) _
    (Program.file_mem_files_of_alias hb)
  change (compare (T.file a.file) (T.file b.file)).then
      (compare (T.span a.file a.span).start (T.span b.file b.span).start) =
    (compare a.file b.file).then (compare a.span.start b.span.start)
  rw [hfile]
  cases hcompare : compare a.file b.file with
  | lt => rfl
  | gt => rfl
  | eq =>
    exact hkeeps.start a.place (Program.place_mem_places_of_alias ha) b.place
      (Program.place_mem_places_of_alias hb) (Std.compare_eq_iff_eq.mp hcompare)

theorem findTarget_alike (hmerge : program.merge = .ok table) {aliasFact : Alias}
    (halias : aliasFact ∈ program.aliases) :
    Alike Eq (aliasFact.findTarget table)
      ((T.aliasFact aliasFact).findTarget (T.table table)) := by
  have hresolve := h.resolve_table hmerge
    (Program.mem_handles_of_mem_aliases halias _ List.mem_cons_self)
  simp only [Alias.findTarget, Translation.aliasFact, hresolve]
  cases table.resolve aliasFact.target with
  | none => exact .error rfl
  | some id => exact .ok rfl

theorem findContainer_alike (hmerge : program.merge = .ok table) {aliasFact : Alias}
    (halias : aliasFact ∈ program.aliases) :
    Alike Eq (aliasFact.findContainer table)
      ((T.aliasFact aliasFact).findContainer (T.table table)) := by
  simp only [Alias.findContainer, Translation.aliasFact]
  cases hsome : aliasFact.container with
  | none => exact .ok rfl
  | some handle =>
    have hresolve := h.resolve_table hmerge
      (Program.mem_handles_of_mem_aliases halias handle (by simp [hsome]))
    simp only [Option.map_some, hresolve]
    cases table.resolve handle with
    | none => exact .error rfl
    | some id => exact .ok rfl

variable (hkeeps : T.Keeps program other)
  (hnodup : (program.documents.map Document.path).Nodup) (hmerge : program.merge = .ok table)
  (options : IndexOptions)

include hkeeps hnodup hmerge

theorem findBase_alike {aliasFact : Alias} (halias : aliasFact ∈ program.aliases)
    (container : Option Nat) :
    Alike Eq (aliasFact.findBase program (program.naming options) table container)
      ((T.aliasFact aliasFact).findBase other (other.naming options) (T.table table)
        container) := by
  cases container with
  | none =>
    have hfile := Program.file_mem_files_of_alias halias
    have hdocument : other.document? (T.aliasFact aliasFact).file =
        (program.document? aliasFact.file).map T.document := h.document?_file hnodup hfile
    simp only [Alias.findBase, hdocument]
    cases program.document? aliasFact.file with
    | none => exact .error rfl
    | some document =>
      refine .ok (congrArg (fun base => some (ExportPath.bare base)) ?_)
      exact (hkeeps.fileBase_file options hfile document.isModule).symm
  | some id =>
    simp only [Alias.findBase, Translation.visibility_table,
      hkeeps.memberPath_table options (Program.merge_grounded hmerge)]
    exact Alike.refl _

theorem link_alike {aliasFact : Alias} (halias : aliasFact ∈ program.aliases) :
    Alike Eq (aliasFact.link program (program.naming options) table)
      ((T.aliasFact aliasFact).link other (other.naming options) (T.table table)) := by
  unfold Alias.link
  refine (h.findTarget_alike hmerge halias).bind fun target _ heq => ?_
  subst heq
  refine (h.findContainer_alike hmerge halias).bind fun container _ heq => ?_
  subst heq
  refine (h.findBase_alike hkeeps hnodup hmerge options halias container).bind fun base _ heq => ?_
  subst heq
  exact .ok rfl

theorem links_alike :
    Alike Eq (program.links (program.naming options) table)
      (other.links (other.naming options) (T.table table)) := by
  unfold Program.links
  rw [h.sortedAliases_eq hkeeps]
  exact Alike.mapM_map fun _ halias =>
    h.link_alike hkeeps hnodup hmerge options (mem_sortBy.mp halias)

end Retells

end MonikerIndex
