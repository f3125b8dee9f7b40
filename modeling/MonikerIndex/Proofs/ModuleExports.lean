import MonikerIndex.Proofs.Identities
import MonikerIndex.Proofs.Sites
import Mathlib.Order.Bounds.Basic

/-!
# Exports of module files

What a module file exports is to be found under the module name of that file. Three functions
decide on it: the space of a symbol is settled when it is merged, the visibility of a record reads
the space of the outermost record around it, and so does the base of its export path.

They agree where the outermost record is named: then its space is the top level of the least file
that declares it, nothing inside is seen everywhere unless it is exported, and all export paths
start at the module name of that file. A record without a name has a space of its own, though,
and from there the global scope is taken for the base (`merge_exports_under_module`).
-/

namespace MonikerIndex

/-! ### The outermost record -/

theorem Record.parent_of_isAmbientModule {record : Record} (h : record.isAmbientModule = true) :
    record.parent = none := by
  rw [isAmbientModule, Bool.and_eq_true, Option.isNone_iff_eq_none] at h
  exact h.2

theorem Record.isQuotedModule_of_not_ambient {record : Record}
    (h : record.isAmbientModule = false) : record.isQuotedModule = false := by
  rw [isQuotedModule, h, Bool.false_and]

theorem Enclosing.eq_append {records : List Record} (h : Enclosing records) {top : Record}
    (hmem : top ∈ records) (hparent : top.parent = none) : ∃ inner, records = inner ++ [top] := by
  induction records with
  | nil => cases hmem
  | cons record outer ih =>
    rcases List.mem_cons.mp hmem with rfl | hmem
    · exact ⟨[], by rw [h.1 hparent]; rfl⟩
    · obtain ⟨inner, rfl⟩ := ih h.2 hmem
      exact ⟨record :: inner, rfl⟩

/-- Ambient modules have no parent, so only the outermost record can be one. -/
theorem Enclosing.not_ambient {top : Record} (hambient : top.isAmbientModule = false)
    {inner : List Record} (h : Enclosing (inner ++ [top])) :
    ∀ record ∈ inner ++ [top], record.isAmbientModule = false := by
  induction inner with
  | nil => simpa using hambient
  | cons first inner ih =>
    intro record hrecord
    rcases List.mem_cons.mp hrecord with rfl | hrecord
    · by_contra hmodule
      have hnil := h.1 (Record.parent_of_isAmbientModule (by simpa using hmodule))
      exact List.append_ne_nil_of_right_ne_nil inner (List.cons_ne_nil top []) hnil
    · exact ih h.2 record hrecord

/-- Where the outermost record is no module block, paths start at its base. -/
theorem Naming.base_of_nestedPath {naming : Naming} {top : Record}
    (hambient : top.isAmbientModule = false) {inner : List Record}
    (h : Enclosing (inner ++ [top])) {path : ExportPath}
    (hpath : naming.nestedPath (inner ++ [top]) = some path) :
    path.base = naming.topBase top ∧ path.segments ≠ [] := by
  induction inner generalizing path with
  | nil =>
    rw [List.nil_append, nestedPath] at hpath
    obtain ⟨segment, -, hpath⟩ := Option.bind_eq_some_iff.mp hpath
    simp only [Record.isQuotedModule_of_not_ambient hambient] at hpath
    cases hpath
    exact ⟨rfl, by simp [ExportPath.child]⟩
  | cons record inner ih =>
    have hinner := h.not_ambient hambient record List.mem_cons_self
    rw [List.cons_append, nestedPath] at hpath
    obtain ⟨segment, -, hpath⟩ := Option.bind_eq_some_iff.mp hpath
    simp only [Record.isQuotedModule_of_not_ambient hinner] at hpath
    cases houter : inner ++ [top] with
    | nil => simp at houter
    | cons container rest =>
      have hcontainer : container.isAmbientModule = false :=
        Enclosing.not_ambient hambient h.2 container (houter ▸ List.mem_cons_self)
      simp only [houter, hcontainer] at hpath
      obtain ⟨outer, houterPath, hpath⟩ := Option.bind_eq_some_iff.mp hpath
      rw [← houter] at houterPath
      have hbase := (ih h.2 houterPath).1
      cases hpath
      exact ⟨hbase, by simp [ExportPath.child]⟩

theorem Visibility.eq_everywhere_of_foldl {members : List Record} {visibility : Visibility}
    (h : members.foldl ofMember visibility = .everywhere) : visibility = .everywhere := by
  induction members generalizing visibility with
  | nil => exact h
  | cons record members ih =>
    have hmember : ofMember visibility record = .everywhere := ih h
    by_contra hne
    unfold ofMember at hmember
    split at hmember
    · cases hmember
    · split at hmember
      · cases hmember
      · cases hmember

/-! ### Top levels of module files -/

namespace Program

variable {program : Program} {table : SymbolTable}

/-- Whether a symbol of the record is declared in the file. -/
def DeclaredIn (program : Program) (record : Record) (file : String) : Prop :=
  ∃ symbol ∈ program.symbols, symbol.handle ∈ record.handles ∧
    file ∈ symbol.declarations.map Declaration.file

/-- A record at the top level of module files: a member of them, no module block, and declared in
    no other files. -/
@[mk_iff]
structure InModuleFiles (program : Program) (record : Record) : Prop where
  top : record.parent = none
  scope : record.scope = .member
  symbols : ∀ symbol ∈ program.symbols, symbol.handle ∈ record.handles →
    symbol.kind ≠ .moduleBlock ∧
      ∀ declaration ∈ symbol.declarations, program.isModuleFile declaration.file = true
  sites : ∀ site ∈ record.sites, site.kind ≠ .moduleBlock

instance (program : Program) (record : Record) : Decidable (program.InModuleFiles record) :=
  decidable_of_iff _ (program.inModuleFiles_iff record).symm

/-- A named record at the top level of module files has the space of the least of them. -/
theorem InModuleFiles.exists_space {top : Record} (h : program.InModuleFiles top)
    (hmerge : program.merge = .ok table) (hrecord : top ∈ table.records)
    (hname : top.name.isSome) :
    ∃ file, IsLeast {file | program.DeclaredIn top file} file ∧ top.space = .moduleFile file := by
  obtain ⟨hconsistent, groups, rfl, hreached, hsettled⟩ := exists_groups_of_merge hmerge
  obtain ⟨group, hgroup, id, children, rfl⟩ := SymbolTable.exists_group_of_mem hrecord
  obtain ⟨founder, hfounder, hhandle, hscope⟩ := hreached.founded group hgroup
  have hspace : ∀ symbol ∈ program.symbols, symbol.handle ∈ group.handles →
      group.space = program.spaceOf symbol none := by
    intro symbol hsymbol hmem
    have hholds := hsettled.holds group hgroup symbol hsymbol hmem
    rw [hholds.space]
    exact congrArg (program.spaceOf symbol) h.top
  obtain ⟨hkind, hfiles⟩ := h.symbols founder hfounder hhandle
  have hmember : founder.scope = .member := hscope.symm.trans h.scope
  have hleast : IsLeastFile founder (leastFile founder) :=
    leastFile_spec (hconsistent.declared founder hfounder)
  have hmodule : program.isModuleFile (leastFile founder) = true := by
    obtain ⟨declaration, hdeclaration, heq⟩ := List.mem_map.mp hleast.1
    rw [← heq]
    exact hfiles declaration hdeclaration
  have hfile : program.spaceOf founder none = .moduleFile (leastFile founder) := by
    refine (topSpace_iff (hconsistent.declared founder hfounder) (by simp [hmember]) ?_).mp
      (.moduleFile hkind (by simp [hmember]) hleast hmodule)
    rw [← (hsettled.holds group hgroup founder hfounder hhandle).name]
    exact hname
  refine ⟨leastFile founder, ⟨⟨founder, hfounder, hhandle, hleast.1⟩, ?_⟩,
    (hspace founder hfounder hhandle).trans hfile⟩
  rintro file ⟨symbol, hsymbol, hmem, hdeclared⟩
  -- all symbols of the group have its space, so they agree on the least file
  have hsame : program.spaceOf symbol none = .moduleFile (leastFile founder) := by
    rw [← hspace symbol hsymbol hmem, hspace founder hfounder hhandle, hfile]
  exact (isLeastFile_of_spaceOf (hconsistent.declared symbol hsymbol) hsame).2 file hdeclared

/-- A record without a name has a space of its own. -/
theorem exists_space_of_nameless (hmerge : program.merge = .ok table) {record : Record}
    (hrecord : record ∈ table.records) (hname : record.name = none) :
    ∃ handle, record.space = .alone handle := by
  obtain ⟨-, groups, rfl, hreached, hsettled⟩ := exists_groups_of_merge hmerge
  obtain ⟨group, hgroup, id, children, rfl⟩ := SymbolTable.exists_group_of_mem hrecord
  obtain ⟨founder, hfounder, hhandle, -⟩ := hreached.founded group hgroup
  have hholds := hsettled.holds group hgroup founder hfounder hhandle
  rcases program.spaceOf_cases founder group.parent with ⟨-, halone⟩ | ⟨⟨-, hnamed⟩, -⟩
  · exact ⟨founder.handle, hholds.space.trans halone⟩
  · rw [← hholds.name, show group.name = none from hname] at hnamed
    cases hnamed

theorem InModuleFiles.isAmbientModule {top : Record} (h : program.InModuleFiles top)
    (hmerge : program.merge = .ok table) (hrecord : top ∈ table.records) :
    top.isAmbientModule = false := by
  obtain ⟨hconsistent, groups, rfl, hreached, -⟩ := exists_groups_of_merge hmerge
  obtain ⟨group, hgroup, id, children, rfl⟩ := SymbolTable.exists_group_of_mem hrecord
  have hne : Site.arrange group.sites ≠ [] :=
    Site.arrange_ne_nil (hreached.sited hconsistent group hgroup).nonempty
  -- the kind of a record is that of its first site
  obtain ⟨first, rest, hsites⟩ := List.exists_cons_of_ne_nil hne
  have hkind : first.kind ≠ .moduleBlock :=
    h.sites first (by simp [SymbolTable.recordOf, hsites])
  simp [Record.isAmbientModule, SymbolTable.recordOf, hsites, hkind]

/-! ### Exports -/

/-- What it is for a record inside `top` to be exported under the file of `top`: it is seen
    everywhere only if `top` is exported, and an export identity of it starts with the module name
    of the least file that declares `top`. -/
structure ExportedUnder (program : Program) (table : SymbolTable) (naming : Naming)
    (record top : Record) : Prop where
  classified : table.visibility record.id = .everywhere → top.exported = true
  prefixed : ∀ visibility identity, naming.identity? table record visibility = some identity →
    identity.kind = .exported → ∃ file segments,
      IsLeast {file | program.DeclaredIn top file} file ∧ segments ≠ [] ∧ identity.identifier =
        ExportPath.identifier ⟨.moduleFile (Path.moduleName naming.root file), segments⟩

/-- The outermost record decides on visibility. -/
theorem visibility_of_top {record top : Record} (htop : top ∈ table.chain record.id)
    (hparent : top.parent = none) (h : table.visibility record.id = .everywhere) :
    Visibility.ofTop top = .everywhere := by
  obtain ⟨inner, hchain⟩ := (table.enclosing_ascend _ _).eq_append htop hparent
  rw [SymbolTable.visibility, SymbolTable.chain, hchain, List.reverse_append] at h
  exact Visibility.eq_everywhere_of_foldl h

/-- The outermost record gives its base to export identities. -/
theorem exists_segments_of_exported {record top : Record} (htop : top ∈ table.chain record.id)
    (hparent : top.parent = none) (hambient : top.isAmbientModule = false) {naming : Naming}
    {visibility : Visibility} {identity : Identity}
    (h : naming.identity? table record visibility = some identity)
    (hkind : identity.kind = .exported) : ∃ segments, segments ≠ [] ∧
      identity.identifier = ExportPath.identifier ⟨naming.topBase top, segments⟩ := by
  obtain ⟨inner, hchain⟩ := (table.enclosing_ascend _ _).eq_append htop hparent
  have henclosing := table.enclosing_ascend (record.id + 1) record.id
  rw [hchain] at henclosing
  unfold Naming.identity? at h
  split at h
  · cases h
  · split at h
    · obtain ⟨path, hpath, rfl⟩ := Option.map_eq_some_iff.mp h
      rw [Naming.exportPath, SymbolTable.chain, hchain] at hpath
      obtain ⟨hbase, hsegments⟩ := Naming.base_of_nestedPath hambient henclosing hpath
      exact ⟨path.segments, hsegments, by rw [← hbase]; rfl⟩
    · cases h
      cases hkind

/-- What lies in a named record at the top level of module files is exported under the least of
    these files. If the record has no name, it is seen everywhere whether it is exported or not, and
    what lies in it is exported under the global scope. -/
theorem merge_exports_under_module {record top : Record} (h : program.merge = .ok table)
    (htop : top ∈ table.chain record.id) (hmodule : program.InModuleFiles top) (naming : Naming) :
    (top.name.isSome → program.ExportedUnder table naming record top) ∧
      (top.name = none → table.visibility top.id = .everywhere ∧
        ∀ visibility identity, naming.identity? table record visibility = some identity →
          identity.kind = .exported → ∃ segments, segments ≠ [] ∧
            identity.identifier = ExportPath.identifier ⟨.global, segments⟩) := by
  have hrecord : top ∈ table.records := SymbolTable.mem_records_of_mem_ascend htop
  have hambient := hmodule.isAmbientModule h hrecord
  refine ⟨fun hname => ?_, fun hname => ?_⟩
  · obtain ⟨file, hfile, hspace⟩ := hmodule.exists_space h hrecord hname
    refine ⟨fun hvisible => ?_, fun visibility identity hidentity hkind => ?_⟩
    · have htopVisible := visibility_of_top htop hmodule.top hvisible
      simpa [Visibility.ofTop, hmodule.scope, hspace] using htopVisible
    · obtain ⟨segments, hsegments, hidentifier⟩ :=
        exists_segments_of_exported htop hmodule.top hambient hidentity hkind
      exact ⟨file, segments, hfile, hsegments, by simpa [Naming.topBase, hspace] using hidentifier⟩
  · obtain ⟨handle, hspace⟩ := exists_space_of_nameless h hrecord hname
    refine ⟨?_, fun visibility identity hidentity hkind => ?_⟩
    · have hid := (merge_grounded h).record?_id hrecord
      simp [SymbolTable.visibility, SymbolTable.chain, SymbolTable.ascend, hid, hmodule.top,
        Visibility.ofNested, Visibility.ofTop, hmodule.scope, hspace]
    · obtain ⟨segments, hsegments, hidentifier⟩ :=
        exists_segments_of_exported htop hmodule.top hambient hidentity hkind
      exact ⟨segments, hsegments, by simpa [Naming.topBase, hspace] using hidentifier⟩

/-- A module file with a class, a class without a name that is its default export, and a function
    without a name that it does not export. Both classes have a method. -/
def util : Program where
  root := "/p"
  documents := [.moduleFile "/p/lib/util.ts"]
  symbols := [
    { handle := 1, name := some "Box", kind := .classType
      declarations := [{ file := "/p/lib/util.ts", span := .onLine 0 13 16, exported := true }] },
    { handle := 2, name := some "open", kind := .method, parent := some 1
      declarations := [{ file := "/p/lib/util.ts", span := .onLine 1 2 6, exported := true }] },
    { handle := 3, name := none, kind := .classType, exportForm := some .defaultExport
      declarations := [{ file := "/p/lib/util.ts", span := .onLine 3 15 20, exported := true }] },
    { handle := 4, name := some "run", kind := .method, parent := some 3
      declarations := [{ file := "/p/lib/util.ts", span := .onLine 4 2 5, exported := true }] },
    { handle := 5, name := none, kind := .function
      declarations := [{ file := "/p/lib/util.ts", span := .onLine 6 1 9 }] }]
  references := []
  aliases := []

/-- The method of the class with a name is exported under the module name. -/
theorem merge_util_exports : ∃ table, util.merge = .ok table ∧ ∃ record ∈ table.records,
    ∃ top ∈ table.chain record.id, top.name = some "Box" ∧ util.InModuleFiles top ∧
      (Naming.mk "/p" id).identity? table record (table.visibility record.id) =
        some (.exported "lib/util:Box.open") ∧
      util.ExportedUnder table ⟨"/p", id⟩ record top := by
  have hmerge : util.merge.toOption.any (fun table => table.records.any fun record =>
      (table.chain record.id).any fun top => top.name = some "Box" ∧ util.InModuleFiles top ∧
        (Naming.mk "/p" id).identity? table record (table.visibility record.id) =
          some (.exported "lib/util:Box.open")) = true := by
    decide +kernel
  simp only [Option.any_eq_true, toOption_eq_some_iff, List.any_eq_true,
    decide_eq_true_eq] at hmerge
  obtain ⟨table, hmerge, record, hrecord, top, htop, hname, hmodule, hidentity⟩ := hmerge
  refine ⟨table, hmerge, record, hrecord, top, htop, hname, hmodule, hidentity, ?_⟩
  exact (merge_exports_under_module hmerge htop hmodule ⟨"/p", id⟩).1 (by rw [hname]; rfl)

theorem eq_of_declaredIn_util {record : Record} {file : String} (h : util.DeclaredIn record file) :
    file = "/p/lib/util.ts" := by
  obtain ⟨symbol, hsymbol, -, hfile⟩ := h
  have hall : ∀ symbol ∈ util.symbols, ∀ file ∈ symbol.declarations.map Declaration.file,
      file = "/p/lib/util.ts" := by decide
  exact hall symbol hsymbol file hfile

/-- The method of the class without a name is not exported under the module name. The function
    without a name is seen everywhere although the file does not export it. -/
theorem merge_util_not_under_module : ∃ table, util.merge = .ok table ∧
    (∃ record ∈ table.records, ∃ top ∈ table.chain record.id, util.InModuleFiles top ∧
      (Naming.mk "/p" id).identity? table record (table.visibility record.id) =
        some (.exported ":default.run") ∧ ¬util.ExportedUnder table ⟨"/p", id⟩ record top) ∧
    ∃ top ∈ table.records, top ∈ table.chain top.id ∧ util.InModuleFiles top ∧
      top.exported = false ∧ ¬util.ExportedUnder table ⟨"/p", id⟩ top top := by
  have hmerge : util.merge.toOption.any (fun table => (table.records.any fun record =>
      (table.chain record.id).any fun top => util.InModuleFiles top ∧
        (Naming.mk "/p" id).identity? table record (table.visibility record.id) =
          some (.exported ":default.run")) &&
      table.records.any fun top => top ∈ table.chain top.id ∧ util.InModuleFiles top ∧
        top.exported = false ∧ table.visibility top.id = .everywhere) = true := by
    decide +kernel
  simp only [Option.any_eq_true, toOption_eq_some_iff, Bool.and_eq_true, List.any_eq_true,
    decide_eq_true_eq] at hmerge
  obtain ⟨table, hmerge, ⟨record, hrecord, top, htop, hmodule, hidentity⟩,
    other, hother, hchain, hothers, hhidden, hvisible⟩ := hmerge
  refine ⟨table, hmerge, ⟨record, hrecord, top, htop, hmodule, hidentity, fun h => ?_⟩,
    other, hother, hchain, hothers, hhidden, fun h => ?_⟩
  · obtain ⟨file, segments, ⟨hfile, -⟩, -, hidentifier⟩ := h.prefixed _ _ hidentity rfl
    have hname : Path.moduleName "/p" file = "lib/util" := by
      rw [eq_of_declaredIn_util hfile]
      decide +kernel
    rw [hname] at hidentifier
    exact absurd (congrArg (·.toList.head?) hidentifier) (by simp [ExportPath.identifier,
      PathBase.text, Identity.exported])
  · rw [h.classified hvisible] at hhidden
    cases hhidden

end Program

end MonikerIndex
