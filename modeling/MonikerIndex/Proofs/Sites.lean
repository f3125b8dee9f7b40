import MonikerIndex.Proofs.Alias.Publication
import MonikerIndex.Proofs.Merging
import MonikerIndex.Proofs.Retelling.Merge

/-!
# Where records are declared

Every group that a merge comes to was reached by settling reported symbols one after the other
(`Reached`). A group starts with the declarations of a symbol and takes in more, so it is declared
somewhere, and only where symbols are. For the records of a merged table this says that each has a
site, that all sites are in documents, and that its space is one of the program (`merge_grounded`).
-/

namespace MonikerIndex

/-! ### Groups -/

namespace Group

variable {program : Program} {groups : List Group}

/-- The lists of groups that come about when reported symbols are settled. -/
inductive Reached (program : Program) : List Group → Prop where
  | nil : Reached program []
  | step {groups result : List Group} {symbol : Symbol} (h : Reached program groups)
      (hsymbol : symbol ∈ program.symbols) (hstep : Settling program groups symbol result) :
      Reached program result

theorem Reached.foldl_settle (h : Reached program groups) {symbols : List Symbol}
    (hsymbols : ∀ symbol ∈ symbols, symbol ∈ program.symbols) :
    Reached program (symbols.foldl (settle program) groups) := by
  induction symbols generalizing groups with
  | nil => exact h
  | cons symbol symbols ih =>
    obtain ⟨hsymbol, hrest⟩ := List.forall_mem_cons.mp hsymbols
    exact ih (h.step hsymbol (settle_settling program groups symbol)) hrest

/-- A group that is declared somewhere, and only where reported symbols are. -/
structure Sited (program : Program) (group : Group) : Prop where
  nonempty : group.sites ≠ []
  declared : ∀ site ∈ group.sites, ∃ symbol ∈ program.symbols,
    ∃ declaration ∈ symbol.declarations, site = Site.ofDeclaration symbol declaration

theorem declared_of_mem_sites {symbol : Symbol} (hsymbol : symbol ∈ program.symbols) {site : Site}
    (hsite : site ∈ symbol.declarations.map (Site.ofDeclaration symbol)) :
    ∃ symbol ∈ program.symbols, ∃ declaration ∈ symbol.declarations,
      site = Site.ofDeclaration symbol declaration := by
  obtain ⟨declaration, hdeclaration, rfl⟩ := List.mem_map.mp hsite
  exact ⟨symbol, hsymbol, declaration, hdeclaration, rfl⟩

theorem Settling.sited {symbol : Symbol} {result : List Group} (hconsistent : program.Consistent)
    (hsymbol : symbol ∈ program.symbols) (hstep : Settling program groups symbol result)
    (h : ∀ group ∈ groups, group.Sited program) : ∀ group ∈ result, group.Sited program := by
  refine hstep.forall_mem h ?_ ?_
  · intro group hgroup
    obtain ⟨hnonempty, hdeclared⟩ := h group hgroup
    refine ⟨List.append_ne_nil_of_left_ne_nil hnonempty _, ?_⟩
    intro site hsite
    rcases List.mem_append.mp hsite with hsite | hsite
    · exact hdeclared site hsite
    · exact declared_of_mem_sites hsymbol hsite
  · refine ⟨by simpa [ofSymbol] using hconsistent.declared symbol hsymbol, ?_⟩
    intro site hsite
    exact declared_of_mem_sites hsymbol hsite

theorem Reached.sited (hconsistent : program.Consistent) (h : Reached program groups) :
    ∀ group ∈ groups, group.Sited program := by
  induction h with
  | nil => simp
  | step _ hsymbol hstep ih => exact hstep.sited hconsistent hsymbol ih

/-- A group whose scope is that of one of its symbols. -/
def Founded (program : Program) (group : Group) : Prop :=
  ∃ symbol ∈ program.symbols, symbol.handle ∈ group.handles ∧ group.scope = symbol.scope

theorem Settling.founded {symbol : Symbol} {result : List Group}
    (hsymbol : symbol ∈ program.symbols) (hstep : Settling program groups symbol result)
    (h : ∀ group ∈ groups, group.Founded program) : ∀ group ∈ result, group.Founded program := by
  refine hstep.forall_mem h ?_ ?_
  · intro group hgroup
    obtain ⟨founder, hfounder, hhandle, hscope⟩ := h group hgroup
    exact ⟨founder, hfounder, List.mem_append_left _ hhandle, hscope⟩
  · exact ⟨symbol, hsymbol, List.mem_singleton.mpr rfl, rfl⟩

theorem Reached.founded (h : Reached program groups) : ∀ group ∈ groups, group.Founded program := by
  induction h with
  | nil => simp
  | step _ hsymbol hstep ih => exact hstep.founded hsymbol ih

end Group

/-! ### Records -/

theorem Site.arrange_ne_nil {sites : List Site} (h : sites ≠ []) : arrange sites ≠ [] := by
  have hsorted : sortBy (compareOn place) sites ≠ [] := by
    intro hnil
    have hperm := sortBy_perm (compareOn place) sites
    rw [hnil] at hperm
    exact h hperm.nil_eq.symm
  unfold arrange
  cases hcases : sortBy (compareOn place) sites with
  | nil => exact absurd hcases hsorted
  | cons first rest => simp [dedup]

/-- A record of a table of groups is one of the groups, but for its members. -/
theorem SymbolTable.exists_group_of_mem {groups : List Group} {record : Record}
    (h : record ∈ (ofGroups groups).records) : ∃ group ∈ groups, ∃ id children,
      record = { recordOf id group with children := children } := by
  obtain ⟨id, hid⟩ := List.mem_iff_getElem?.mp h
  have hgroup := record?_ofGroups groups id
  rw [record?, hid] at hgroup
  obtain ⟨group, hget, rfl⟩ := Option.map_eq_some_iff.mp hgroup.symm
  exact ⟨group, List.mem_of_getElem? hget, id, _, rfl⟩

namespace Program

variable {program : Program} {table : SymbolTable}

theorem Lineage.subset {symbol : Symbol} {symbols : List Symbol}
    (h : program.Lineage symbol symbols) (hsymbol : symbol ∈ program.symbols) :
    ∀ other ∈ symbols, other ∈ program.symbols := by
  induction h with
  | top hparent =>
    intro other hother
    rw [List.mem_singleton.mp hother]
    exact hsymbol
  | inner hparent houter hrest ih =>
    intro other hother
    rcases List.mem_cons.mp hother with rfl | hother
    · exact hsymbol
    · exact ih (mem_of_symbol? houter).1 other hother

/-- Lineages of reported symbols consist of reported symbols. -/
theorem mem_symbols_of_mem_lineages {symbols : List Symbol} {lineages : List (List Symbol)}
    (hsymbols : ∀ symbol ∈ symbols, symbol ∈ program.symbols)
    (h : symbols.mapM program.lineage = .ok lineages) :
    ∀ symbol ∈ lineages.flatten, symbol ∈ program.symbols := by
  intro symbol hsymbol
  obtain ⟨lineage, hlineage, hsymbol⟩ := List.mem_flatten.mp hsymbol
  obtain ⟨inner, hinner, hok⟩ := exists_mem_left_of_forall₂ (mapM_eq_ok_iff.mp h) hlineage
  exact (lineage_eq_ok hok).subset (hsymbols inner hinner) symbol (List.mem_reverse.mpr hsymbol)

/-- The groups behind a merged table: they were reached by settling symbols, and are settled. -/
theorem exists_groups_of_merge (h : program.merge = .ok table) :
    program.Consistent ∧ ∃ groups, table = SymbolTable.ofGroups groups ∧
      Group.Reached program groups ∧ Group.Settled program groups := by
  obtain ⟨hconsistent, lineages, hlineages, rfl⟩ := merge_eq_ok_iff.mp h
  have hsorted : ∀ symbol ∈ program.sortedSymbols, symbol ∈ program.symbols :=
    fun symbol => mem_sortBy.mp
  exact ⟨hconsistent, _, rfl,
    Group.Reached.nil.foldl_settle (mem_symbols_of_mem_lineages hsorted hlineages),
    ((Group.Settled.nil program).run hconsistent hsorted (mapM_eq_ok_iff.mp hlineages)).1⟩

/-- The space of a reported symbol is told by its handle or by one of its files. -/
theorem known_spaceOf (hconsistent : program.Consistent) {symbol : Symbol}
    (hsymbol : symbol ∈ program.symbols) (parent : Option Nat) :
    (program.spaceOf symbol parent).Known program := by
  rcases program.spaceOf_cases symbol parent with
    ⟨-, halone⟩ | ⟨-, ⟨id, -, hid⟩ | ⟨rfl, hglobal | ⟨file, hfile⟩⟩⟩
  · rw [halone]
    exact handle_mem_handles hsymbol
  · rw [hid]
    trivial
  · rw [hglobal]
    trivial
  · have hleast := isLeastFile_of_spaceOf (hconsistent.declared symbol hsymbol) hfile
    obtain ⟨declaration, hdeclaration, heq⟩ := List.mem_map.mp hleast.1
    rw [hfile]
    exact heq ▸ file_mem_files hsymbol hdeclaration

/-- Every site in a merged table is at a place of the program. -/
theorem place_mem_places_of_merge (h : program.merge = .ok table) {record : Record}
    (hrecord : record ∈ table.records) {site : Site} (hsite : site ∈ record.sites) :
    site.place ∈ program.places := by
  obtain ⟨hconsistent, groups, rfl, hreached, -⟩ := exists_groups_of_merge h
  obtain ⟨group, hgroup, id, children, rfl⟩ := SymbolTable.exists_group_of_mem hrecord
  obtain ⟨symbol, hsymbol, declaration, hdeclaration, rfl⟩ :=
    (hreached.sited hconsistent group hgroup).declared site (Site.mem_of_mem_arrange hsite)
  exact place_mem_places hsymbol hdeclaration

/-- A table whose records know their places and are declared in documents, in spaces that the
    program has. -/
structure Grounded (program : Program) (table : SymbolTable) : Prop where
  id_eq : ∀ id record, table.record? id = some record → record.id = id
  sited : ∀ record ∈ table.records, record.sites ≠ []
  inDocuments : ∀ record ∈ table.records, ∀ site ∈ record.sites,
    program.hasDocument site.file = true
  known : ∀ record ∈ table.records, record.space.Known program

theorem Grounded.record?_id (h : program.Grounded table) {record : Record}
    (hrecord : record ∈ table.records) : table.record? record.id = some record := by
  obtain ⟨id, hid⟩ := List.mem_iff_getElem?.mp hrecord
  rw [h.id_eq id record hid]
  exact hid

theorem Grounded.id_lt (h : program.Grounded table) {record : Record}
    (hrecord : record ∈ table.records) : record.id < table.records.length :=
  (List.getElem?_eq_some_iff.mp (h.record?_id hrecord)).1

theorem merge_grounded (h : program.merge = .ok table) : program.Grounded table := by
  obtain ⟨hconsistent, groups, rfl, hreached, hsettled⟩ := exists_groups_of_merge h
  have hsited := hreached.sited hconsistent
  refine ⟨fun _ _ hrecord => SymbolTable.id_of_record?_ofGroups hrecord, ?_, ?_, ?_⟩
  · intro record hrecord
    obtain ⟨group, hgroup, id, children, rfl⟩ := SymbolTable.exists_group_of_mem hrecord
    exact Site.arrange_ne_nil (hsited group hgroup).nonempty
  · intro record hrecord site hsite
    obtain ⟨group, hgroup, id, children, rfl⟩ := SymbolTable.exists_group_of_mem hrecord
    obtain ⟨symbol, hsymbol, declaration, hdeclaration, rfl⟩ :=
      (hsited group hgroup).declared site (Site.mem_of_mem_arrange hsite)
    exact hconsistent.inDocuments symbol hsymbol declaration hdeclaration
  · intro record hrecord
    obtain ⟨group, hgroup, id, children, rfl⟩ := SymbolTable.exists_group_of_mem hrecord
    obtain ⟨founder, hfounder, hhandle, -⟩ := hreached.founded group hgroup
    have hknown := known_spaceOf hconsistent hfounder group.parent
    rw [← (hsettled.holds group hgroup founder hfounder hhandle).space] at hknown
    exact hknown

end Program

end MonikerIndex
