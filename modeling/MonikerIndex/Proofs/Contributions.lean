import MonikerIndex.Proofs.Sites

/-!
# What symbols contribute to their record

A group is filled by one symbol after the other, in whatever order they are settled. All of it can
be told by the list of its symbols (`Group.Comprises`): its sites are theirs, one after the other,
it is exported if one of them is, and its export form is the first that one of them has. Starting a
group and taking in a symbol keep to this, so it holds of every group that a merge comes to
(`Group.Reached.exists_comprises`).

A record has the sites of its group in order, each place once. Sorting and dropping repeated places
lose no place (`Site.exists_place_arrange_iff`), and leave the places in strict order
(`Site.pairwise_arrange`).

Main statement: `merge_contributions`.
-/

namespace MonikerIndex

/-! ### Arranged sites -/

namespace Site

theorem exists_place_dedupAfter_iff {last : Site} {sites : List Site} {place : Place} :
    (last.place = place ∨ ∃ site ∈ dedupAfter last sites, site.place = place) ↔
      last.place = place ∨ ∃ site ∈ sites, site.place = place := by
  induction sites generalizing last with
  | nil => rfl
  | cons first sites ih =>
    simp only [dedupAfter, List.exists_mem_cons_iff]
    by_cases hsame : last.place = first.place
    · rw [if_pos hsame, ih, hsame]
      tauto
    · rw [if_neg hsame, List.exists_mem_cons_iff, ih]

theorem exists_place_dedup_iff {sites : List Site} {place : Place} :
    (∃ site ∈ dedup sites, site.place = place) ↔ ∃ site ∈ sites, site.place = place := by
  cases sites with
  | nil => rfl
  | cons first sites =>
    rw [dedup, List.exists_mem_cons_iff, List.exists_mem_cons_iff]
    exact exists_place_dedupAfter_iff

theorem exists_place_arrange_iff {sites : List Site} {place : Place} :
    (∃ site ∈ arrange sites, site.place = place) ↔ ∃ site ∈ sites, site.place = place := by
  rw [arrange, exists_place_dedup_iff]
  simp only [mem_sortBy]

/-- In sorted sites, those that are kept come after the last one and are in strict order. -/
theorem pairwise_dedupAfter {last : Site} {sites : List Site}
    (h : (last :: sites).Pairwise fun a b => (compareOn place a b).isLE) :
    (last :: dedupAfter last sites).Pairwise fun a b => compare a.place b.place = .lt := by
  induction sites generalizing last with
  | nil => exact List.pairwise_singleton _ _
  | cons first sites ih =>
    obtain ⟨hlast, hsites⟩ := List.pairwise_cons.mp h
    rw [dedupAfter]
    by_cases hsame : last.place = first.place
    · rw [if_pos hsame]
      apply ih
      refine List.pairwise_cons.mpr ⟨?_, (List.pairwise_cons.mp hsites).2⟩
      intro site hsite
      exact hlast site (List.mem_cons_of_mem _ hsite)
    · rw [if_neg hsame]
      have hrest := ih hsites
      have hlt : compare last.place first.place = .lt := by
        rcases Ordering.isLE_iff_eq_lt_or_eq_eq.mp (hlast first List.mem_cons_self) with h | h
        · exact h
        · exact absurd (Std.LawfulEqOrd.eq_of_compare h) hsame
      refine List.pairwise_cons.mpr ⟨?_, hrest⟩
      intro site hsite
      rcases List.mem_cons.mp hsite with rfl | hsite
      · exact hlt
      · exact Std.TransCmp.lt_trans hlt ((List.pairwise_cons.mp hrest).1 site hsite)

theorem pairwise_arrange (sites : List Site) :
    (arrange sites).Pairwise fun a b => compare a.place b.place = .lt := by
  have hsorted : (sortBy (compareOn place) sites).Pairwise fun a b => (compareOn place a b).isLE :=
    pairwise_sortBy sites
  unfold arrange
  cases hcases : sortBy (compareOn place) sites with
  | nil => exact List.Pairwise.nil
  | cons first rest =>
    rw [hcases] at hsorted
    exact pairwise_dedupAfter hsorted

theorem isLE_of_arrange_eq_cons {sites : List Site} {first : Site} {rest : List Site}
    (h : arrange sites = first :: rest) {site : Site} (hsite : site ∈ arrange sites) :
    (compare first.place site.place).isLE := by
  have hincreasing := pairwise_arrange sites
  rw [h] at hsite hincreasing
  rcases List.mem_cons.mp hsite with rfl | hsite
  · exact Std.ReflOrd.isLE_rfl
  · rw [(List.pairwise_cons.mp hincreasing).1 site hsite]
    rfl

end Site

/-! ### Groups by their symbols -/

namespace Group

variable {program : Program} {groups : List Group} {group : Group} {symbols : List Symbol}

/-- A group told by its symbols, in the order in which they came. -/
structure Comprises (group : Group) (symbols : List Symbol) : Prop where
  handles : group.handles = symbols.map Symbol.handle
  sites : group.sites =
    symbols.flatMap fun symbol => symbol.declarations.map (Site.ofDeclaration symbol)
  exported : group.exported = symbols.any Symbol.exported
  exportForm : group.exportForm = symbols.findSome? Symbol.exportForm

theorem comprises_ofSymbol (symbol : Symbol) (parent : Option Nat) (space : Space) :
    (ofSymbol symbol parent space).Comprises [symbol] where
  handles := rfl
  sites := by simp [ofSymbol]
  exported := by simp [ofSymbol]
  exportForm := by
    cases hform : symbol.exportForm with
    | none => simp [ofSymbol, hform]
    | some form => simp [ofSymbol, hform]

theorem Comprises.absorb (h : group.Comprises symbols) (symbol : Symbol) :
    (group.absorb symbol).Comprises (symbols ++ [symbol]) where
  handles := by simp [Group.absorb, h.handles]
  sites := by simp [Group.absorb, h.sites]
  exported := by simp [Group.absorb, h.exported]
  exportForm := by
    cases hform : symbol.exportForm with
    | none => simp [Group.absorb, h.exportForm, hform]
    | some form => simp [Group.absorb, h.exportForm, hform]

theorem Comprises.exists_declaration (h : group.Comprises symbols) {site : Site}
    (hsite : site ∈ group.sites) : ∃ symbol ∈ symbols, ∃ declaration ∈ symbol.declarations,
      site = Site.ofDeclaration symbol declaration := by
  rw [h.sites] at hsite
  obtain ⟨symbol, hsymbol, hsite⟩ := List.mem_flatMap.mp hsite
  obtain ⟨declaration, hdeclaration, rfl⟩ := List.mem_map.mp hsite
  exact ⟨symbol, hsymbol, declaration, hdeclaration, rfl⟩

theorem Comprises.exists_place_iff (h : group.Comprises symbols) {place : Place} :
    (∃ site ∈ group.sites, site.place = place) ↔
      ∃ symbol ∈ symbols, ∃ declaration ∈ symbol.declarations, declaration.place = place := by
  constructor
  · rintro ⟨site, hsite, rfl⟩
    obtain ⟨symbol, hsymbol, declaration, hdeclaration, rfl⟩ := h.exists_declaration hsite
    exact ⟨symbol, hsymbol, declaration, hdeclaration, rfl⟩
  · rintro ⟨symbol, hsymbol, declaration, hdeclaration, rfl⟩
    refine ⟨Site.ofDeclaration symbol declaration, ?_, rfl⟩
    rw [h.sites]
    exact List.mem_flatMap.mpr ⟨symbol, hsymbol, List.mem_map_of_mem hdeclaration⟩

theorem Comprises.exported_iff (h : group.Comprises symbols) :
    group.exported = true ↔
      ∃ symbol ∈ symbols, ∃ declaration ∈ symbol.declarations, declaration.exported = true := by
  rw [h.exported, List.any_eq_true]
  simp only [Symbol.exported, List.any_eq_true]

theorem Reached.exists_comprises (h : Reached program groups) : ∀ group ∈ groups,
    ∃ symbols, (∀ symbol ∈ symbols, symbol ∈ program.symbols) ∧ group.Comprises symbols := by
  induction h with
  | nil => simp
  | @step groups result symbol _ hsymbol hstep ih =>
    refine hstep.forall_mem ih ?_ ?_
    · intro group hgroup
      obtain ⟨symbols, hsymbols, hcomprises⟩ := ih group hgroup
      refine ⟨symbols ++ [symbol], ?_, hcomprises.absorb symbol⟩
      intro other hother
      rcases List.mem_append.mp hother with hother | hother
      · exact hsymbols other hother
      · rw [List.mem_singleton.mp hother]
        exact hsymbol
    · refine ⟨[symbol], ?_, comprises_ofSymbol symbol _ _⟩
      intro other hother
      rw [List.mem_singleton.mp hother]
      exact hsymbol

end Group

/-! ### Records by their symbols -/

namespace Program

variable {program : Program} {table : SymbolTable} {record : Record}

/-- Whether a reported symbol was merged into a record. -/
def MergedInto (program : Program) (symbol : Symbol) (record : Record) : Prop :=
  symbol ∈ program.symbols ∧ symbol.handle ∈ record.handles

/-- A record that has what the symbols merged into it were reported with. -/
structure Carries (program : Program) (record : Record) : Prop where
  nonempty : record.sites ≠ []
  increasing : record.sites.Pairwise fun a b => compare a.place b.place = .lt
  declared : ∀ site ∈ record.sites, ∃ symbol, program.MergedInto symbol record ∧
    ∃ declaration ∈ symbol.declarations, site = Site.ofDeclaration symbol declaration
  places : ∀ place, (∃ site ∈ record.sites, site.place = place) ↔
    ∃ symbol, program.MergedInto symbol record ∧
      ∃ declaration ∈ symbol.declarations, declaration.place = place
  first : ∃ site, record.canonical? = some site ∧ record.kind = site.kind ∧
    ∀ symbol, program.MergedInto symbol record → ∀ declaration ∈ symbol.declarations,
      (compare site.place declaration.place).isLE
  exported_iff : record.exported = true ↔ ∃ symbol, program.MergedInto symbol record ∧
    ∃ declaration ∈ symbol.declarations, declaration.exported = true
  form_isSome_iff : record.exportForm.isSome ↔
    ∃ symbol, program.MergedInto symbol record ∧ symbol.exportForm.isSome
  form_eq : ∀ form, record.exportForm = some form →
    ∃ symbol, program.MergedInto symbol record ∧ symbol.exportForm = some form

/-- The symbols that a group has gathered are those merged into its record. -/
theorem mem_gathered_iff (hconsistent : program.Consistent) {group : Group} {symbols : List Symbol}
    (hsymbols : ∀ symbol ∈ symbols, symbol ∈ program.symbols) (h : group.Comprises symbols)
    (hhandles : record.handles = group.handles) {symbol : Symbol} :
    symbol ∈ symbols ↔ program.MergedInto symbol record := by
  rw [MergedInto, hhandles, h.handles]
  constructor
  · intro hsymbol
    exact ⟨hsymbols symbol hsymbol, List.mem_map_of_mem hsymbol⟩
  · rintro ⟨hsymbol, hhandle⟩
    obtain ⟨other, hother, heq⟩ := List.mem_map.mp hhandle
    rwa [← List.inj_on_of_nodup_map hconsistent.handles_nodup (hsymbols other hother) hsymbol heq]

/-- Every record of a merged program has what the symbols merged into it were reported with. Its
    sites are at the places of their declarations, in strict order; the first of them precedes all
    declarations and gives the record its kind; the record is exported if one of the declarations
    is, and has an export form if one of the symbols has, which then is the form of one of them. -/
theorem merge_contributions (h : program.merge = .ok table) (hrecord : record ∈ table.records) :
    program.Carries record := by
  obtain ⟨hconsistent, groups, rfl, hreached, -⟩ := exists_groups_of_merge h
  obtain ⟨group, hgroup, id, children, rfl⟩ := SymbolTable.exists_group_of_mem hrecord
  obtain ⟨symbols, hsymbols, hcomprises⟩ := hreached.exists_comprises group hgroup
  have hmerged : ∀ symbol, symbol ∈ symbols ↔ program.MergedInto symbol
      { SymbolTable.recordOf id group with children := children } := fun symbol =>
    mem_gathered_iff hconsistent hsymbols hcomprises rfl
  have hplaces : ∀ place, (∃ site ∈ Site.arrange group.sites, site.place = place) ↔
      ∃ symbol ∈ symbols, ∃ declaration ∈ symbol.declarations, declaration.place = place :=
    fun place => Site.exists_place_arrange_iff.trans hcomprises.exists_place_iff
  obtain ⟨first, rest, hsites⟩ := List.exists_cons_of_ne_nil
    (Site.arrange_ne_nil (hreached.sited hconsistent group hgroup).nonempty)
  refine ⟨?_, Site.pairwise_arrange group.sites, ?_, ?_, ⟨first, ?_, ?_, ?_⟩, ?_, ?_, ?_⟩
  · simp [SymbolTable.recordOf, hsites]
  · intro site hsite
    simp only [← hmerged]
    exact hcomprises.exists_declaration (Site.mem_of_mem_arrange hsite)
  · simp only [← hmerged]
    exact hplaces
  · simp [Record.canonical?, SymbolTable.recordOf, hsites]
  · simp [SymbolTable.recordOf, hsites]
  · intro symbol hsymbol declaration hdeclaration
    obtain ⟨site, hsite, hplace⟩ := (hplaces declaration.place).mpr
      ⟨symbol, (hmerged symbol).mpr hsymbol, declaration, hdeclaration, rfl⟩
    rw [← hplace]
    exact Site.isLE_of_arrange_eq_cons hsites hsite
  · simp only [← hmerged]
    exact hcomprises.exported_iff
  · simp only [← hmerged]
    change group.exportForm.isSome ↔ _
    rw [hcomprises.exportForm, List.findSome?_isSome_iff]
  · intro form hform
    have hfound : symbols.findSome? Symbol.exportForm = some form :=
      hcomprises.exportForm.symm.trans hform
    obtain ⟨symbol, hsymbol, heq⟩ := List.exists_of_findSome?_eq_some hfound
    exact ⟨symbol, (hmerged symbol).mp hsymbol, heq⟩

/-- A namespace, and an interface of the same name that is reported at the place of the namespace
    once more, as its default export, and at a place of its own in another file. -/
def reopened : Program where
  root := "/p"
  documents := [.script "/p/b.d.ts", .script "/p/a.d.ts"]
  symbols := [
    { handle := 2, name := some "Box", kind := .interface, exportForm := some .defaultExport
      declarations := [{ file := "/p/b.d.ts", span := .onLine 3 10 13 },
        { file := "/p/a.d.ts", span := .onLine 0 10 13, exported := true }] },
    { handle := 1, name := some "Box", kind := .namespaceBlock
      declarations := [{ file := "/p/a.d.ts", span := .onLine 0 10 13 }] }]

/-- The record is exported, though the declaration that exports it was dropped as a double. -/
theorem merge_contributions_reopened : ∃ table record, reopened.merge = .ok table ∧
    record ∈ table.records ∧ record.kind = .namespaceBlock ∧
      record.sites.map Site.place =
        [⟨"/p/a.d.ts", .onLine 0 10 13⟩, ⟨"/p/b.d.ts", .onLine 3 10 13⟩] ∧
      record.sites.map Site.exported = [false, false] ∧ record.exported = true ∧
      reopened.Carries record := by
  have hmerge : reopened.merge.toOption.any (fun table => table.records.any fun record =>
      record.kind = .namespaceBlock ∧ record.sites.map Site.place =
        [⟨"/p/a.d.ts", .onLine 0 10 13⟩, ⟨"/p/b.d.ts", .onLine 3 10 13⟩] ∧
      record.sites.map Site.exported = [false, false] ∧ record.exported = true) = true := by
    decide +kernel
  simp only [Option.any_eq_true, toOption_eq_some_iff, List.any_eq_true,
    decide_eq_true_eq] at hmerge
  obtain ⟨table, hmerge, record, hrecord, hkind, hplaces, hhidden, hexported⟩ := hmerge
  exact ⟨table, record, hmerge, hrecord, hkind, hplaces, hhidden, hexported,
    merge_contributions hmerge hrecord⟩

end Program

end MonikerIndex
