import MonikerIndex.Proofs.Settling

/-!
# What merging computes

A merge that succeeds puts every reported symbol into exactly one record. Which symbols share a
record is told without the run: they are named alike, none of them is confined to a body, and they
are members of one record or are declared in one space at the top level
(`merge_identifies_declared_symbols`).

The proof reads the invariant of a whole run, `Group.Settled`, off the table that the groups become.
-/

namespace MonikerIndex

/-! ### Tables of groups -/

namespace SymbolTable

theorem record?_ofGroups (groups : List Group) (id : Nat) :
    (ofGroups groups).record? id = groups[id]?.map fun group =>
      { recordOf id group with children := childrenOf (groups.mapIdx recordOf) id } := by
  simp only [record?, ofGroups, List.getElem?_map, List.getElem?_mapIdx, Option.map_map]
  rfl

theorem map_handles_ofGroups (groups : List Group) :
    (ofGroups groups).records.map Record.handles = groups.map Group.handles := by
  refine List.ext_getElem? fun id => ?_
  have h := record?_ofGroups groups id
  simp only [record?] at h
  simp only [List.getElem?_map, h, Option.map_map]
  rfl

/-- A handle resolves to the place of its group. -/
theorem resolve_ofGroups (groups : List Group) (handle : Handle) :
    (ofGroups groups).resolve handle = Group.find? groups handle := by
  have h : ∀ {α : Type} (handles : α → List Handle) (xs : List α),
      xs.findIdx? (fun x => (handles x).contains handle) =
        (xs.map handles).findIdx? (·.contains handle) := by
    intro α handles xs
    rw [List.findIdx?_map]
    rfl
  rw [resolve, Group.find?, h Record.handles, h Group.handles, map_handles_ofGroups]

theorem flatMap_handles_ofGroups (groups : List Group) :
    (ofGroups groups).records.flatMap Record.handles = groups.flatMap Group.handles := by
  rw [List.flatMap_def, List.flatMap_def, map_handles_ofGroups]

end SymbolTable

/-! ### The groups of a program -/

namespace Program

variable {program : Program} {table : SymbolTable}

/-- The groups behind a merged table: they are settled, and every symbol is in one of them. -/
theorem exists_settled_of_merge (h : program.merge = .ok table) :
    program.Consistent ∧ ∃ groups, table = SymbolTable.ofGroups groups ∧
      Group.Settled program groups ∧
      ∀ symbol ∈ program.symbols, (Group.find? groups symbol.handle).isSome := by
  obtain ⟨hconsistent, lineages, hlineages, rfl⟩ := merge_eq_ok_iff.mp h
  have hsorted : ∀ symbol, symbol ∈ program.sortedSymbols ↔ symbol ∈ program.symbols :=
    fun symbol => mem_sortBy
  obtain ⟨hsettled, hfound⟩ := (Group.Settled.nil program).run hconsistent
    (fun symbol hmem => (hsorted symbol).mp hmem) (mapM_eq_ok_iff.mp hlineages)
  refine ⟨hconsistent, _, rfl, hsettled, fun symbol hmem => ?_⟩
  exact hfound symbol ((hsorted symbol).mpr hmem)

/-! ### Spaces at the top level -/

/-- A file that declares the symbol and comes before all others that do. -/
def IsLeastFile (symbol : Symbol) (file : String) : Prop :=
  file ∈ symbol.declarations.map Declaration.file ∧
    ∀ other ∈ symbol.declarations.map Declaration.file, file ≤ other

/-- The space in which a symbol without a parent is declared: the global scope, or the top level of
    the least file that declares it. -/
inductive TopSpace (program : Program) (symbol : Symbol) : Space → Prop where
  | global (h : symbol.kind = .moduleBlock ∨ symbol.scope = .global ∨
      ∃ file, IsLeastFile symbol file ∧ program.isModuleFile file = false) :
      TopSpace program symbol .global
  | moduleFile {file : String} (hkind : symbol.kind ≠ .moduleBlock)
      (hscope : symbol.scope ≠ .global) (hleast : IsLeastFile symbol file)
      (h : program.isModuleFile file = true) : TopSpace program symbol (.moduleFile file)

theorem IsLeastFile.eq {symbol : Symbol} {file other : String} (h : IsLeastFile symbol file)
    (hother : IsLeastFile symbol other) : file = other :=
  le_antisymm (h.2 other hother.1) (hother.2 file h.1)

theorem topSpace_iff {symbol : Symbol} {space : Space} (hdeclared : symbol.declarations ≠ [])
    (hscope : symbol.scope ≠ .confined) (hname : symbol.name.isSome) :
    program.TopSpace symbol space ↔ program.spaceOf symbol none = space := by
  have hleast : IsLeastFile symbol (leastFile symbol) := leastFile_spec hdeclared
  have hfree : ¬(symbol.scope = .confined ∨ symbol.name.isNone) := by
    rintro (h | h)
    · exact hscope h
    · rw [Option.isNone_iff_eq_none.mp h] at hname
      cases hname
  simp only [spaceOf, if_neg hfree]
  constructor
  · intro h
    cases h with
    | global h =>
      by_cases hglobal : symbol.kind = .moduleBlock ∨ symbol.scope = .global
      · rw [if_pos hglobal]
      · rw [if_neg hglobal]
        rcases h with h | h | ⟨file, hfile, h⟩
        · exact absurd (Or.inl h) hglobal
        · exact absurd (Or.inr h) hglobal
        · rw [hleast.eq hfile, h]
          rfl
    | moduleFile hkind hscope' hfile h =>
      have hglobal : ¬(symbol.kind = .moduleBlock ∨ symbol.scope = .global) :=
        not_or.mpr ⟨hkind, hscope'⟩
      rw [if_neg hglobal, hleast.eq hfile, if_pos h]
  · rintro rfl
    split
    · rename_i hglobal
      exact .global (hglobal.elim Or.inl fun h => Or.inr (Or.inl h))
    · rename_i hglobal
      obtain ⟨hkind, hscope'⟩ := not_or.mp hglobal
      split
      · rename_i hmodule
        exact .moduleFile hkind hscope' hleast hmodule
      · rename_i hmodule
        exact .global (Or.inr (Or.inr ⟨_, hleast, by simpa using hmodule⟩))

theorem isLeastFile_of_spaceOf {symbol : Symbol} (hdeclared : symbol.declarations ≠ [])
    {file : String} (h : program.spaceOf symbol none = .moduleFile file) :
    IsLeastFile symbol file := by
  rcases program.spaceOf_cases symbol none with ⟨-, halone⟩ | ⟨⟨hscope, hname⟩, -⟩
  · rw [halone] at h
    cases h
  · cases (topSpace_iff hdeclared hscope hname).mpr h with
    | moduleFile _ _ hleast _ => exact hleast

/-! ### Shared records -/

/-- Two symbols that are declared as one: both named, neither confined to a body, with one name,
    and either members of one record or without parents in one space. -/
structure DeclaredAsOne (program : Program) (table : SymbolTable) (first second : Symbol) :
    Prop where
  named : first.name.isSome ∧ second.name.isSome
  free : first.scope ≠ .confined ∧ second.scope ≠ .confined
  name : first.name = second.name
  place :
    (∃ parent parent' id, first.parent = some parent ∧ second.parent = some parent' ∧
      table.resolve parent = some id ∧ table.resolve parent' = some id) ∨
    (first.parent = none ∧ second.parent = none ∧
      ∃ space, program.TopSpace first space ∧ program.TopSpace second space)

/-- The group in which a settled symbol is found holds it. -/
theorem exists_holds_of_find? {groups : List Group} (hsettled : Group.Settled program groups)
    {symbol : Symbol} (hsymbol : symbol ∈ program.symbols) {id : Nat}
    (h : Group.find? groups symbol.handle = some id) :
    ∃ group, groups[id]? = some group ∧ Group.Holds program groups group symbol := by
  obtain ⟨group, hgroup, hmem⟩ := Group.mem_handles_of_find? h
  exact ⟨group, hgroup, hsettled.holds group (List.mem_of_getElem? hgroup) symbol hsymbol hmem⟩

/-- Where a group holds two symbols, neither has a space of its own. -/
theorem free_of_spaceOf_eq {first second : Symbol} {parent : Option Nat}
    (hne : first.handle ≠ second.handle)
    (h : program.spaceOf first parent = program.spaceOf second parent) :
    first.scope ≠ .confined ∧ first.name.isSome := by
  rcases program.spaceOf_cases first parent with ⟨-, halone⟩ | ⟨hfree, -⟩
  · rcases program.spaceOf_cases second parent with
      ⟨-, halone'⟩ | ⟨-, ⟨id, -, hid⟩ | ⟨-, hglobal | ⟨file, hfile⟩⟩⟩
    · rw [halone, halone'] at h
      exact absurd (Space.alone.inj h) hne
    · rw [halone, hid] at h
      cases h
    · rw [halone, hglobal] at h
      cases h
    · rw [halone, hfile] at h
      cases h
  · exact hfree

theorem declaredAsOne_of_holds {groups : List Group} {group : Group} {first second : Symbol}
    (hconsistent : program.Consistent) (hfirst : first ∈ program.symbols)
    (hsecond : second ∈ program.symbols) (hne : first.handle ≠ second.handle)
    (h : Group.Holds program groups group first) (h' : Group.Holds program groups group second) :
    DeclaredAsOne program (SymbolTable.ofGroups groups) first second := by
  have hspace : program.spaceOf first group.parent = program.spaceOf second group.parent :=
    h.space.symm.trans h'.space
  obtain ⟨hfree, hnamed⟩ := free_of_spaceOf_eq hne hspace
  obtain ⟨hfree', hnamed'⟩ := free_of_spaceOf_eq hne.symm hspace.symm
  refine ⟨⟨hnamed, hnamed'⟩, ⟨hfree, hfree'⟩, h.name.symm.trans h'.name, ?_⟩
  have hparent := h.parent
  have hparent' := h'.parent
  unfold Group.parentIn at hparent hparent'
  cases hid : group.parent with
  | some id =>
    rw [hid] at hparent hparent'
    obtain ⟨parent, hp, hfound⟩ := Option.bind_eq_some_iff.mp hparent.symm
    obtain ⟨parent', hp', hfound'⟩ := Option.bind_eq_some_iff.mp hparent'.symm
    refine Or.inl ⟨parent, parent', id, hp, hp', ?_, ?_⟩
    · rw [SymbolTable.resolve_ofGroups, hfound]
    · rw [SymbolTable.resolve_ofGroups, hfound']
  | none =>
    have htop : ∀ {symbol : Symbol}, Group.Holds program groups group symbol →
        symbol.parent = none := by
      intro symbol hsymbol
      by_contra hsome
      have := hsymbol.parent_isSome (Option.isSome_iff_ne_none.mpr hsome)
      rw [hid] at this
      cases this
    rw [hid] at hspace
    refine Or.inr ⟨htop h, htop h', program.spaceOf first none, ?_, ?_⟩
    · exact (topSpace_iff (hconsistent.declared first hfirst) hfree hnamed).mpr rfl
    · exact (topSpace_iff (hconsistent.declared second hsecond) hfree' hnamed').mpr hspace.symm

/-- Symbols declared as one have the same space. -/
theorem spaceOf_eq_of_declaredAsOne {groups : List Group} {first second : Symbol}
    (hconsistent : program.Consistent) (hfirst : first ∈ program.symbols)
    (hsecond : second ∈ program.symbols)
    (h : DeclaredAsOne program (SymbolTable.ofGroups groups) first second) :
    program.spaceOf first (Group.parentIn groups first) =
      program.spaceOf second (Group.parentIn groups second) := by
  obtain ⟨⟨hnamed, hnamed'⟩, ⟨hfree, hfree'⟩, -, hplace⟩ := h
  rcases hplace with ⟨parent, parent', id, hp, hp', hid, hid'⟩ | ⟨hp, hp', space, hspace, hspace'⟩
  · rw [SymbolTable.resolve_ofGroups] at hid hid'
    simp only [Group.parentIn, hp, hp', Option.bind_some, hid, hid']
    have hcontainer : ∀ {symbol : Symbol}, symbol.scope ≠ .confined → symbol.name.isSome →
        program.spaceOf symbol (some id) = .container id := by
      intro symbol hscope hname
      rcases program.spaceOf_cases symbol (some id) with
        ⟨halone, -⟩ | ⟨-, ⟨_, hsome, h⟩ | ⟨hnone, -⟩⟩
      · rcases halone with h | h
        · exact absurd h hscope
        · rw [h] at hname
          cases hname
      · rw [h, Option.some.inj hsome]
      · cases hnone
    rw [hcontainer hfree hnamed, hcontainer hfree' hnamed']
  · simp only [Group.parentIn, hp, hp', Option.bind_none]
    rw [(topSpace_iff (hconsistent.declared first hfirst) hfree hnamed).mp hspace,
      (topSpace_iff (hconsistent.declared second hsecond) hfree' hnamed').mp hspace']

/-- Groups with the space and the name of a symbol are one group. -/
theorem find?_eq_of_spaceOf_eq {groups : List Group} (hsettled : Group.Settled program groups)
    {first second : Symbol} (hfirst : first ∈ program.symbols) (hsecond : second ∈ program.symbols)
    {id id' : Nat} (hid : Group.find? groups first.handle = some id)
    (hid' : Group.find? groups second.handle = some id') (hname : first.name = second.name)
    (hspace : program.spaceOf first (Group.parentIn groups first) =
      program.spaceOf second (Group.parentIn groups second)) : id = id' := by
  obtain ⟨group, hgroup, h⟩ := exists_holds_of_find? hsettled hfirst hid
  obtain ⟨group', hgroup', h'⟩ := exists_holds_of_find? hsettled hsecond hid'
  have hkey : (group.space, group.name) = (group'.space, group'.name) := by
    rw [h.space, h.parent, hspace, ← h'.parent, ← h'.space, h.name, hname, ← h'.name]
  have hlt : id < (groups.map fun group => (group.space, group.name)).length := by
    rw [List.length_map]
    exact (List.getElem?_eq_some_iff.mp hgroup).1
  refine (List.getElem?_inj hlt hsettled.keys_nodup).mp ?_
  rw [List.getElem?_map, List.getElem?_map, hgroup, hgroup', Option.map_some, Option.map_some, hkey]

/-- Two symbols are in one group exactly if they are declared as one. -/
theorem exists_find?_iff_declaredAsOne {groups : List Group} (hconsistent : program.Consistent)
    (hsettled : Group.Settled program groups)
    (hfound : ∀ symbol ∈ program.symbols, (Group.find? groups symbol.handle).isSome)
    {first second : Symbol} (hfirst : first ∈ program.symbols) (hsecond : second ∈ program.symbols)
    (hne : first ≠ second) :
    (∃ id, Group.find? groups first.handle = some id ∧
        Group.find? groups second.handle = some id) ↔
      DeclaredAsOne program (SymbolTable.ofGroups groups) first second := by
  constructor
  · rintro ⟨id, hid, hid'⟩
    obtain ⟨group, hgroup, hholds⟩ := exists_holds_of_find? hsettled hfirst hid
    obtain ⟨group', hgroup', hholds'⟩ := exists_holds_of_find? hsettled hsecond hid'
    rw [hgroup] at hgroup'
    cases hgroup'
    have hhandle : first.handle ≠ second.handle := fun heq =>
      hne (List.inj_on_of_nodup_map hconsistent.handles_nodup hfirst hsecond heq)
    exact declaredAsOne_of_holds hconsistent hfirst hsecond hhandle hholds hholds'
  · intro hone
    obtain ⟨id, hid⟩ := Option.isSome_iff_exists.mp (hfound first hfirst)
    obtain ⟨id', hid'⟩ := Option.isSome_iff_exists.mp (hfound second hsecond)
    have heq : id = id' := find?_eq_of_spaceOf_eq hsettled hfirst hsecond hid hid' hone.name
      (spaceOf_eq_of_declaredAsOne hconsistent hfirst hsecond hone)
    exact ⟨id, hid, heq ▸ hid'⟩

/-! ### Handles and parents -/

/-- The groups share out the reported handles. -/
theorem handles_perm_of_settled {groups : List Group} (hconsistent : program.Consistent)
    (hsettled : Group.Settled program groups)
    (hfound : ∀ symbol ∈ program.symbols, (Group.find? groups symbol.handle).isSome) :
    (groups.flatMap Group.handles).Perm (program.symbols.map Symbol.handle) := by
  refine (List.perm_ext_iff_of_nodup hsettled.handles_nodup hconsistent.handles_nodup).mpr ?_
  intro handle
  constructor
  · intro hmem
    obtain ⟨group, hgroup, hhandle⟩ := List.mem_flatMap.mp hmem
    exact hsettled.reported group hgroup handle hhandle
  · intro hmem
    obtain ⟨symbol, hsymbol, rfl⟩ := List.mem_map.mp hmem
    exact List.mem_flatMap.mpr (Group.isSome_find?_iff.mp (hfound symbol hsymbol))

theorem find?_eq_none_of_unreported {groups : List Group}
    (hsettled : Group.Settled program groups) {handle : Handle}
    (h : handle ∉ program.symbols.map Symbol.handle) : Group.find? groups handle = none := by
  rw [Group.find?_eq_none_iff]
  intro group hgroup hmem
  exact h (hsettled.reported group hgroup handle hmem)

/-- The parent of a group is the group of its symbol's parent. -/
theorem parent_cases_of_holds {groups : List Group} {group : Group} {symbol : Symbol}
    (h : Group.Holds program groups group symbol) :
    (symbol.parent = none ∧ group.parent = none) ∨
      ∃ parent id, symbol.parent = some parent ∧ Group.find? groups parent = some id ∧
        group.parent = some id := by
  have hparent := h.parent
  unfold Group.parentIn at hparent
  cases hp : symbol.parent with
  | none =>
    rw [hp] at hparent
    exact Or.inl ⟨rfl, hparent⟩
  | some parent =>
    rw [hp] at hparent
    obtain ⟨id, hid⟩ := Option.isSome_iff_exists.mp (h.parent_isSome (by rw [hp]; rfl))
    exact Or.inr ⟨parent, id, rfl, hparent.symm.trans hid, hid⟩

/-- Merging computes the declared equivalence. Each reported handle is in one record, once, and
    resolves to it; no other handle resolves. Two symbols are in one record exactly if they are
    declared as one. The parent of a record is the record of the parent of each of its symbols. -/
theorem merge_identifies_declared_symbols (h : program.merge = .ok table) :
    ((program.symbols.map Symbol.handle).Nodup ∧
      (table.records.flatMap Record.handles).Perm (program.symbols.map Symbol.handle) ∧
      (∀ id record, table.record? id = some record → ∀ handle ∈ record.handles,
        table.resolve handle = some id) ∧
      ∀ handle, handle ∉ program.symbols.map Symbol.handle → table.resolve handle = none) ∧
    (∀ first ∈ program.symbols, ∀ second ∈ program.symbols, first ≠ second →
      ((∃ id, table.resolve first.handle = some id ∧ table.resolve second.handle = some id) ↔
        DeclaredAsOne program table first second)) ∧
    ∀ id record, table.record? id = some record → ∀ symbol ∈ program.symbols,
      symbol.handle ∈ record.handles →
        (symbol.parent = none ∧ record.parent = none) ∨
          ∃ parent id', symbol.parent = some parent ∧ table.resolve parent = some id' ∧
            record.parent = some id' := by
  obtain ⟨hconsistent, groups, rfl, hsettled, hfound⟩ := exists_settled_of_merge h
  have hrecord : ∀ {id : Nat} {record : Record},
      (SymbolTable.ofGroups groups).record? id = some record → ∃ group, groups[id]? = some group ∧
        record.handles = group.handles ∧ record.parent = group.parent := by
    intro id record hrecord
    rw [SymbolTable.record?_ofGroups] at hrecord
    obtain ⟨group, hgroup, rfl⟩ := Option.map_eq_some_iff.mp hrecord
    exact ⟨group, hgroup, rfl, rfl⟩
  simp only [SymbolTable.resolve_ofGroups, SymbolTable.flatMap_handles_ofGroups]
  refine ⟨⟨hconsistent.handles_nodup, handles_perm_of_settled hconsistent hsettled hfound, ?_, ?_⟩,
    ?_, ?_⟩
  · intro id record hid handle hhandle
    obtain ⟨group, hgroup, hhandles, -⟩ := hrecord hid
    exact (Group.find?_eq_some_iff hsettled.handles_nodup).mpr ⟨group, hgroup, hhandles ▸ hhandle⟩
  · intro handle hunreported
    exact find?_eq_none_of_unreported hsettled hunreported
  · intro first hfirst second hsecond hne
    exact exists_find?_iff_declaredAsOne hconsistent hsettled hfound hfirst hsecond hne
  · intro id record hid symbol hsymbol hhandle
    obtain ⟨group, hgroup, hhandles, hparent⟩ := hrecord hid
    rw [hparent]
    exact parent_cases_of_holds (hsettled.holds group (List.mem_of_getElem? hgroup) symbol hsymbol
      (hhandles ▸ hhandle))

/-- An interface with one method, declared in two scripts. -/
def thenable : Program where
  root := "/p"
  documents := [.script "/p/b.d.ts", .script "/p/a.d.ts"]
  symbols := [
    { handle := 2, name := some "then", kind := .method, parent := some 1
      declarations := [{ file := "/p/a.d.ts", span := .onLine 1 1 5, exported := true }] },
    { handle := 1, name := some "Thenable", kind := .interface
      declarations := [{ file := "/p/a.d.ts", span := .onLine 0 10 18 }] },
    { handle := 3, name := some "Thenable", kind := .interface
      declarations := [{ file := "/p/b.d.ts", span := .onLine 0 10 18 }] },
    { handle := 4, name := some "then", kind := .method, parent := some 3
      declarations := [{ file := "/p/b.d.ts", span := .onLine 1 1 5, exported := true }] }]

/-- The two methods are one record, as they are declared in one interface. -/
theorem merge_identifies_thenable :
    ∃ table, thenable.merge = .ok table ∧ table.resolve 9 = none ∧
      ∃ first second, thenable.symbols[0]? = some first ∧ thenable.symbols[3]? = some second ∧
        first.handle = 2 ∧ second.handle = 4 ∧ DeclaredAsOne thenable table first second := by
  have hresolve : thenable.merge.toOption.map (fun table => (table.resolve 2, table.resolve 4)) =
      some (some 1, some 1) := by decide +kernel
  cases hmerge : thenable.merge with
  | error e =>
    rw [hmerge] at hresolve
    cases hresolve
  | ok table =>
    rw [hmerge] at hresolve
    obtain ⟨hfirst, hsecond⟩ := Prod.mk.inj (Option.some.inj hresolve)
    obtain ⟨⟨-, -, -, hunreported⟩, hshared, -⟩ := merge_identifies_declared_symbols hmerge
    refine ⟨table, rfl, hunreported 9 (by decide +kernel), _, _, rfl, rfl, rfl, rfl, ?_⟩
    exact (hshared _ (by simp [thenable]) _ (by simp [thenable]) (by decide)).mp
      ⟨1, hfirst, hsecond⟩

end Program

end MonikerIndex
