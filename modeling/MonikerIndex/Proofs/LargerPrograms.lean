import MonikerIndex.Proofs.Acceptance
import MonikerIndex.Proofs.Contributions
import MonikerIndex.Proofs.Visibility

/-!
# Larger programs

A program grows when symbols are added to it, or when declarations of its symbols come to be
exported. The table of the larger program has other records: they are numbered anew, new symbols
may be merged into any of them, and their first sites may be others. Which of the old symbols share
a record does not change, however, and none of them is seen less far than before.

The records of the two tables are not matched by their places. What a record is can be told by any
symbol merged into it (`Program.Represents`), so the two records of a symbol are compared through
the symbol (`Program.Counterparts`). Symbols that share a record are declared as one, which depends
on their parents and on what they are reported with. Visibility is monotone in the visibility of the
container and in what is exported. Both are carried from parents to members by `merge_induct`.

Main statement: `merge_of_larger`.
-/

namespace MonikerIndex

/-! ### Growth -/

/-- Whether two declarations are the same, except that the second may be exported where the first is
    not. -/
def Declaration.OpenedTo (declaration other : Declaration) : Prop :=
  ∃ more, other = { declaration with exported := declaration.exported || more }

theorem Declaration.map_file_of_openedTo {declarations others : List Declaration}
    (h : List.Forall₂ OpenedTo declarations others) :
    others.map file = declarations.map file := by
  induction h with
  | nil => rfl
  | cons hfirst _ ih =>
    obtain ⟨more, rfl⟩ := hfirst
    rw [List.map_cons, List.map_cons, ih]

/-- Whether two symbols are the same, except that some declarations of the second may be exported
    where those of the first are not. -/
def Symbol.OpenedTo (symbol other : Symbol) : Prop :=
  ∃ declarations, List.Forall₂ Declaration.OpenedTo symbol.declarations declarations ∧
    other = { symbol with declarations := declarations }

/-- Whether a program has the documents of another one and all of its symbols, of which more may be
    exported. -/
structure Program.GrowsTo (program larger : Program) : Prop where
  documents : ∀ document, document ∈ larger.documents ↔ document ∈ program.documents
  symbols : ∀ symbol ∈ program.symbols, ∃ other ∈ larger.symbols, symbol.OpenedTo other

/-- Whether two symbols are reported with the same handle, name, kind, parent, scope and files. -/
structure Symbol.SameFrame (symbol other : Symbol) : Prop where
  handle : other.handle = symbol.handle
  name : other.name = symbol.name
  kind : other.kind = symbol.kind
  parent : other.parent = symbol.parent
  scope : other.scope = symbol.scope
  files : other.declarations.map Declaration.file = symbol.declarations.map Declaration.file

namespace Symbol

variable {symbol other : Symbol}

theorem SameFrame.symm (h : symbol.SameFrame other) : other.SameFrame symbol :=
  ⟨h.handle.symm, h.name.symm, h.kind.symm, h.parent.symm, h.scope.symm, h.files.symm⟩

theorem OpenedTo.sameFrame (h : symbol.OpenedTo other) : symbol.SameFrame other := by
  obtain ⟨declarations, hdeclarations, rfl⟩ := h
  exact ⟨rfl, rfl, rfl, rfl, rfl, Declaration.map_file_of_openedTo hdeclarations⟩

theorem OpenedTo.exported (h : symbol.OpenedTo other) (hexported : symbol.exported = true) :
    other.exported = true := by
  obtain ⟨declarations, hdeclarations, rfl⟩ := h
  obtain ⟨declaration, hdeclaration, hmark⟩ := List.any_eq_true.mp hexported
  obtain ⟨_, hopened, more, rfl⟩ := exists_mem_right_of_forall₂ hdeclarations hdeclaration
  refine List.any_eq_true.mpr ⟨_, hopened, ?_⟩
  simp [hmark]

end Symbol

namespace Program

variable {program larger : Program} {symbol other : Symbol}

theorem GrowsTo.isModuleFile_eq (h : program.GrowsTo larger) (file : String) :
    larger.isModuleFile file = program.isModuleFile file := by
  rw [Bool.eq_iff_iff, isModuleFile_iff, isModuleFile_iff]
  simp only [h.documents]

/-- The space of a symbol depends on what it is reported with and on which files are modules. -/
theorem spaceOf_of_sameFrame (h : symbol.SameFrame other)
    (hmodules : ∀ file, larger.isModuleFile file = program.isModuleFile file)
    (parent : Option Nat) : larger.spaceOf other parent = program.spaceOf symbol parent := by
  have hleast : leastFile other = leastFile symbol := by rw [leastFile, leastFile, h.files]
  unfold spaceOf
  rw [h.scope, h.name, h.handle, h.kind, hleast, hmodules]

theorem IsLeastFile.of_sameFrame (h : symbol.SameFrame other) {file : String}
    (hleast : IsLeastFile symbol file) : IsLeastFile other file := by
  rwa [IsLeastFile, h.files]

theorem TopSpace.of_sameFrame (h : symbol.SameFrame other)
    (hmodules : ∀ file, larger.isModuleFile file = program.isModuleFile file) {space : Space}
    (hspace : program.TopSpace symbol space) : larger.TopSpace other space := by
  cases hspace with
  | global hglobal =>
    refine .global ?_
    rcases hglobal with hkind | hscope | ⟨file, hleast, hfile⟩
    · exact Or.inl (h.kind.trans hkind)
    · exact Or.inr (Or.inl (h.scope.trans hscope))
    · exact Or.inr (Or.inr ⟨file, hleast.of_sameFrame h, (hmodules file).trans hfile⟩)
  | moduleFile hkind hscope hleast hfile =>
    rw [← h.kind] at hkind
    rw [← h.scope] at hscope
    exact .moduleFile hkind hscope (hleast.of_sameFrame h) ((hmodules _).trans hfile)

end Program

/-! ### How far records are seen -/

/-- How far a visibility reaches: what is hidden comes before what is scoped, and that before what
    is seen everywhere. -/
def Visibility.reach : Visibility → Nat
  | .hidden => 0
  | .scoped => 1
  | .everywhere => 2

theorem Visibility.reach_ofTop_mono {record record' : Record}
    (h : record.IsPublic → record'.IsPublic) : (ofTop record).reach ≤ (ofTop record').reach := by
  rcases ofTop_eq record with ⟨hpublic, htop⟩ | ⟨-, htop⟩
  · rcases ofTop_eq record' with ⟨-, htop'⟩ | ⟨hprivate, -⟩
    · rw [htop, htop']
    · exact absurd (h hpublic) hprivate
  · rw [htop]
    exact Nat.zero_le _

theorem Visibility.eq_everywhere_of_reach {visibility : Visibility}
    (h : everywhere.reach ≤ visibility.reach) : visibility = .everywhere := by
  cases visibility
  · rfl
  · exact absurd h (by decide)
  · exact absurd h (by decide)

theorem Visibility.reach_ofMember_mono {container container' : Visibility}
    {record record' : Record} (hcontainer : container.reach ≤ container'.reach)
    (h : record.IsOpen → record'.IsOpen) :
    (ofMember container record).reach ≤ (ofMember container' record').reach := by
  by_cases hopen : record.IsOpen
  · rw [ofMember_of_isOpen hopen, ofMember_of_isOpen (h hopen)]
    by_cases heverywhere : container = .everywhere
    · subst heverywhere
      rw [eq_everywhere_of_reach hcontainer]
    · rw [if_neg heverywhere]
      split
      · decide
      · exact Nat.le_refl _
  · rw [ofMember_of_not_isOpen hopen]
    exact Nat.zero_le _

/-! ### Shared records -/

/-- Whether two handles were merged into one record. -/
def SymbolTable.Joins (table : SymbolTable) (handle other : Handle) : Prop :=
  ∃ id, table.resolve handle = some id ∧ table.resolve other = some id

namespace Program

variable {program larger : Program} {table table' : SymbolTable} {first second : Symbol}

theorem joins_iff_declaredAsOne (h : program.merge = .ok table) (hfirst : first ∈ program.symbols)
    (hsecond : second ∈ program.symbols) (hne : first ≠ second) :
    table.Joins first.handle second.handle ↔ DeclaredAsOne program table first second := by
  obtain ⟨hconsistent, groups, rfl, hsettled, hfound⟩ := exists_settled_of_merge h
  rw [SymbolTable.Joins, SymbolTable.resolve_ofGroups, SymbolTable.resolve_ofGroups]
  exact exists_find?_iff_declaredAsOne hconsistent hsettled hfound hfirst hsecond hne

theorem joins_self (h : program.merge = .ok table) {symbol : Symbol}
    (hsymbol : symbol ∈ program.symbols) : table.Joins symbol.handle symbol.handle := by
  obtain ⟨id, hid⟩ := Option.isSome_iff_exists.mp
    ((isSome_resolve_iff h).mpr (List.mem_map_of_mem hsymbol))
  exact ⟨id, hid, hid⟩

/-- Symbols declared as one in one program are so in another one, if they are reported alike there
    and their parents share a record there. -/
theorem DeclaredAsOne.of_sameFrame {first' second' : Symbol} (hfirst : first.SameFrame first')
    (hsecond : second.SameFrame second')
    (hmodules : ∀ file, larger.isModuleFile file = program.isModuleFile file)
    (hparents : ∀ parent parent', first.parent = some parent → second.parent = some parent' →
      table.Joins parent parent' → table'.Joins parent parent')
    (h : DeclaredAsOne program table first second) :
    DeclaredAsOne larger table' first' second' := by
  refine ⟨?_, ?_, ?_, ?_⟩
  · rw [hfirst.name, hsecond.name]
    exact h.named
  · rw [hfirst.scope, hsecond.scope]
    exact h.free
  · rw [hfirst.name, hsecond.name]
    exact h.name
  · rw [hfirst.parent, hsecond.parent]
    rcases h.place with ⟨parent, parent', id, hp, hp', hid, hid'⟩ | ⟨hp, hp', space, hspace, hspace'⟩
    · obtain ⟨id', hjoined, hjoined'⟩ := hparents parent parent' hp hp' ⟨id, hid, hid'⟩
      exact Or.inl ⟨parent, parent', id', hp, hp', hjoined, hjoined'⟩
    · exact Or.inr ⟨hp, hp', space, hspace.of_sameFrame hfirst hmodules,
        hspace'.of_sameFrame hsecond hmodules⟩

/-- What a record is, told by a symbol merged into it. -/
structure Represents (program : Program) (table : SymbolTable) (symbol : Symbol)
    (record : Record) : Prop where
  parent_eq : record.parent = symbol.parent.bind table.resolve
  confined_iff : record.scope = .confined ↔ symbol.scope = .confined
  space_eq : record.space = program.spaceOf symbol record.parent
  exported_iff : record.exported = true ↔ ∃ other ∈ program.symbols,
    table.Joins symbol.handle other.handle ∧ other.exported = true

/-- The symbols of a group agree on whether they are confined to a body. -/
theorem scope_confined_iff {groups : List Group} {group : Group}
    (hconsistent : program.Consistent) (hfirst : first ∈ program.symbols)
    (hsecond : second ∈ program.symbols) (h : Group.Holds program groups group first)
    (h' : Group.Holds program groups group second) :
    first.scope = .confined ↔ second.scope = .confined := by
  by_cases hhandle : first.handle = second.handle
  · rw [List.inj_on_of_nodup_map hconsistent.handles_nodup hfirst hsecond hhandle]
  · have hspace : program.spaceOf first group.parent = program.spaceOf second group.parent :=
      h.space.symm.trans h'.space
    have hfree := (free_of_spaceOf_eq hhandle hspace).1
    have hfree' := (free_of_spaceOf_eq (Ne.symm hhandle) hspace.symm).1
    exact iff_of_false hfree hfree'

/-- A group is exported if it shares a symbol's place with a symbol that is. -/
theorem group_exported_iff {groups : List Group} {group : Group} {id : Nat}
    (hconsistent : program.Consistent) (hreached : Group.Reached program groups)
    (hsettled : Group.Settled program groups) (hgroup : groups[id]? = some group) :
    group.exported = true ↔ ∃ other ∈ program.symbols,
      Group.find? groups other.handle = some id ∧ other.exported = true := by
  obtain ⟨symbols, hsymbols, hcomprises⟩ :=
    hreached.exists_comprises group (List.mem_of_getElem? hgroup)
  rw [hcomprises.exported, List.any_eq_true]
  constructor
  · rintro ⟨other, hother, hexported⟩
    refine ⟨other, hsymbols other hother, ?_, hexported⟩
    apply (Group.find?_eq_some_iff hsettled.handles_nodup).mpr
    exact ⟨group, hgroup, by rw [hcomprises.handles]; exact List.mem_map_of_mem hother⟩
  · rintro ⟨other, hother, hfind, hexported⟩
    obtain ⟨found, hfound, hhandle⟩ := Group.mem_handles_of_find? hfind
    rw [hgroup] at hfound
    cases hfound
    have hhandles : (SymbolTable.recordOf id group).handles = group.handles := rfl
    refine ⟨other, ?_, hexported⟩
    exact (mem_gathered_iff hconsistent hsymbols hcomprises hhandles).mpr ⟨hother, hhandle⟩

theorem exists_represents (h : program.merge = .ok table) {symbol : Symbol}
    (hsymbol : symbol ∈ program.symbols) :
    ∃ id record, table.resolve symbol.handle = some id ∧ table.record? id = some record ∧
      program.Represents table symbol record := by
  obtain ⟨id, hid⟩ := Option.isSome_iff_exists.mp
    ((isSome_resolve_iff h).mpr (List.mem_map_of_mem hsymbol))
  obtain ⟨hconsistent, groups, rfl, hreached, hsettled⟩ := exists_groups_of_merge h
  have hresolve : (SymbolTable.ofGroups groups).resolve = Group.find? groups :=
    funext fun handle => SymbolTable.resolve_ofGroups groups handle
  have hfind : Group.find? groups symbol.handle = some id := hresolve ▸ hid
  obtain ⟨group, hgroup, hhandle⟩ := Group.mem_handles_of_find? hfind
  have hmem := List.mem_of_getElem? hgroup
  have hholds := hsettled.holds group hmem symbol hsymbol hhandle
  refine ⟨id, _, hid, by rw [SymbolTable.record?_ofGroups, hgroup]; rfl, ?_, ?_, hholds.space, ?_⟩
  · rw [hresolve]
    exact hholds.parent
  · obtain ⟨founder, hfounder, hfounded, hscope⟩ := hreached.founded group hmem
    have hheld := hsettled.holds group hmem founder hfounder hfounded
    change group.scope = .confined ↔ _
    rw [hscope]
    exact scope_confined_iff hconsistent hfounder hsymbol hheld hholds
  · change group.exported = true ↔ _
    rw [group_exported_iff hconsistent hreached hsettled hgroup]
    simp only [SymbolTable.Joins, hresolve, hfind, Option.some.injEq, exists_eq_left']

/-! ### Symbols from the top down -/

theorem exists_parent_of_merge (h : program.merge = .ok table) {symbol : Symbol}
    (hsymbol : symbol ∈ program.symbols) {parent : Handle} (hparent : symbol.parent = some parent) :
    ∃ outer ∈ program.symbols, outer.handle = parent := by
  obtain ⟨hconsistent, -⟩ := merge_eq_ok_iff.mp h
  exact isSome_symbol?_iff.mp (hconsistent.parents symbol hsymbol parent hparent)

/-- What holds of every symbol without a parent, and of every other one if it holds of its parent,
    holds of all symbols of a merged program. -/
theorem merge_induct (h : program.merge = .ok table) {motive : Symbol → Prop}
    (top : ∀ symbol ∈ program.symbols, symbol.parent = none → motive symbol)
    (inner : ∀ symbol ∈ program.symbols, ∀ outer ∈ program.symbols,
      symbol.parent = some outer.handle → motive outer → motive symbol) :
    ∀ symbol ∈ program.symbols, motive symbol := by
  obtain ⟨-, lineages, hlineages, -⟩ := merge_eq_ok_iff.mp h
  intro symbol hsymbol
  obtain ⟨symbols, hlineage⟩ : ∃ symbols, program.Lineage symbol symbols := by
    obtain ⟨lineage, -, hok⟩ := exists_mem_right_of_forall₂ (mapM_eq_ok_iff.mp hlineages)
      (mem_sortBy.mpr hsymbol)
    exact ⟨_, lineage_eq_ok hok⟩
  induction hlineage with
  | top hparent => exact top _ hsymbol hparent
  | inner hparent houter _ ih =>
    obtain ⟨hmem, rfl⟩ := mem_of_symbol? houter
    exact inner _ hsymbol _ hmem hparent (ih hmem)

/-! ### Two programs -/

/-- The records of one symbol in two tables, the second of which has more to be seen. -/
structure Counterparts (table table' : SymbolTable) (symbol : Symbol) (record record' : Record) :
    Prop where
  parent_eq : record.parent = symbol.parent.bind table.resolve
  parent_eq' : record'.parent = symbol.parent.bind table'.resolve
  confined_iff : record'.scope = .confined ↔ record.scope = .confined
  exported : record.exported = true → record'.exported = true
  space_eq : symbol.parent = none → record'.space = record.space

theorem Counterparts.isOpen {symbol : Symbol} {record record' : Record}
    (h : Counterparts table table' symbol record record') (hopen : record.IsOpen) :
    record'.IsOpen :=
  ⟨fun hconfined => hopen.1 (h.confined_iff.mp hconfined), h.exported hopen.2⟩

theorem Counterparts.isPublic {symbol : Symbol} {record record' : Record}
    (h : Counterparts table table' symbol record record') (htop : symbol.parent = none)
    (hpublic : record.IsPublic) : record'.IsPublic := by
  refine ⟨fun hconfined => hpublic.1 (h.confined_iff.mp hconfined), ?_⟩
  rw [h.space_eq htop]
  exact hpublic.2.imp_left h.exported

section

variable (hgrows : program.GrowsTo larger) (h : program.merge = .ok table)
  (h' : larger.merge = .ok table')

include hgrows h h'

/-- Whether two symbols share a record depends on whether their parents do. -/
theorem GrowsTo.joins_iff_of_parents (hfirst : first ∈ program.symbols)
    (hsecond : second ∈ program.symbols)
    (hparents : ∀ parent parent', first.parent = some parent → second.parent = some parent' →
      (table.Joins parent parent' ↔ table'.Joins parent parent')) :
    table.Joins first.handle second.handle ↔ table'.Joins first.handle second.handle := by
  have hmodules := hgrows.isModuleFile_eq
  obtain ⟨first', hfirst', hopened⟩ := hgrows.symbols first hfirst
  obtain ⟨second', hsecond', hopened'⟩ := hgrows.symbols second hsecond
  have hframe := hopened.sameFrame
  have hframe' := hopened'.sameFrame
  by_cases hsame : first = second
  · subst hsame
    have hself := joins_self h' hfirst'
    rw [hframe.handle] at hself
    exact iff_of_true (joins_self h hfirst) hself
  · have hne : first' ≠ second' := by
      rintro rfl
      obtain ⟨hconsistent, -⟩ := merge_eq_ok_iff.mp h
      exact hsame (List.inj_on_of_nodup_map hconsistent.handles_nodup hfirst hsecond
        (hframe.handle.symm.trans hframe'.handle))
    rw [joins_iff_declaredAsOne h hfirst hsecond hsame, ← hframe.handle, ← hframe'.handle,
      joins_iff_declaredAsOne h' hfirst' hsecond' hne]
    constructor
    · apply DeclaredAsOne.of_sameFrame hframe hframe' hmodules
      intro parent parent' hp hp'
      exact (hparents parent parent' hp hp').mp
    · apply DeclaredAsOne.of_sameFrame hframe.symm hframe'.symm fun file => (hmodules file).symm
      intro parent parent' hp hp'
      rw [hframe.parent] at hp
      rw [hframe'.parent] at hp'
      exact (hparents parent parent' hp hp').mpr

/-- Symbols share a record in a larger program exactly if they did before. -/
theorem GrowsTo.joins_iff : ∀ first ∈ program.symbols, ∀ second ∈ program.symbols,
    (table.Joins first.handle second.handle ↔ table'.Joins first.handle second.handle) := by
  refine merge_induct h ?_ ?_
  · intro first hfirst htop second hsecond
    apply hgrows.joins_iff_of_parents h h' hfirst hsecond
    intro parent parent' hparent
    rw [htop] at hparent
    cases hparent
  · intro first hfirst outer houter hinner ih second hsecond
    apply hgrows.joins_iff_of_parents h h' hfirst hsecond
    intro parent parent' hparent hparent'
    rw [hinner] at hparent
    cases hparent
    obtain ⟨outer', houter', rfl⟩ := exists_parent_of_merge h hsecond hparent'
    exact ih outer' houter'

/-- The records of a symbol in two tables, of which the second is that of a larger program. -/
theorem GrowsTo.exists_counterparts {symbol : Symbol} (hsymbol : symbol ∈ program.symbols) :
    ∃ id id' record record', table.resolve symbol.handle = some id ∧
      table'.resolve symbol.handle = some id' ∧ table.record? id = some record ∧
      table'.record? id' = some record' ∧ Counterparts table table' symbol record record' := by
  obtain ⟨other, hother, hopened⟩ := hgrows.symbols symbol hsymbol
  have hframe := hopened.sameFrame
  obtain ⟨id, record, hid, hrecord, hrep⟩ := exists_represents h hsymbol
  obtain ⟨id', record', hid', hrecord', hrep'⟩ := exists_represents h' hother
  rw [hframe.handle] at hid'
  refine ⟨id, id', record, record', hid, hid', hrecord, hrecord', hrep.parent_eq, ?_, ?_, ?_, ?_⟩
  · rw [hrep'.parent_eq, hframe.parent]
  · rw [hrep'.confined_iff, hframe.scope, hrep.confined_iff]
  · -- the symbol that exports the record is in the larger program, and shares the record there
    intro hexported
    obtain ⟨exporter, hexporter, hjoins, hmark⟩ := hrep.exported_iff.mp hexported
    obtain ⟨exporter', hexporter', hopened'⟩ := hgrows.symbols exporter hexporter
    apply hrep'.exported_iff.mpr
    refine ⟨exporter', hexporter', ?_, hopened'.exported hmark⟩
    rw [hframe.handle, hopened'.sameFrame.handle]
    exact (hgrows.joins_iff h h' symbol hsymbol exporter hexporter).mp hjoins
  · intro htop
    rw [hrep'.space_eq, hrep.space_eq, hrep'.parent_eq, hrep.parent_eq, hframe.parent, htop]
    exact spaceOf_of_sameFrame hframe hgrows.isModuleFile_eq none

/-- No symbol of a program is seen less far in a larger one. -/
theorem GrowsTo.reach_le : ∀ symbol ∈ program.symbols, ∃ id id',
    table.resolve symbol.handle = some id ∧ table'.resolve symbol.handle = some id' ∧
      (table.visibility id).reach ≤ (table'.visibility id').reach := by
  refine merge_induct h ?_ ?_
  · intro symbol hsymbol htop
    obtain ⟨id, id', record, record', hid, hid', hrecord, hrecord', hpair⟩ :=
      hgrows.exists_counterparts h h' hsymbol
    have hparent : record.parent = none := by rw [hpair.parent_eq, htop, Option.bind_none]
    have hparent' : record'.parent = none := by rw [hpair.parent_eq', htop, Option.bind_none]
    refine ⟨id, id', hid, hid', ?_⟩
    rw [SymbolTable.visibility_eq_ofTop hrecord hparent,
      SymbolTable.visibility_eq_ofTop hrecord' hparent']
    exact Visibility.reach_ofTop_mono (hpair.isPublic htop)
  · intro symbol hsymbol outer houter hinner
    rintro ⟨parent, parent', hfound, hfound', hle⟩
    obtain ⟨id, id', record, record', hid, hid', hrecord, hrecord', hpair⟩ :=
      hgrows.exists_counterparts h h' hsymbol
    have hparent : record.parent = some parent := by
      rw [hpair.parent_eq, hinner, Option.bind_some, hfound]
    have hparent' : record'.parent = some parent' := by
      rw [hpair.parent_eq', hinner, Option.bind_some, hfound']
    refine ⟨id, id', hid, hid', ?_⟩
    rw [(merge_forest h).visibility_eq_ofMember hrecord hparent,
      (merge_forest h').visibility_eq_ofMember hrecord' hparent']
    exact Visibility.reach_ofMember_mono hle hpair.isOpen

end

/-- Where a program grows, its symbols share a record exactly if they did before, and none of them
    is seen less far. -/
theorem merge_of_larger (hgrows : program.GrowsTo larger) (h : program.merge = .ok table)
    (h' : larger.merge = .ok table') :
    (∀ first ∈ program.symbols, ∀ second ∈ program.symbols,
      (table.Joins first.handle second.handle ↔ table'.Joins first.handle second.handle)) ∧
    ∀ symbol ∈ program.symbols, ∃ id id', table.resolve symbol.handle = some id ∧
      table'.resolve symbol.handle = some id' ∧
      (table.visibility id).reach ≤ (table'.visibility id').reach :=
  ⟨hgrows.joins_iff h h', hgrows.reach_le h h'⟩

/-- A module file with a namespace that it does not export, and an interface of the same name. -/
def privateShop : Program where
  root := "/p"
  documents := [.moduleFile "/p/a.ts"]
  symbols := [
    { handle := 1, name := some "Shop", kind := .namespaceBlock
      declarations := [{ file := "/p/a.ts", span := .onLine 4 10 14 }] },
    { handle := 2, name := some "Cart", kind := .classType, parent := some 1
      declarations := [{ file := "/p/a.ts", span := .onLine 5 8 12 }] },
    { handle := 3, name := some "Shop", kind := .interface
      declarations := [{ file := "/p/a.ts", span := .onLine 8 10 14 }] }]

/-- The same file with a function before them that has the name of the namespace and is exported,
    and with the class exported from the namespace. -/
def publicShop : Program where
  root := "/p"
  documents := [.moduleFile "/p/a.ts"]
  symbols := [
    { handle := 4, name := some "Shop", kind := .function
      declarations := [{ file := "/p/a.ts", span := .onLine 0 16 20, exported := true }] },
    { handle := 5, name := some "aisle", kind := .var, parent := some 4
      declarations := [{ file := "/p/a.ts", span := .onLine 1 6 11 }] },
    { handle := 1, name := some "Shop", kind := .namespaceBlock
      declarations := [{ file := "/p/a.ts", span := .onLine 4 10 14 }] },
    { handle := 2, name := some "Cart", kind := .classType, parent := some 1
      declarations := [{ file := "/p/a.ts", span := .onLine 5 8 12, exported := true }] },
    { handle := 3, name := some "Shop", kind := .interface
      declarations := [{ file := "/p/a.ts", span := .onLine 8 10 14 }] }]

theorem privateShop_growsTo : privateShop.GrowsTo publicShop := by
  refine ⟨fun document => Iff.rfl, ?_⟩
  intro symbol hsymbol
  simp only [privateShop, List.mem_cons, List.not_mem_nil, or_false] at hsymbol
  rcases hsymbol with rfl | rfl | rfl
  · exact ⟨_, List.mem_of_getElem? (i := 2) rfl, _, .cons ⟨false, rfl⟩ .nil, rfl⟩
  · exact ⟨_, List.mem_of_getElem? (i := 3) rfl, _, .cons ⟨true, rfl⟩ .nil, rfl⟩
  · exact ⟨_, List.mem_of_getElem? (i := 4) rfl, _, .cons ⟨false, rfl⟩ .nil, rfl⟩

/-- The class has another place among the records of the larger program, and is seen everywhere. -/
theorem merge_publicShop : ∃ table table', privateShop.merge = .ok table ∧
    publicShop.merge = .ok table' ∧ table.visibilities = [.hidden, .hidden] ∧
    table'.visibilities = [.everywhere, .hidden, .everywhere] ∧ table.Joins 1 3 ∧
    table'.Joins 1 3 ∧ ∃ id id', table.resolve 2 = some id ∧ table'.resolve 2 = some id' ∧
      (table.visibility id).reach ≤ (table'.visibility id').reach := by
  have hmerge : privateShop.merge.toOption.any (fun table =>
      table.visibilities = [.hidden, .hidden] ∧ table.resolve 1 = some 0 ∧
        table.resolve 3 = some 0) = true := by
    decide +kernel
  have hmerge' : publicShop.merge.toOption.any (fun table =>
      table.visibilities = [.everywhere, .hidden, .everywhere]) = true := by
    decide +kernel
  simp only [Option.any_eq_true, toOption_eq_some_iff, decide_eq_true_eq] at hmerge hmerge'
  obtain ⟨table, hmerge, hall, hnamespace, hinterface⟩ := hmerge
  obtain ⟨table', hmerge', hall'⟩ := hmerge'
  obtain ⟨hjoins, hreach⟩ := merge_of_larger privateShop_growsTo hmerge hmerge'
  have hone : table.Joins 1 3 := ⟨0, hnamespace, hinterface⟩
  refine ⟨table, table', hmerge, hmerge', hall, hall', hone, ?_, ?_⟩
  · exact (hjoins _ (List.mem_of_getElem? (i := 0) rfl) _
      (List.mem_of_getElem? (i := 2) rfl)).mp hone
  · exact hreach _ (List.mem_of_getElem? (i := 1) rfl)

end Program

end MonikerIndex
