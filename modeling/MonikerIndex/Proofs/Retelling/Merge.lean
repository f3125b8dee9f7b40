import MonikerIndex.Proofs.Retelling.Basic
import MonikerIndex.Proofs.Settling

/-!
# Merging a program told again

Two merges, of a program and of the program told again, go side by side. The checks end alike, the
symbols are settled in the same order, and after every symbol the groups on both sides are the same
up to the translation and to the order of sites at different places (`GroupMatches`). The records
that the groups become put their sites in order, so there nothing is left but the translation:
either both merges fail, or the second table is the first one translated (`merge_alike`).
-/

namespace MonikerIndex

namespace Retells

variable {T : Translation} {program other : Program} {symbol told : Symbol}
  (h : Retells T program other)

include h

/-! ### Checks and order -/

/-- Either both programs pass the checks, or both are found inconsistent. -/
theorem check_alike : Alike (fun _ _ => program.Consistent) program.check other.check :=
  .of_ok_iff Program.check_eq_ok_iff (Program.check_eq_ok_iff.trans h.consistent_iff)
    (fun _ => Program.kind_of_check_error) fun _ => Program.kind_of_check_error

/-- Symbols told again are in the same order. -/
theorem order_eq (hconsistent : program.Consistent) {symbol' told' : Symbol}
    (htells : T.Tells program symbol told) (htells' : T.Tells program symbol' told') :
    (compare symbol.leastPlace? symbol'.leastPlace?).then (compare symbol.handle symbol'.handle) =
      (compare told.leastPlace? told'.leastPlace?).then (compare told.handle told'.handle) := by
  obtain ⟨hsymbol, hmatch⟩ := htells
  obtain ⟨hsymbol', hmatch'⟩ := htells'
  obtain ⟨place, hplace, hmem⟩ := hconsistent.exists_leastPlace hsymbol
  obtain ⟨place', hplace', hmem'⟩ := hconsistent.exists_leastPlace hsymbol'
  rw [h.leastPlace?_matches hsymbol hmatch, h.leastPlace?_matches hsymbol' hmatch', hplace, hplace',
    hmatch.handle, hmatch'.handle]
  change (compare place place').then _ = (compare (T.place place) (T.place place')).then _
  rw [h.compare_place hmem hmem']
  cases hcompare : compare place place' with
  | lt => rfl
  | gt => rfl
  | eq =>
    have heq := Std.compare_eq_iff_eq.mp hcompare
    exact (h.compare_handle symbol hsymbol symbol' hsymbol' place' (heq ▸ hplace) hplace').symm

theorem sortedSymbols_matches (hconsistent : program.Consistent) :
    List.Forall₂ (T.Tells program) program.sortedSymbols other.sortedSymbols := by
  obtain ⟨symbols, hmatches, hperm⟩ := h.symbols
  have hnodup : (symbols.map Symbol.handle).Nodup :=
    (hperm.map Symbol.handle).nodup_iff.mpr (h.nodup_handles_iff.mpr hconsistent.handles_nodup)
  -- with distinct handles, the order in which symbols were reported does not matter
  have hsorted : other.sortedSymbols =
      sortBy (compareLex (compareOn Symbol.leastPlace?) (compareOn Symbol.handle)) symbols := by
    refine (sortBy_eq_of_perm hperm fun a ha b hb heq => ?_).symm
    obtain ⟨-, hhandle⟩ := Ordering.then_eq_eq.mp heq
    exact List.inj_on_of_nodup_map hnodup ha hb (Std.compare_eq_iff_eq.mp hhandle)
  rw [hsorted]
  have htells : List.Forall₂ (T.Tells program) program.symbols symbols :=
    (List.forall₂_and_left _ _).mpr ⟨fun _ hsymbol => hsymbol, hmatches⟩
  refine forall₂_sortBy ?_ htells
  intro symbol told htells symbol' told' htells'
  exact h.order_eq hconsistent htells htells'

/-! ### Lineages -/

theorem contains_handle {handles : List Handle} {handle : Handle}
    (hhandles : ∀ a ∈ handles, a ∈ program.handles) (hhandle : handle ∈ program.handles) :
    (handles.map T.handle).contains (T.handle handle) = handles.contains handle := by
  rw [Bool.eq_iff_iff, List.contains_iff_mem, List.contains_iff_mem, List.mem_map]
  constructor
  · rintro ⟨a, ha, heq⟩
    exact h.handle_inj a (hhandles a ha) handle hhandle heq ▸ ha
  · intro hmem
    exact ⟨handle, hmem, rfl⟩

theorem ascend_alike (hconsistent : program.Consistent) (steps : Nat) {below : List Handle}
    (hbelow : ∀ a ∈ below, a ∈ program.handles) (htells : T.Tells program symbol told) :
    Alike (List.Forall₂ (T.Tells program)) (program.ascend steps below symbol)
      (other.ascend steps (below.map T.handle) told) := by
  induction steps generalizing below symbol told with
  | zero => exact .error rfl
  | succ steps ih =>
    obtain ⟨hsymbol, hmatch⟩ := htells
    -- the handles below are translated with the symbol's own, so both ways up turn back or neither
    simp only [Program.ascend, hmatch.handle, hmatch.parent,
      h.contains_handle hbelow (Program.handle_mem_handles hsymbol)]
    by_cases hcycle : below.contains symbol.handle = true
    · simp only [if_pos hcycle]
      exact .error rfl
    simp only [if_neg hcycle]
    cases hparent : symbol.parent with
    | none => exact .ok (List.Forall₂.cons ⟨hsymbol, hmatch⟩ List.Forall₂.nil)
    | some parent =>
      simp only [Option.map_some]
      rcases h.symbol?_matches hconsistent (Program.parent_mem_handles hsymbol hparent) with
        ⟨hnone, hnone'⟩ | ⟨outer, outer', houter, houter', hmatch'⟩
      · simp only [hnone, hnone']
        exact .error rfl
      · simp only [houter, houter']
        have hbelow' : ∀ a ∈ symbol.handle :: below, a ∈ program.handles := by
          intro a ha
          rcases List.mem_cons.mp ha with rfl | ha
          · exact Program.handle_mem_handles hsymbol
          · exact hbelow a ha
        refine (ih hbelow' ⟨(Program.mem_of_symbol? houter).1, hmatch'⟩).map fun _ _ hrest => ?_
        exact List.Forall₂.cons ⟨hsymbol, hmatch⟩ hrest

/-- The symbols told again are settled in the same order. -/
theorem settlingOrder_alike (hconsistent : program.Consistent) :
    Alike (List.Forall₂ (T.Tells program)) program.settlingOrder other.settlingOrder := by
  have hlength : other.symbols.length = program.symbols.length := by
    obtain ⟨symbols, hmatches, hperm⟩ := h.symbols
    rw [← hperm.length_eq, hmatches.length_eq]
  have hlineage : ∀ symbol told, T.Tells program symbol told →
      Alike (List.Forall₂ (T.Tells program)) (program.lineage symbol) (other.lineage told) := by
    intro symbol told htells
    unfold Program.lineage
    rw [hlength]
    exact (h.ascend_alike hconsistent _ (by simp) htells).map
      fun _ _ hrest => List.rel_reverse hrest
  exact (Alike.mapM (h.sortedSymbols_matches hconsistent) hlineage).map
    fun _ _ hrest => List.rel_flatten hrest

end Retells

/-! ### Translated sites and spaces -/

namespace Translation

def site (T : Translation) (site : Site) : Site :=
  { site with
    file := T.file site.file
    span := T.span site.file site.span
    fullSpan := site.fullSpan.map (T.span site.file) }

def space (T : Translation) : Space → Space
  | .global => .global
  | .moduleFile file => .moduleFile (T.file file)
  | .container id => .container id
  | .alone handle => .alone (T.handle handle)

/-- The sites of a symbol told again. -/
theorem Matches.sites_agree {T : Translation} {symbol told : Symbol} (h : T.Matches symbol told) :
    AgreeBy Site.place ((symbol.declarations.map (Site.ofDeclaration symbol)).map T.site)
      (told.declarations.map (Site.ofDeclaration told)) := by
  have hsite : ∀ declaration, T.site (Site.ofDeclaration symbol declaration) =
      Site.ofDeclaration told (T.declaration declaration) := by
    intro d
    simp only [site, Site.ofDeclaration, declaration, h.kind, h.name]
  have hsites : (symbol.declarations.map (Site.ofDeclaration symbol)).map T.site =
      (symbol.declarations.map T.declaration).map (Site.ofDeclaration told) := by
    simp only [List.map_map, Function.comp_def, hsite]
  rw [hsites]
  exact h.declarations.map fun _ => rfl

theorem Tells.sites_known {T : Translation} {program : Program} {symbol told : Symbol}
    (h : T.Tells program symbol told) :
    ∀ site ∈ symbol.declarations.map (Site.ofDeclaration symbol), site.place ∈ program.places := by
  intro site hsite
  obtain ⟨declaration, hdeclaration, rfl⟩ := List.mem_map.mp hsite
  exact Program.place_mem_places h.1 hdeclaration

end Translation

/-- Whether a space is told by handles and files of the program. -/
def Space.Known (program : Program) : Space → Prop
  | .moduleFile file => file ∈ program.files
  | .alone handle => handle ∈ program.handles
  | _ => True

/-- A group of the first run, and the group that it is in the second. -/
structure GroupMatches (T : Translation) (program : Program) (group told : Group) : Prop where
  name : told.name = group.name
  kind : told.kind = group.kind
  parent : told.parent = group.parent
  scope : told.scope = group.scope
  space : told.space = T.space group.space
  exported : told.exported = group.exported
  exportForm : told.exportForm = group.exportForm
  sites : AgreeBy Site.place (group.sites.map T.site) told.sites
  handles : told.handles = group.handles.map T.handle
  handles_known : ∀ handle ∈ group.handles, handle ∈ program.handles
  space_known : group.space.Known program
  sites_known : ∀ site ∈ group.sites, site.place ∈ program.places

namespace GroupMatches

variable {T : Translation} {program : Program} {symbol told : Symbol}

theorem ofSymbol (htells : T.Tells program symbol told) (parent : Option Nat) {space : Space}
    (hspace : space.Known program) :
    GroupMatches T program (Group.ofSymbol symbol parent space)
      (Group.ofSymbol told parent (T.space space)) := by
  have hmatch := htells.2
  refine ⟨hmatch.name, hmatch.kind, rfl, hmatch.scope, rfl, hmatch.exported_eq, hmatch.exportForm,
    hmatch.sites_agree, congrArg (fun handle => [handle]) hmatch.handle, ?_, hspace,
    htells.sites_known⟩
  intro handle hhandle
  rw [List.mem_singleton.mp hhandle]
  exact Program.handle_mem_handles htells.1

theorem absorb {group group' : Group} (hgroup : GroupMatches T program group group')
    (htells : T.Tells program symbol told) :
    GroupMatches T program (group.absorb symbol) (group'.absorb told) := by
  have hmatch := htells.2
  refine ⟨hgroup.name, hgroup.kind, hgroup.parent, hgroup.scope, hgroup.space, ?_, ?_, ?_, ?_, ?_,
    hgroup.space_known, ?_⟩
  · simp only [Group.absorb, hgroup.exported, hmatch.exported_eq]
  · simp only [Group.absorb, hgroup.exportForm, hmatch.exportForm]
  · simp only [Group.absorb, List.map_append]
    exact hgroup.sites.append hmatch.sites_agree
  · simp only [Group.absorb, hgroup.handles, hmatch.handle, List.map_append, List.map_cons,
      List.map_nil]
  · intro handle hhandle
    rcases List.mem_append.mp hhandle with hhandle | hhandle
    · exact hgroup.handles_known handle hhandle
    · rw [List.mem_singleton.mp hhandle]
      exact Program.handle_mem_handles htells.1
  · intro site hsite
    rcases List.mem_append.mp hsite with hsite | hsite
    · exact hgroup.sites_known site hsite
    · exact htells.sites_known site hsite

end GroupMatches

/-! ### Spaces and handles -/

namespace Retells

variable {T : Translation} {program other : Program} {symbol told : Symbol}
  {groups groups' : List Group} (h : Retells T program other)

include h

theorem space_inj {a b : Space} (ha : a.Known program) (hb : b.Known program) :
    T.space a = T.space b ↔ a = b := by
  refine ⟨fun heq => ?_, congrArg T.space⟩
  cases a <;> cases b <;> simp only [Translation.space, reduceCtorEq, Space.moduleFile.injEq,
    Space.container.injEq, Space.alone.injEq] at heq ⊢
  · exact h.file_inj ha hb heq
  · exact heq
  · exact h.handle_inj _ ha _ hb heq

theorem spaceOf_matches (hconsistent : program.Consistent) (htells : T.Tells program symbol told)
    (parent : Option Nat) :
    other.spaceOf told parent = T.space (program.spaceOf symbol parent) ∧
      (program.spaceOf symbol parent).Known program := by
  obtain ⟨hsymbol, hmatch⟩ := htells
  have hdeclared := hconsistent.declared symbol hsymbol
  have hfile : Program.leastFile symbol ∈ program.files := by
    obtain ⟨hmem, -⟩ := Program.leastFile_spec hdeclared
    obtain ⟨declaration, hdeclaration, hfile⟩ := List.mem_map.mp hmem
    exact hfile ▸ Program.file_mem_files hsymbol hdeclaration
  simp only [Program.spaceOf, hmatch.scope, hmatch.name, hmatch.kind, hmatch.handle,
    h.leastFile_matches hsymbol hmatch hdeclared, h.isModuleFile_file hfile]
  split
  · exact ⟨rfl, Program.handle_mem_handles hsymbol⟩
  · cases parent with
    | some id => exact ⟨rfl, trivial⟩
    | none =>
      dsimp only
      split
      · exact ⟨rfl, trivial⟩
      · split
        · exact ⟨rfl, hfile⟩
        · exact ⟨rfl, trivial⟩

theorem find?_matches (hgroups : List.Forall₂ (GroupMatches T program) groups groups')
    {handle : Handle} (hhandle : handle ∈ program.handles) :
    Group.find? groups' (T.handle handle) = Group.find? groups handle := by
  refine (findIdx?_eq_of_forall₂ hgroups fun group group' hgroup => ?_).symm
  rw [hgroup.handles, h.contains_handle hgroup.handles_known hhandle]

/-! ### Settling -/

/-- Settling a symbol on both sides keeps the groups the same. -/
theorem settle_matches (hconsistent : program.Consistent) (htells : T.Tells program symbol told)
    (hgroups : List.Forall₂ (GroupMatches T program) groups groups') :
    List.Forall₂ (GroupMatches T program) (Group.settle program groups symbol)
      (Group.settle other groups' told) := by
  have hhandle : Group.find? groups' told.handle = Group.find? groups symbol.handle := by
    rw [htells.2.handle]
    exact h.find?_matches hgroups (Program.handle_mem_handles htells.1)
  have hparent : told.parent.bind (Group.find? groups') =
      symbol.parent.bind (Group.find? groups) := by
    rw [htells.2.parent]
    cases hsome : symbol.parent with
    | none => rfl
    | some parent => exact h.find?_matches hgroups (Program.parent_mem_handles htells.1 hsome)
  obtain ⟨hspace, hknown⟩ :=
    h.spaceOf_matches hconsistent htells (symbol.parent.bind (Group.find? groups))
  -- a translated space is that of a group exactly where the space was
  have hkey : groups.findIdx? (fun group => group.space ==
        program.spaceOf symbol (symbol.parent.bind (Group.find? groups)) &&
          group.name == symbol.name) =
      groups'.findIdx? fun group => group.space ==
        T.space (program.spaceOf symbol (symbol.parent.bind (Group.find? groups))) &&
          group.name == told.name := by
    refine findIdx?_eq_of_forall₂ hgroups fun group group' hgroup => ?_
    rw [hgroup.name, htells.2.name, hgroup.space, Bool.eq_iff_iff]
    simp only [Bool.and_eq_true, beq_iff_eq, h.space_inj hgroup.space_known hknown]
  unfold Group.settle
  simp only [hhandle, hparent, hspace, ← hkey]
  split
  · exact hgroups
  · split
    · exact forall₂_modify hgroups (fun _ _ hgroup => hgroup.absorb htells) _
    · exact List.rel_append hgroups
        (List.Forall₂.cons (GroupMatches.ofSymbol htells _ hknown) List.Forall₂.nil)

/-- Settling all symbols on both sides keeps the groups the same. -/
theorem foldl_settle_matches (hconsistent : program.Consistent) {symbols symbols' : List Symbol}
    (hsymbols : List.Forall₂ (T.Tells program) symbols symbols')
    (hgroups : List.Forall₂ (GroupMatches T program) groups groups') :
    List.Forall₂ (GroupMatches T program) (symbols.foldl (Group.settle program) groups)
      (symbols'.foldl (Group.settle other) groups') := by
  induction hsymbols generalizing groups groups' with
  | nil => exact hgroups
  | cons htells _ ih => exact ih (h.settle_matches hconsistent htells hgroups)

end Retells

/-! ### Translated tables -/

namespace Translation

def record (T : Translation) (record : Record) : Record :=
  { record with
    space := T.space record.space
    sites := record.sites.map T.site
    handles := record.handles.map T.handle }

def table (T : Translation) (table : SymbolTable) : SymbolTable :=
  ⟨table.records.map T.record⟩

end Translation

theorem Site.mem_of_mem_dedupAfter {last site : Site} {sites : List Site}
    (h : site ∈ dedupAfter last sites) : site ∈ sites := by
  induction sites generalizing last with
  | nil => cases h
  | cons first sites ih =>
    simp only [dedupAfter] at h
    split at h
    · exact List.mem_cons_of_mem _ (ih h)
    · rcases List.mem_cons.mp h with rfl | h
      · exact List.mem_cons_self
      · exact List.mem_cons_of_mem _ (ih h)

theorem Site.mem_of_mem_arrange {site : Site} {sites : List Site} (h : site ∈ arrange sites) :
    site ∈ sites := by
  have hmem : site ∈ sortBy (compareOn place) sites := by
    unfold arrange at h
    cases hsorted : sortBy (compareOn place) sites with
    | nil =>
      rw [hsorted] at h
      cases h
    | cons first rest =>
      rw [hsorted] at h
      rcases List.mem_cons.mp h with rfl | h
      · exact List.mem_cons_self
      · exact List.mem_cons_of_mem _ (mem_of_mem_dedupAfter h)
  exact mem_sortBy.mp hmem

namespace Retells

variable {T : Translation} {program other : Program} {groups groups' : List Group}
  (h : Retells T program other)

include h

theorem dedupAfter_map {last : Site} {sites : List Site} (hlast : last.place ∈ program.places)
    (hsites : ∀ site ∈ sites, site.place ∈ program.places) :
    Site.dedupAfter (T.site last) (sites.map T.site) = (Site.dedupAfter last sites).map T.site := by
  induction sites generalizing last with
  | nil => rfl
  | cons site sites ih =>
    have hsite := hsites site List.mem_cons_self
    have hrest : ∀ site ∈ sites, site.place ∈ program.places :=
      fun site hmem => hsites site (List.mem_cons_of_mem _ hmem)
    have hplace : (T.site last).place = (T.site site).place ↔ last.place = site.place :=
      ⟨fun heq => h.place_inj hlast hsite heq, congrArg T.place⟩
    simp only [List.map_cons, Site.dedupAfter, hplace]
    split
    · exact ih hlast hrest
    · rw [List.map_cons, ih hsite hrest]

/-- Sites told again are arranged as the sites were. -/
theorem arrange_agree {sites sites' : List Site}
    (hagree : AgreeBy Site.place (sites.map T.site) sites')
    (hsites : ∀ site ∈ sites, site.place ∈ program.places) :
    Site.arrange sites' = (Site.arrange sites).map T.site := by
  have hsorted : sortBy (compareOn Site.place) sites' =
      (sortBy (compareOn Site.place) sites).map T.site := by
    have hkey : ∀ a b : Site, compareOn Site.place a b = .eq → a.place = b.place :=
      fun a b heq => Std.compare_eq_iff_eq.mp heq
    rw [← hagree.sortBy_eq hkey]
    refine sortBy_map fun a ha b hb => ?_
    exact h.compare_place (a := a.place) (b := b.place) (hsites a ha) (hsites b hb)
  have hmem : ∀ site ∈ sortBy (compareOn Site.place) sites, site.place ∈ program.places :=
    fun site hsite => hsites site (mem_sortBy.mp hsite)
  unfold Site.arrange
  rw [hsorted]
  cases hfirst : sortBy (compareOn Site.place) sites with
  | nil => rfl
  | cons first rest =>
    rw [hfirst] at hmem
    simp only [List.map_cons, Site.dedup]
    rw [h.dedupAfter_map (hmem first List.mem_cons_self)
      fun site hsite => hmem site (List.mem_cons_of_mem _ hsite)]

theorem recordOf_matches {group group' : Group} (hgroup : GroupMatches T program group group')
    (id : Nat) : SymbolTable.recordOf id group' = T.record (SymbolTable.recordOf id group) := by
  simp only [SymbolTable.recordOf, Translation.record, hgroup.name, hgroup.kind, hgroup.parent,
    hgroup.scope, hgroup.space, hgroup.exported, hgroup.exportForm, hgroup.handles,
    h.arrange_agree hgroup.sites hgroup.sites_known, List.head?_map, Option.map_map]
  rfl

/-- First sites told again are in the same order. -/
theorem compare_canonical {a b : Record} (ha : ∀ site ∈ a.sites, site.place ∈ program.places)
    (hb : ∀ site ∈ b.sites, site.place ∈ program.places) :
    compare ((T.record a).canonical?.map Site.place) ((T.record b).canonical?.map Site.place) =
      compare (a.canonical?.map Site.place) (b.canonical?.map Site.place) := by
  have hsites : ∀ record : Record, (T.record record).canonical? = record.canonical?.map T.site :=
    fun record => List.head?_map
  have hmem : ∀ {record : Record} {site : Site}, record.canonical? = some site →
      site ∈ record.sites := fun hsome => List.mem_of_mem_head? hsome
  rw [hsites, hsites]
  cases hsite : a.canonical? with
  | none =>
    cases hsite' : b.canonical? with
    | none => rfl
    | some site' => rfl
  | some site =>
    cases hsite' : b.canonical? with
    | none => rfl
    | some site' =>
      exact h.compare_place (a := site.place) (b := site'.place) (ha site (hmem hsite))
        (hb site' (hmem hsite'))

theorem childrenOf_map {records : List Record}
    (hrecords : ∀ record ∈ records, ∀ site ∈ record.sites, site.place ∈ program.places) (id : Nat) :
    SymbolTable.childrenOf (records.map T.record) id = SymbolTable.childrenOf records id := by
  have hfilter : (records.map T.record).filter (fun record => record.parent == some id) =
      (records.filter fun record => record.parent == some id).map T.record := List.filter_map
  have hsorted : sortBy (compareOn fun record : Record => record.canonical?.map Site.place)
        ((records.filter fun record => record.parent == some id).map T.record) =
      (sortBy (compareOn fun record : Record => record.canonical?.map Site.place)
        (records.filter fun record => record.parent == some id)).map T.record := by
    refine sortBy_map fun a ha b hb => ?_
    exact h.compare_canonical (hrecords a (List.mem_filter.mp ha).1)
      (hrecords b (List.mem_filter.mp hb).1)
  unfold SymbolTable.childrenOf
  rw [hfilter, hsorted, List.map_map]
  rfl

/-- The table of the groups told again is the table translated. -/
theorem ofGroups_matches (hgroups : List.Forall₂ (GroupMatches T program) groups groups') :
    SymbolTable.ofGroups groups' = T.table (SymbolTable.ofGroups groups) := by
  have hrecords : groups'.mapIdx SymbolTable.recordOf =
      (groups.mapIdx SymbolTable.recordOf).map T.record :=
    mapIdx_eq_map_of_forall₂ hgroups fun id _ _ hgroup => h.recordOf_matches hgroup id
  have hknown : ∀ record ∈ groups.mapIdx SymbolTable.recordOf, ∀ site ∈ record.sites,
      site.place ∈ program.places := by
    intro record hrecord site hsite
    obtain ⟨id, hid, rfl⟩ := List.mem_mapIdx.mp hrecord
    obtain ⟨group', -, hgroup⟩ := exists_mem_right_of_forall₂ hgroups (List.getElem_mem hid)
    exact hgroup.sites_known site (Site.mem_of_mem_arrange hsite)
  unfold SymbolTable.ofGroups Translation.table
  simp only [hrecords, List.map_map]
  congr 1
  refine List.map_congr_left fun record _ => ?_
  simp only [Function.comp_apply, h.childrenOf_map hknown]
  rfl

/-- Either both merges fail, or the table of the program told again is the table translated. -/
theorem merge_alike :
    Alike (fun table table' => table' = T.table table) program.merge other.merge := by
  rw [Program.merge_eq_bind, Program.merge_eq_bind]
  refine h.check_alike.bind fun _ _ hconsistent => ?_
  refine (h.settlingOrder_alike hconsistent).map fun symbols symbols' hsymbols => ?_
  exact h.ofGroups_matches (h.foldl_settle_matches hconsistent hsymbols List.Forall₂.nil)

end Retells

end MonikerIndex
