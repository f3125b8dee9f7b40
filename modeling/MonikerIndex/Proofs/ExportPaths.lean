import MonikerIndex.Proofs.Alias.RelativePaths
import MonikerIndex.Proofs.Contributions

/-!
# Export paths in closed form

The export path of a record is computed up the chain of its parents, where each record adds a
segment and the outermost record decides on the base. Seen as a whole it is simple: what is written
for the records from the outside in, and one of three bases (`Naming.pathBelow`). A module block
gives its name to the base of all that lies in it, and to its own path if the name is quoted; every
other path starts at the module file or the global scope in which the outermost record is declared.

What is written for a record (`Record.WrittenAs`) is its export form or else its name, and a module
block drops its quotation marks (`Quotes`).

Main statement: `merge_exportPath_closed`.
-/

namespace MonikerIndex

/-! ### Quotation marks -/

/-- Whether a name is a text between two quotation marks of one kind. -/
def Quotes (name inner : String) : Prop :=
  ∃ mark, (mark = '\'' ∨ mark = '"') ∧ name.toList = mark :: (inner.toList ++ [mark])

theorem unquote_of_quotes {name inner : String} (h : Quotes name inner) : unquote name = inner := by
  obtain ⟨mark, hmark, hname⟩ := h
  obtain ⟨second, rest, hrest⟩ := List.exists_cons_of_ne_nil
    (List.append_ne_nil_of_right_ne_nil inner.toList (List.cons_ne_nil mark []))
  have hlast : (second :: rest).getLast? = some mark := by
    rw [← hrest, List.getLast?_concat]
  have hfront : String.ofList (second :: rest).dropLast = inner := by
    rw [← hrest, List.dropLast_concat, String.ofList_toList]
  unfold unquote
  rw [hname, hrest]
  rcases hmark with rfl | rfl
  · simp only [hlast, and_self, if_true, hfront]
  · simp only [hlast, and_self, if_true, hfront]
    simp

theorem unquote_of_not_quotes {name : String} (h : ∀ inner, ¬Quotes name inner) :
    unquote name = name := by
  unfold unquote
  cases hname : name.toList with
  | nil => rfl
  | cons first chars =>
    cases chars with
    | nil => rfl
    | cons second rest =>
      have hno : ∀ mark, mark = '\'' ∨ mark = '"' →
          ¬(first = mark ∧ (second :: rest).getLast? = some mark) := by
        rintro mark hmark ⟨rfl, hlast⟩
        obtain ⟨inner, hinner⟩ := List.getLast?_eq_some_iff.mp hlast
        refine h (String.ofList inner) ⟨first, hmark, ?_⟩
        rw [hname, hinner, String.toList_ofList]
      simp only [if_neg (hno '\'' (Or.inl rfl)), if_neg (hno '"' (Or.inr rfl))]

theorem length_unquote_ne_iff {name : String} :
    (unquote name).length ≠ name.length ↔ ∃ inner, Quotes name inner := by
  constructor
  · intro hne
    by_contra hno
    rw [not_exists] at hno
    exact hne (by rw [unquote_of_not_quotes hno])
  · rintro ⟨inner, h⟩
    rw [unquote_of_quotes h]
    obtain ⟨mark, -, hname⟩ := h
    have hlength := congrArg List.length hname
    rw [List.length_cons, List.length_append, List.length_singleton, String.length_toList,
      String.length_toList] at hlength
    omega

namespace Record

variable {record : Record} {segment : String}

/-- Whether the name of a record stands in quotation marks. -/
def IsQuoted (record : Record) : Prop :=
  ∃ name inner, record.name = some name ∧ Quotes name inner

theorem any_unquote_iff :
    record.name.any (fun name => (unquote name).length != name.length) = true ↔
      record.IsQuoted := by
  unfold IsQuoted
  cases record.name with
  | none => simp
  | some name => simpa using length_unquote_ne_iff

instance (record : Record) : Decidable record.IsQuoted :=
  decidable_of_iff _ any_unquote_iff

theorem isQuotedModule_iff :
    record.isQuotedModule = true ↔ record.isAmbientModule = true ∧ record.IsQuoted := by
  rw [isQuotedModule, Bool.and_eq_true, any_unquote_iff]

/-- What a record is written as on an export path: the segment of its export form, or else its name,
    without its quotation marks if the record is a module block at the top level. -/
inductive WrittenAs (record : Record) : String → Prop where
  | form {form : ExportForm} (h : record.exportForm = some form) : WrittenAs record form.segment
  | unquoted {name inner : String} (hform : record.exportForm = none)
      (hname : record.name = some name) (hmodule : record.isAmbientModule = true)
      (hquotes : Quotes name inner) : WrittenAs record inner
  | named {name : String} (hform : record.exportForm = none) (hname : record.name = some name)
      (hplain : record.isAmbientModule = false ∨ ∀ inner, ¬Quotes name inner) :
      WrittenAs record name

theorem segment?_eq_some_iff : record.segment? = some segment ↔ record.WrittenAs segment := by
  constructor
  · intro h
    unfold segment? at h
    split at h
    · rename_i form hform
      cases h
      exact .form hform
    · rename_i hform
      obtain ⟨name, hname, rfl⟩ := Option.map_eq_some_iff.mp h
      by_cases hmodule : record.isAmbientModule = true
      · rw [if_pos hmodule]
        by_cases hquoted : ∃ inner, Quotes name inner
        · obtain ⟨inner, hquotes⟩ := hquoted
          rw [unquote_of_quotes hquotes]
          exact .unquoted hform hname hmodule hquotes
        · rw [not_exists] at hquoted
          rw [unquote_of_not_quotes hquoted]
          exact .named hform hname (Or.inr hquoted)
      · rw [if_neg hmodule]
        exact .named hform hname (Or.inl (by simpa using hmodule))
  · intro h
    unfold segment?
    cases h with
    | form hform => rw [hform]
    | unquoted hform hname hmodule hquotes =>
      simp [hform, hname, hmodule, unquote_of_quotes hquotes]
    | named hform hname hplain =>
      rcases hplain with hmodule | hplain
      · simp [hform, hname, hmodule]
      · simp [hform, hname, unquote_of_not_quotes hplain]

end Record

/-! ### Closed forms -/

namespace Naming

variable {naming : Naming} {table : SymbolTable} {record top : Record} {inner : List Record}
  {id : Nat} {first : String} {rest : List String}

/-- The path under which the members of a record are exported, told by the outermost record `top`
    around it, by what is written for `top`, and by what is written for the records from there to
    the record. -/
def membersBelow (naming : Naming) (top : Record) (first : String) (rest : List String) :
    ExportPath :=
  if top.isAmbientModule then ⟨.ambient first, rest⟩ else ⟨naming.topBase top, first :: rest⟩

/-- The path to a record, told in the same way. What lies in a module block has the block for its
    base, and so has the block itself if its name is quoted. -/
def pathBelow (naming : Naming) (top : Record) (first : String) (rest : List String) : ExportPath :=
  if top.isAmbientModule ∧ rest ≠ [] then ⟨.ambient first, rest⟩
  else if top.isAmbientModule ∧ top.IsQuoted then ⟨.ambient first, []⟩
  else ⟨naming.topBase top, first :: rest⟩

theorem topBase_of_moduleFile {file : String} (h : top.space = .moduleFile file) :
    naming.topBase top = .moduleFile (Path.moduleName naming.root file) := by
  rw [topBase, h]

theorem topBase_of_not_moduleFile (h : ∀ file, top.space ≠ .moduleFile file) :
    naming.topBase top = .global := by
  unfold topBase
  split
  · rename_i file hspace
    exact absurd hspace (h file)
  · rfl

theorem membersBelow_concat (segment : String) :
    (naming.membersBelow top first rest).child segment =
      naming.membersBelow top first (rest ++ [segment]) := by
  unfold membersBelow
  split
  · rfl
  · rfl

theorem pathBelow_of_ne_nil (h : rest ≠ []) :
    naming.pathBelow top first rest = naming.membersBelow top first rest := by
  unfold pathBelow membersBelow
  by_cases hmodule : top.isAmbientModule = true
  · simp [hmodule, h]
  · simp [hmodule]

theorem memberPath_of_isAmbientModule (hrecord : table.record? id = some record)
    (hmodule : record.isAmbientModule = true) :
    naming.memberPath table id = record.segment?.map fun name => .bare (.ambient name) := by
  rw [memberPath, SymbolTable.chain_of_top hrecord (Record.parent_of_isAmbientModule hmodule),
    nestedMemberPath, if_pos hmodule]

theorem memberPath_of_not_isAmbientModule (hrecord : table.record? id = some record)
    (hmodule : record.isAmbientModule = false) :
    naming.memberPath table id = naming.exportPath table id := by
  rw [memberPath, exportPath, SymbolTable.chain, SymbolTable.ascend, hrecord]
  simp [nestedMemberPath, hmodule]

theorem exportPath_of_top (hrecord : table.record? id = some record)
    (hparent : record.parent = none) (hfirst : record.segment? = some first) :
    naming.exportPath table id = some (naming.pathBelow record first []) := by
  rw [exportPath, SymbolTable.chain_of_top hrecord hparent, nestedPath, hfirst]
  unfold pathBelow
  by_cases hquoted : record.isQuotedModule = true
  · simp [hquoted, Record.isQuotedModule_iff.mp hquoted, ExportPath.bare]
  · have hno : ¬(record.isAmbientModule = true ∧ record.IsQuoted) := by
      rwa [← Record.isQuotedModule_iff]
    simp [hquoted, hno, ExportPath.bare, ExportPath.child]

theorem memberPath_of_top (hrecord : table.record? id = some record)
    (hparent : record.parent = none) (hfirst : record.segment? = some first) :
    naming.memberPath table id = some (naming.membersBelow record first []) := by
  unfold membersBelow
  by_cases hmodule : record.isAmbientModule = true
  · rw [memberPath_of_isAmbientModule hrecord hmodule, hfirst, if_pos hmodule]
    rfl
  · rw [Bool.not_eq_true] at hmodule
    rw [memberPath_of_not_isAmbientModule hrecord hmodule,
      exportPath_of_top hrecord hparent hfirst]
    simp [pathBelow, hmodule]

/-- Both paths in closed form, where each record on the way up can be written. -/
theorem exists_paths_of_forest (hforest : table.Forest) (naming : Naming) :
    ∀ id record, table.record? id = some record → ∃ inner top, table.chain id = inner ++ [top] ∧
      top.parent = none ∧ ∀ first rest, top.segment? = some first →
        List.Forall₂ (fun outer segment => outer.segment? = some segment) inner rest →
          naming.exportPath table id = some (naming.pathBelow top first rest.reverse) ∧
          naming.memberPath table id = some (naming.membersBelow top first rest.reverse) := by
  refine hforest.induct ?_ ?_
  · intro id record hrecord hparent
    refine ⟨[], record, SymbolTable.chain_of_top hrecord hparent, hparent, ?_⟩
    intro first rest hfirst hrest
    cases hrest
    exact ⟨exportPath_of_top hrecord hparent hfirst, memberPath_of_top hrecord hparent hfirst⟩
  · intro id record parent container hrecord hparent hcontainer
    rintro ⟨inner, top, hchain, htop, hpaths⟩
    refine ⟨record :: inner, top, ?_, htop, ?_⟩
    · rw [hforest.chain_of_parent hrecord hparent, hchain, List.cons_append]
    · intro first rest hfirst hrest
      cases hrest with
      | @cons _ segment _ rest hsegment hrest =>
        have hpath := exportPath_of_parent hforest hrecord hparent (hpaths first rest hfirst hrest).2
          hsegment
        rw [memberPath_of_parent hforest hrecord hparent, hpath, membersBelow_concat,
          List.reverse_cons, pathBelow_of_ne_nil (by simp)]
        exact ⟨rfl, rfl⟩

/-- Where a path exists, something is written for each record on the way up. -/
theorem exists_segments {records : List Record}
    (h : ∀ record ∈ records, record.segment?.isSome) :
    ∃ segments, List.Forall₂ (fun record segment => record.segment? = some segment) records
      segments := by
  refine ⟨records.map fun record => record.segment?.getD "", ?_⟩
  rw [List.forall₂_map_right_iff, List.forall₂_same]
  intro record hrecord
  obtain ⟨segment, hsegment⟩ := Option.isSome_iff_exists.mp (h record hrecord)
  rw [hsegment, Option.getD_some]

theorem isSome_exportPath_iff (naming : Naming) (hrecord : table.record? id = some record) :
    (naming.exportPath table id).isSome ↔ ∀ outer ∈ table.chain id, outer.segment?.isSome := by
  exact naming.isSome_nestedPath_iff (table.enclosing_ascend (id + 1) id)
    (SymbolTable.chain_ne_nil hrecord)

/-- A path to a record is written down from the records around it. -/
theorem exists_top_exportPath_iff (hforest : table.Forest) (naming : Naming)
    (hrecord : table.record? id = some record) : ∃ inner top, table.chain id = inner ++ [top] ∧
      top.parent = none ∧ ∀ path, naming.exportPath table id = some path ↔
        ∃ first rest, top.WrittenAs first ∧ List.Forall₂ Record.WrittenAs inner.reverse rest ∧
          path = naming.pathBelow top first rest := by
  have hwritten : Record.WrittenAs = fun outer segment => outer.segment? = some segment := by
    funext outer segment
    exact propext Record.segment?_eq_some_iff.symm
  obtain ⟨inner, top, hchain, htop, hpaths⟩ :=
    exists_paths_of_forest hforest naming id record hrecord
  refine ⟨inner, top, hchain, htop, fun path => ?_⟩
  rw [hwritten]
  constructor
  · intro hpath
    have hall := (naming.isSome_exportPath_iff hrecord).mp (Option.isSome_of_eq_some hpath)
    rw [hchain] at hall
    obtain ⟨first, hfirst⟩ := Option.isSome_iff_exists.mp
      (hall top (List.mem_append_right _ List.mem_cons_self))
    obtain ⟨rest, hrest⟩ := exists_segments fun outer houter =>
      hall outer (List.mem_append_left _ houter)
    refine ⟨first, rest.reverse, hfirst, List.forall₂_reverse_iff.mpr hrest, ?_⟩
    rw [(hpaths first rest hfirst hrest).1] at hpath
    exact (Option.some.inj hpath).symm
  · rintro ⟨first, rest, hfirst, hrest, rfl⟩
    rw [← List.reverse_reverse rest, List.forall₂_reverse_iff] at hrest
    have hpath := (hpaths first rest.reverse hfirst hrest).1
    rwa [List.reverse_reverse] at hpath

end Naming

/-! ### Files of records -/

theorem Place.file_le_of_isLE {place other : Place} (h : (compare place other).isLE) :
    place.file ≤ other.file := by
  have hfile : (compare place.file other.file).isLE := Ordering.isLE_left_of_isLE_then h
  exact compare_le_iff_le.mp (Ordering.isLE_iff_ne_gt.mp hfile)

namespace Program

variable {program : Program} {table : SymbolTable} {record : Record}

/-- A record in the space of a module file is declared in that file first. -/
theorem exists_canonical_of_space (h : program.merge = .ok table) (hrecord : record ∈ table.records)
    {file : String} (hspace : record.space = .moduleFile file) :
    ∃ site, record.canonical? = some site ∧ site.file = file := by
  obtain ⟨hconsistent, groups, rfl, hreached, hsettled⟩ := exists_groups_of_merge h
  obtain ⟨group, hgroup, id, children, rfl⟩ := SymbolTable.exists_group_of_mem hrecord
  have hspace : group.space = .moduleFile file := hspace
  have hparent : group.parent = none := by
    have hrooted := hsettled.rooted group hgroup
    rwa [Group.Rooted, hspace] at hrooted
  obtain ⟨first, rest, hsites⟩ := List.exists_cons_of_ne_nil
    (Site.arrange_ne_nil (hreached.sited hconsistent group hgroup).nonempty)
  have hfirst : first ∈ group.sites :=
    Site.mem_of_mem_arrange (hsites ▸ List.mem_cons_self)
  refine ⟨first, by simp [Record.canonical?, SymbolTable.recordOf, hsites], ?_⟩
  obtain ⟨symbols, hsymbols, hcomprises⟩ := hreached.exists_comprises group hgroup
  obtain ⟨symbol, hsymbol, declaration, hdeclaration, rfl⟩ := hcomprises.exists_declaration hfirst
  have hleast : IsLeastFile symbol file := by
    have hholds := hsettled.holds group hgroup symbol (hsymbols symbol hsymbol)
      (by rw [hcomprises.handles]; exact List.mem_map_of_mem hsymbol)
    apply isLeastFile_of_spaceOf (hconsistent.declared symbol (hsymbols symbol hsymbol))
    rw [← hspace, hholds.space, hparent]
  -- the symbol of the first site is declared in the file, where the first site cannot come later
  obtain ⟨other, hother, hfile⟩ := List.mem_map.mp hleast.1
  obtain ⟨site, hsite, hplace⟩ := Site.exists_place_arrange_iff.mpr
    (hcomprises.exists_place_iff.mpr ⟨symbol, hsymbol, other, hother, rfl⟩)
  have hle := Place.file_le_of_isLE (Site.isLE_of_arrange_eq_cons hsites hsite)
  rw [hplace] at hle
  exact le_antisymm (hfile ▸ hle) (hleast.2 _ (List.mem_map_of_mem hdeclaration))

/-! ### Paths of records -/

/-- Export paths of a merged program in closed form. There is a path if every record on the way up
    has a name or an export form, and it is written down from what is written for each of them. The
    base that the outermost record has is the module of the file of its first site, or global. The
    path of the members is the same, except that a module block at the top level is their base. -/
theorem merge_exportPath_closed (h : program.merge = .ok table) (naming : Naming) {id : Nat}
    (hrecord : table.record? id = some record) :
    ∃ inner top, table.chain id = inner ++ [top] ∧ top.parent = none ∧
      (∀ file, top.space = .moduleFile file →
        naming.topBase top = .moduleFile (Path.moduleName naming.root file) ∧
          ∃ site, top.canonical? = some site ∧ site.file = file) ∧
      ((∀ file, top.space ≠ .moduleFile file) → naming.topBase top = .global) ∧
      ((naming.exportPath table id).isSome ↔
        ∀ outer ∈ table.chain id, outer.name.isSome ∨ outer.exportForm.isSome) ∧
      (∀ path, naming.exportPath table id = some path ↔ ∃ first rest, top.WrittenAs first ∧
        List.Forall₂ Record.WrittenAs inner.reverse rest ∧
        path = naming.pathBelow top first rest) ∧
      (record.isAmbientModule = true → ∀ path, naming.memberPath table id = some path ↔
        ∃ first, record.WrittenAs first ∧ path = ⟨.ambient first, []⟩) ∧
      (record.isAmbientModule = false →
        naming.memberPath table id = naming.exportPath table id) := by
  obtain ⟨inner, top, hchain, htop, hpath⟩ :=
    Naming.exists_top_exportPath_iff (merge_forest h) naming hrecord
  have hmem : top ∈ table.records := by
    apply SymbolTable.mem_records_of_mem_ascend
    rw [← SymbolTable.chain, hchain]
    exact List.mem_append_right _ List.mem_cons_self
  refine ⟨inner, top, hchain, htop, fun file hspace => ⟨Naming.topBase_of_moduleFile hspace,
    exists_canonical_of_space h hmem hspace⟩, Naming.topBase_of_not_moduleFile, ?_, hpath, ?_,
    Naming.memberPath_of_not_isAmbientModule hrecord⟩
  · simpa only [Record.isSome_segment?_iff] using naming.isSome_exportPath_iff hrecord
  · intro hmodule path
    rw [Naming.memberPath_of_isAmbientModule hrecord hmodule, Option.map_eq_some_iff]
    simp only [Record.segment?_eq_some_iff, ExportPath.bare, @eq_comm _ path]

/-- The path to the default export of a module block, written down from the quoted name of the block
    and the form of the export. -/
theorem packaged_exportPath_closed : ∃ table record, packaged.merge = .ok table ∧
    table.record? 1 = some record ∧ record.name = some "create" ∧
    ∃ inner top, table.chain 1 = inner ++ [top] ∧ top.name = some "\"m\"" ∧
      ∃ first rest, top.WrittenAs first ∧ List.Forall₂ Record.WrittenAs inner.reverse rest ∧
        (Naming.mk "/p" id).pathBelow top first rest = ⟨.ambient "m", ["default"]⟩ := by
  have hmerge : packaged.merge.toOption.any (fun table => (table.record? 1).any fun record =>
      record.name = some "create" ∧
      (table.chain 1).getLast?.bind Record.name = some "\"m\"" ∧
      (Naming.mk "/p" id).exportPath table 1 = some ⟨.ambient "m", ["default"]⟩) = true := by
    decide +kernel
  simp only [Option.any_eq_true, toOption_eq_some_iff, decide_eq_true_eq] at hmerge
  obtain ⟨table, hmerge, record, hrecord, hname, hlast, hexport⟩ := hmerge
  obtain ⟨inner, top, hchain, -, -, -, -, hpath, -⟩ :=
    merge_exportPath_closed hmerge ⟨"/p", id⟩ hrecord
  obtain ⟨first, rest, hfirst, hrest, heq⟩ := (hpath _).mp hexport
  rw [hchain, List.getLast?_concat] at hlast
  exact ⟨table, record, hmerge, hrecord, hname, inner, top, hchain, hlast, first, rest, hfirst,
    hrest, heq.symm⟩

end Program

end MonikerIndex
