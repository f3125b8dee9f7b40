import MonikerIndex.Proofs.Forest
import MonikerIndex.Proofs.ModuleExports

/-!
# Paths of members under an alias

Below the target of an alias, a walk goes on through members. Two functions name what it meets: the
alias pass adds the name of each member to the path of the alias, and the export path of the same
member adds its segment to the path under which members of the target are exported. The segment is
the name, unless the record has an export form; then it is the segment of that form.

So a member is found under the alias by the same segments as under its own export path exactly if
no record on the way has an export form other than its name. A default export below the target is
listed under its name instead.

Main statement: `memberWalk_paths`.
-/

namespace MonikerIndex

/-! ### Longer paths -/

namespace ExportPath

/-- The path with more names behind it. -/
def extend (path : ExportPath) (segments : List String) : ExportPath :=
  ⟨path.base, path.segments ++ segments⟩

@[simp] theorem extend_nil (path : ExportPath) : path.extend [] = path := by
  simp [extend]

@[simp] theorem extend_child (path : ExportPath) (segment : String) (segments : List String) :
    (path.child segment).extend segments = path.extend (segment :: segments) := by
  simp [extend, child]

theorem extend_inj {path : ExportPath} {segments others : List String} :
    path.extend segments = path.extend others ↔ segments = others := by
  simp [extend]

end ExportPath

/-! ### Export paths of members -/

theorem Record.isAmbientModule_of_parent {record : Record} {parent : Nat}
    (h : record.parent = some parent) : record.isAmbientModule = false := by
  by_contra hambient
  have hnone := parent_of_isAmbientModule (by simpa using hambient)
  rw [h] at hnone
  cases hnone

/-- A member is called by its name, or by its export form where it has one. -/
theorem Record.segment?_of_parent {record : Record} {parent : Nat}
    (h : record.parent = some parent) :
    record.segment? = (record.exportForm.map ExportForm.segment).or record.name := by
  unfold segment?
  cases record.exportForm with
  | some form => rfl
  | none => simp [isAmbientModule_of_parent h]

namespace Naming

variable {naming : Naming} {table : SymbolTable} {record : Record} {id parent : Nat}

theorem exportPath_of_parent (hforest : table.Forest) (hrecord : table.record? id = some record)
    (hparent : record.parent = some parent) {path : ExportPath} {segment : String}
    (hpath : naming.memberPath table parent = some path)
    (hsegment : record.segment? = some segment) :
    naming.exportPath table id = some (path.child segment) := by
  have hquoted := Record.isQuotedModule_of_not_ambient (Record.isAmbientModule_of_parent hparent)
  rw [exportPath, hforest.chain_of_parent hrecord hparent, nestedPath, hsegment]
  rw [memberPath] at hpath
  cases hchain : table.chain parent with
  | nil =>
    rw [hchain] at hpath
    cases hpath
  | cons container outer =>
    rw [hchain, nestedMemberPath] at hpath
    by_cases hambient : container.isAmbientModule
    · rw [if_pos hambient] at hpath
      simp [hquoted, hambient, hpath]
    · rw [if_neg hambient] at hpath
      simp [hquoted, hambient, hpath]

theorem memberPath_of_parent (hforest : table.Forest) (hrecord : table.record? id = some record)
    (hparent : record.parent = some parent) :
    naming.memberPath table id = naming.exportPath table id := by
  rw [memberPath, exportPath, hforest.chain_of_parent hrecord hparent, nestedMemberPath]
  simp [Record.isAmbientModule_of_parent hparent]

end Naming

/-! ### Steps to members -/

namespace SymbolTable

variable {table : SymbolTable}

theorem exists_member_of_mem_memberVisits (hforest : table.Forest) {visit after : Visit}
    (h : after ∈ table.memberVisits visit) :
    ∃ member name, table.record? after.record = some member ∧ member.parent = some visit.record ∧
      member.name = some name ∧ after.path = visit.path.child name := by
  obtain ⟨record, hrecord, id, hid, h⟩ := mem_memberVisits_iff.mp h
  obtain ⟨member, name, hmember, hname, -, -, rfl⟩ := member?_eq_some_iff.mp h
  obtain ⟨other, hother, hparent⟩ := (hforest.mem_children_iff _ record hrecord id).mp hid
  rw [hmember] at hother
  cases hother
  exact ⟨member, name, hmember, hparent, hname, rfl⟩

/-- Whether the record of a visit has the given name. -/
def Called (table : SymbolTable) (visit : Visit) (name : String) : Prop :=
  ∃ record, table.record? visit.record = some record ∧ record.name = some name

/-- Whether the record of a visit adds the given segment to an export path. -/
def Adds (table : SymbolTable) (visit : Visit) (segment : String) : Prop :=
  ∃ record, table.record? visit.record = some record ∧ record.segment? = some segment

/-- Whether no export form gives the record of a visit another segment than its name. -/
def KeepsName (table : SymbolTable) (visit : Visit) : Prop :=
  ∀ record, table.record? visit.record = some record → ∀ form, record.exportForm = some form →
    record.name = some form.segment

instance (table : SymbolTable) (visit : Visit) : Decidable (table.KeepsName visit) :=
  decidable_of_iff (∀ record ∈ table.record? visit.record, ∀ form ∈ record.exportForm,
    record.name = some form.segment) Iff.rfl

theorem keepsName_iff {visit : Visit} {member : Record} {parent : Nat} {name segment : String}
    (hmember : table.record? visit.record = some member) (hparent : member.parent = some parent)
    (hname : member.name = some name) (hsegment : member.segment? = some segment) :
    table.KeepsName visit ↔ name = segment := by
  rw [Record.segment?_of_parent hparent, hname] at hsegment
  unfold KeepsName
  simp only [hmember, Option.some.injEq, forall_eq', hname]
  cases hform : member.exportForm with
  | none =>
    rw [hform] at hsegment
    cases hsegment
    simp
  | some form =>
    rw [hform] at hsegment
    cases hsegment
    simp

/-- Along members, a walk adds names to its path where export paths add segments. -/
theorem exists_paths_of_members (hforest : table.Forest) {naming : Naming} {start : Visit}
    {way : List Visit} (h : (start :: way).IsChain fun visit after =>
      after ∈ table.memberVisits visit) {base : ExportPath}
    (hbase : naming.memberPath table start.record = some base) :
    ∃ names segments, List.Forall₂ table.Called way names ∧
      List.Forall₂ table.Adds way segments ∧
      ((∀ visit ∈ way, table.KeepsName visit) ↔ names = segments) ∧
      ∀ last, way.getLast? = some last → last.path = start.path.extend names ∧
        naming.exportPath table last.record = some (base.extend segments) := by
  induction way generalizing start base with
  | nil => exact ⟨[], [], .nil, .nil, by simp, by simp⟩
  | cons after way ih =>
    obtain ⟨hstep, hrest⟩ := List.isChain_cons_cons.mp h
    obtain ⟨member, name, hmember, hparent, hname, hpath⟩ :=
      exists_member_of_mem_memberVisits hforest hstep
    obtain ⟨segment, hsegment⟩ := Option.isSome_iff_exists.mp
      (Record.isSome_segment?_iff.mpr (Or.inl (Option.isSome_of_eq_some hname)))
    have hexport : naming.exportPath table after.record = some (base.child segment) :=
      Naming.exportPath_of_parent hforest hmember hparent hbase hsegment
    obtain ⟨names, segments, hnames, hsegments, hsame, hends⟩ :=
      ih hrest ((Naming.memberPath_of_parent hforest hmember hparent).trans hexport)
    refine ⟨name :: names, segment :: segments, .cons ⟨member, hmember, hname⟩ hnames,
      .cons ⟨member, hmember, hsegment⟩ hsegments, ?_, ?_⟩
    · rw [List.forall_mem_cons, hsame, keepsName_iff hmember hparent hname hsegment,
        List.cons.injEq]
    intro last hlast
    cases way with
    | nil =>
      cases hlast
      cases hnames
      cases hsegments
      exact ⟨hpath, hexport⟩
    | cons next way =>
      rw [List.getLast?_cons_cons] at hlast
      obtain ⟨hnamed, hexported⟩ := hends last hlast
      rw [hnamed, hpath, hexported, ExportPath.extend_child, ExportPath.extend_child]
      exact ⟨rfl, rfl⟩

end SymbolTable

/-! ### Walks that end along members -/

/-- Whether the paths of two visits differ by the segments by which the export path of the second
    record continues the path of the members of the first. -/
def Naming.KeepsRelativePath (naming : Naming) (table : SymbolTable) (start last : Visit) : Prop :=
  ∀ base path, naming.memberPath table start.record = some base →
    naming.exportPath table last.record = some path →
    ∃ segments, path = base.extend segments ∧ last.path = start.path.extend segments

namespace Program

variable {program : Program} {naming : Naming} {table : SymbolTable} {start last : Visit}
  {way : List Visit}

/-- The last part of a walk of the alias pass, which goes along members only. -/
structure Descent (program : Program) (naming : Naming) (table : SymbolTable) (start : Visit)
    (way : List Visit) : Prop where
  walk : ∃ before, program.IsAliasWalk naming table (before ++ start :: way)
  members : (start :: way).IsChain fun visit after => after ∈ table.memberVisits visit

/-- Where a walk goes on along members, from the target of an alias or from below it, its path grows
    by the names on the way, whereas the export path of the last record continues the path of the
    members of the first by the segments on the way. The two agree exactly if no record on the way
    has an export form that is not its name. -/
theorem memberWalk_paths (hmerge : program.merge = .ok table)
    (hdescent : program.Descent naming table start way) (hlast : way.getLast? = some last)
    {base : ExportPath} (hbase : naming.memberPath table start.record = some base) :
    (∀ links, program.links naming table = .ok links → last ∈ table.visits links) ∧
      (∃ names segments, List.Forall₂ table.Called way names ∧
        List.Forall₂ table.Adds way segments ∧ last.path = start.path.extend names ∧
        naming.exportPath table last.record = some (base.extend segments)) ∧
      (naming.KeepsRelativePath table start last ↔ ∀ visit ∈ way, table.KeepsName visit) := by
  obtain ⟨⟨before, hwalk⟩, hmembers⟩ := hdescent
  obtain ⟨names, segments, hnames, hsegments, hsame, hends⟩ :=
    SymbolTable.exists_paths_of_members (merge_forest hmerge) hmembers hbase
  obtain ⟨hpath, hexport⟩ := hends last hlast
  refine ⟨?_, ⟨names, segments, hnames, hsegments, hpath, hexport⟩, ?_⟩
  · intro links hlinks
    apply (mem_visits_iff hmerge hlinks).mpr
    refine ⟨_, hwalk, ?_⟩
    rw [List.getLast?_append_cons, List.getLast?_cons, hlast]
    rfl
  · rw [hsame]
    constructor
    · intro hkeeps
      obtain ⟨others, hothers, hpath'⟩ := hkeeps base _ hbase hexport
      rw [ExportPath.extend_inj] at hothers
      rw [hpath, ExportPath.extend_inj] at hpath'
      rw [hpath', hothers]
    · rintro rfl other path hother hpath'
      rw [hbase] at hother
      rw [hexport] at hpath'
      cases hother
      cases hpath'
      exact ⟨names, rfl, hpath⟩

/-- A walk from a root along members only. -/
theorem descent_of_root {aliasFact : Alias} (halias : aliasFact ∈ program.aliases)
    (hroot : aliasFact.root? program naming table = some start)
    (hmembers : (start :: way).IsChain fun visit after => after ∈ table.memberVisits visit)
    (hnodup : ((start :: way).map Visit.record).Nodup) :
    program.Descent naming table start way := by
  refine ⟨⟨[], ⟨aliasFact, halias, start, hroot, rfl⟩, ?_, hnodup⟩, hmembers⟩
  exact hmembers.imp fun _ _ h => SymbolTable.mem_nextVisits_iff.mpr (Or.inl h)

/-- A module block with a default export and a class, exported once more as a whole. -/
def packaged : Program where
  root := "/p"
  documents := [.moduleFile "/p/a.ts", .script "/p/m.d.ts"]
  symbols := [
    { handle := 1, name := some "\"m\"", kind := .moduleBlock
      declarations := [{ file := "/p/m.d.ts", span := .onLine 0 15 18, exported := true }] },
    { handle := 2, name := some "create", kind := .function, parent := some 1
      exportForm := some .defaultExport
      declarations := [{ file := "/p/m.d.ts", span := .onLine 1 26 32, exported := true }] },
    { handle := 3, name := some "Box", kind := .classType, parent := some 1
      declarations := [{ file := "/p/m.d.ts", span := .onLine 2 15 18, exported := true }] },
    { handle := 4, name := some "open", kind := .method, parent := some 3
      declarations := [{ file := "/p/m.d.ts", span := .onLine 3 4 8, exported := true }] }]
  aliases := [⟨"/p/a.ts", .onLine 0 12 13, none, "M", 1⟩]

/-- A record of the module block, under the name of the alias. -/
def packagedVisit (id : Nat) (segments : List String) : Visit :=
  ⟨id, ⟨.moduleFile "a", "M" :: segments⟩⟩

/-- The method of the class is met under the same segments as it is exported by. -/
theorem memberWalk_paths_box : ∃ table, packaged.merge = .ok table ∧
    packaged.Descent ⟨"/p", id⟩ table (packagedVisit 0 [])
      [packagedVisit 2 ["Box"], packagedVisit 3 ["Box", "open"]] ∧
    (Naming.mk "/p" id).exportPath table 3 = some ⟨.ambient "m", ["Box", "open"]⟩ ∧
    (Naming.mk "/p" id).KeepsRelativePath table (packagedVisit 0 [])
      (packagedVisit 3 ["Box", "open"]) := by
  have hmerge : packaged.merge.toOption.any (fun table => packaged.aliases.any fun aliasFact =>
      aliasFact.root? packaged ⟨"/p", id⟩ table = some (packagedVisit 0 []) ∧
      [packagedVisit 0 [], packagedVisit 2 ["Box"], packagedVisit 3 ["Box", "open"]].IsChain
        (fun visit after => after ∈ table.memberVisits visit) ∧
      (Naming.mk "/p" id).memberPath table 0 = some (.bare (.ambient "m")) ∧
      (Naming.mk "/p" id).exportPath table 3 = some ⟨.ambient "m", ["Box", "open"]⟩ ∧
      ∀ visit ∈ [packagedVisit 2 ["Box"], packagedVisit 3 ["Box", "open"]],
        table.KeepsName visit) = true := by
    decide +kernel
  simp only [Option.any_eq_true, toOption_eq_some_iff, List.any_eq_true,
    decide_eq_true_eq] at hmerge
  obtain ⟨table, hmerge, aliasFact, halias, hroot, hmembers, hbase, hexport, hnames⟩ := hmerge
  have hdescent := descent_of_root halias hroot hmembers (by decide)
  exact ⟨table, hmerge, hdescent, hexport,
    (memberWalk_paths hmerge hdescent rfl hbase).2.2.mpr hnames⟩

/-- The default export of the module block is met under its name, where its export path has the
    segment `default`. -/
theorem packaged_not_keepsRelativePath : ∃ table, packaged.merge = .ok table ∧
    packaged.Descent ⟨"/p", id⟩ table (packagedVisit 0 []) [packagedVisit 1 ["create"]] ∧
    (Naming.mk "/p" id).exportPath table 1 = some ⟨.ambient "m", ["default"]⟩ ∧
    ¬(Naming.mk "/p" id).KeepsRelativePath table (packagedVisit 0 [])
      (packagedVisit 1 ["create"]) := by
  have hmerge : packaged.merge.toOption.any (fun table => packaged.aliases.any fun aliasFact =>
      aliasFact.root? packaged ⟨"/p", id⟩ table = some (packagedVisit 0 []) ∧
      [packagedVisit 0 [], packagedVisit 1 ["create"]].IsChain
        (fun visit after => after ∈ table.memberVisits visit) ∧
      (Naming.mk "/p" id).memberPath table 0 = some (.bare (.ambient "m")) ∧
      (Naming.mk "/p" id).exportPath table 1 = some ⟨.ambient "m", ["default"]⟩) = true := by
    decide +kernel
  simp only [Option.any_eq_true, toOption_eq_some_iff, List.any_eq_true,
    decide_eq_true_eq] at hmerge
  obtain ⟨table, hmerge, aliasFact, halias, hroot, hmembers, hbase, hexport⟩ := hmerge
  refine ⟨table, hmerge, descent_of_root halias hroot hmembers (by decide), hexport, ?_⟩
  intro hkeeps
  obtain ⟨segments, hdefault, hcreate⟩ := hkeeps _ _ hbase hexport
  simp only [ExportPath.extend, ExportPath.bare, List.nil_append, ExportPath.mk.injEq,
    true_and] at hdefault
  subst hdefault
  exact absurd hcreate (by decide)

end Program

end MonikerIndex
