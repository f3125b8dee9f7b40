import MonikerIndex.Proofs.Outcome
import MonikerIndex.Proofs.Sorting
import MonikerIndex.SymbolTable.Merge
import Mathlib.Data.String.Basic

/-!
# Consistent programs

Merging begins with two checks and a walk up from each symbol. The checks accept exactly the
consistent programs (`check_eq_ok_iff`) and reject the others for being inconsistent
(`kind_of_check_error`). A walk that succeeds lists the lineage of its symbol (`lineage_of_ascend`).

A merge that succeeds is then a fold of `Group.settle` over lineages (`merge_eq_ok_iff`).
-/

namespace MonikerIndex

/-! ### Least places and files -/

/-- The least place is the one that no declaration precedes. -/
theorem Symbol.leastPlace?_eq_some_iff {symbol : Symbol} {place : Place} :
    symbol.leastPlace? = some place ↔
      place ∈ symbol.declarations.map Declaration.place ∧
        ∀ other ∈ symbol.declarations.map Declaration.place, (compare place other).isLE := by
  unfold Symbol.leastPlace?
  cases hplaces : symbol.declarations.map Declaration.place with
  | nil => simp
  | cons first others =>
    obtain ⟨hmem, hle⟩ := foldl_least (fun a b : Place => (compare a b).isLE)
      (fun a b => (compare a b).isLT) (fun a => Std.ReflOrd.isLE_rfl)
      (fun a b c => Std.TransOrd.isLE_trans) (fun a b h => by simp_all)
      (fun a b h => Std.OrientedCmp.isGE_iff_isLE.mp (by cases hab : compare a b <;> simp_all))
      first others
    constructor
    · intro h
      cases h
      exact ⟨hmem, hle⟩
    · rintro ⟨hmem', hle'⟩
      have heq : compare place (Place.least first others) = .eq :=
        Std.OrientedCmp.isLE_antisymm (hle' _ hmem) (hle _ hmem')
      exact congrArg some (Std.LawfulEqOrd.eq_of_compare heq).symm

theorem Symbol.leastPlace?_eq_none_iff {symbol : Symbol} :
    symbol.leastPlace? = none ↔ symbol.declarations = [] := by
  unfold Symbol.leastPlace?
  cases symbol.declarations with
  | nil => simp
  | cons first others => simp

/-- The least file is the one that comes first among the files of the declarations. -/
theorem Program.leastFile_spec {symbol : Symbol} (h : symbol.declarations ≠ []) :
    leastFile symbol ∈ symbol.declarations.map Declaration.file ∧
      ∀ file ∈ symbol.declarations.map Declaration.file, leastFile symbol ≤ file := by
  unfold leastFile
  cases hfiles : symbol.declarations.map Declaration.file with
  | nil => exact absurd (List.map_eq_nil_iff.mp hfiles) h
  | cons first others =>
    exact foldl_least (fun a b : String => a ≤ b) (fun a b => a < b) le_refl
      (fun a b c => le_trans) (fun a b => le_of_lt) (fun a b => le_of_not_gt) first others

namespace Program

variable {program : Program}

/-! ### Looking facts up -/

theorem hasDocument_iff {path : String} :
    program.hasDocument path = true ↔ ∃ document ∈ program.documents, document.path = path := by
  simp [hasDocument]

theorem isModuleFile_iff {path : String} :
    program.isModuleFile path = true ↔
      ∃ document ∈ program.documents, document.isModule = true ∧ document.path = path := by
  simp [isModuleFile]

theorem mem_of_symbol? {handle : Handle} {symbol : Symbol}
    (h : program.symbol? handle = some symbol) :
    symbol ∈ program.symbols ∧ symbol.handle = handle := by
  exact ⟨List.mem_of_find?_eq_some h, by simpa using List.find?_some h⟩

theorem isSome_symbol?_iff {handle : Handle} :
    (program.symbol? handle).isSome ↔ ∃ symbol ∈ program.symbols, symbol.handle = handle := by
  simp [symbol?]

/-- What the two checks ask for: handles are distinct, every symbol is declared and only in
    documents, and every parent is a symbol. -/
structure Consistent (program : Program) : Prop where
  handles_nodup : (program.symbols.map Symbol.handle).Nodup
  declared : ∀ symbol ∈ program.symbols, symbol.declarations ≠ []
  inDocuments : ∀ symbol ∈ program.symbols, ∀ declaration ∈ symbol.declarations,
    program.hasDocument declaration.file = true
  parents : ∀ symbol ∈ program.symbols, ∀ parent, symbol.parent = some parent →
    (program.symbol? parent).isSome

/-- With distinct handles, a symbol is found under its handle. -/
theorem Consistent.symbol?_handle (h : program.Consistent) {symbol : Symbol}
    (hmem : symbol ∈ program.symbols) : program.symbol? symbol.handle = some symbol := by
  obtain ⟨found, hfound⟩ := Option.isSome_iff_exists.mp
    (isSome_symbol?_iff.mpr ⟨symbol, hmem, rfl⟩)
  obtain ⟨hfound', hhandle⟩ := mem_of_symbol? hfound
  rw [hfound, List.inj_on_of_nodup_map h.handles_nodup hfound' hmem hhandle]

/-! ### The checks -/

theorem checkSymbols_eq_ok_iff {seen : List Handle} {symbols : List Symbol} :
    program.checkSymbols seen symbols = .ok () ↔
      (symbols.map Symbol.handle).Nodup ∧
      ∀ symbol ∈ symbols, symbol.handle ∉ seen ∧ symbol.declarations ≠ [] ∧
        ∀ declaration ∈ symbol.declarations, program.hasDocument declaration.file = true := by
  induction symbols generalizing seen with
  | nil => simp [checkSymbols]
  | cons symbol symbols ih =>
    simp only [checkSymbols]
    by_cases hseen : seen.contains symbol.handle
    · simp_all
    by_cases hempty : symbol.declarations.isEmpty
    · simp_all
    simp only [hseen, hempty, Bool.false_eq_true, if_false]
    cases hfind : symbol.declarations.find? (!program.hasDocument ·.file) with
    | some declaration =>
      have hout : program.hasDocument declaration.file = false := by
        simpa using List.find?_some hfind
      have hmem := List.mem_of_find?_eq_some hfind
      simp only [reduceCtorEq, false_iff]
      rintro ⟨-, h⟩
      have hin := (h symbol List.mem_cons_self).2.2 declaration hmem
      rw [hout] at hin
      cases hin
    | none =>
      have hin : ∀ declaration ∈ symbol.declarations,
          program.hasDocument declaration.file = true := by simpa using hfind
      simp only [ih, List.map_cons, List.nodup_cons, List.mem_cons, forall_eq_or_imp]
      constructor
      · rintro ⟨hnodup, h⟩
        refine ⟨⟨?_, hnodup⟩, ⟨by simpa using hseen, by simpa using hempty, hin⟩, ?_⟩
        · intro hmem
          obtain ⟨other, hother, heq⟩ := List.mem_map.mp hmem
          exact (h other hother).1 (Or.inl heq)
        · intro other hother
          exact ⟨fun hs => (h other hother).1 (Or.inr hs), (h other hother).2⟩
      · rintro ⟨⟨hnew, hnodup⟩, -, h⟩
        refine ⟨hnodup, fun other hother => ⟨?_, (h other hother).2⟩⟩
        rintro (heq | hs)
        · exact hnew (List.mem_map.mpr ⟨other, hother, heq⟩)
        · exact (h other hother).1 hs

theorem checkParents_eq_ok_iff {symbols : List Symbol} :
    program.checkParents symbols = .ok () ↔
      ∀ symbol ∈ symbols, ∀ parent, symbol.parent = some parent →
        (program.symbol? parent).isSome := by
  induction symbols with
  | nil => simp [checkParents]
  | cons symbol symbols ih =>
    simp only [checkParents]
    cases hparent : symbol.parent with
    | none => simp [ih, hparent]
    | some parent =>
      by_cases hknown : (program.symbol? parent).isSome
      · simp [ih, hparent, hknown]
      · simp [hparent, hknown]

theorem kind_of_checkSymbols_error {seen : List Handle} {symbols : List Symbol} {e : Error}
    (h : program.checkSymbols seen symbols = .error e) : e.kind = .inconsistency := by
  induction symbols generalizing seen with
  | nil => cases h
  | cons symbol symbols ih =>
    simp only [checkSymbols] at h
    split at h
    · cases h
      rfl
    · split at h
      · cases h
        rfl
      · split at h
        · cases h
          rfl
        · exact ih h

theorem kind_of_checkParents_error {symbols : List Symbol} {e : Error}
    (h : program.checkParents symbols = .error e) : e.kind = .inconsistency := by
  induction symbols with
  | nil => cases h
  | cons symbol symbols ih =>
    simp only [checkParents] at h
    split at h
    · split at h
      · exact ih h
      · cases h
        rfl
    · exact ih h

/-- Both checks of the reported symbols. -/
def check (program : Program) : Except Error Unit := do
  program.checkSymbols [] program.symbols
  program.checkParents program.symbols

/-- The checks accept exactly the consistent programs. -/
theorem check_eq_ok_iff : program.check = .ok () ↔ program.Consistent := by
  rw [check, bind_eq_ok_iff]
  constructor
  · rintro ⟨_, hsymbols, hparents⟩
    obtain ⟨hnodup, h⟩ := checkSymbols_eq_ok_iff.mp hsymbols
    exact ⟨hnodup, fun symbol hs => (h symbol hs).2.1, fun symbol hs => (h symbol hs).2.2,
      checkParents_eq_ok_iff.mp hparents⟩
  · intro h
    refine ⟨(), checkSymbols_eq_ok_iff.mpr ⟨h.handles_nodup, fun symbol hs => ?_⟩,
      checkParents_eq_ok_iff.mpr h.parents⟩
    exact ⟨List.not_mem_nil, h.declared symbol hs, h.inDocuments symbol hs⟩

theorem kind_of_check_error {e : Error} (h : program.check = .error e) :
    e.kind = .inconsistency := by
  unfold check at h
  cases hsymbols : program.checkSymbols [] program.symbols with
  | error e' =>
    rw [hsymbols] at h
    cases h
    exact kind_of_checkSymbols_error hsymbols
  | ok _ =>
    rw [hsymbols] at h
    exact kind_of_checkParents_error h

/-! ### Lineages -/

/-- The symbols from a given one up to the top, from the inside out. -/
inductive Lineage (program : Program) : Symbol → List Symbol → Prop where
  | top {symbol : Symbol} (h : symbol.parent = none) : Lineage program symbol [symbol]
  | inner {symbol outer : Symbol} {parent : Handle} {symbols : List Symbol}
      (h : symbol.parent = some parent) (houter : program.symbol? parent = some outer)
      (hrest : Lineage program outer symbols) : Lineage program symbol (symbol :: symbols)

theorem lineage_of_ascend {steps : Nat} {below : List Handle} {symbol : Symbol}
    {symbols : List Symbol} (h : program.ascend steps below symbol = .ok symbols) :
    program.Lineage symbol symbols := by
  induction steps generalizing below symbol symbols with
  | zero => cases h
  | succ steps ih =>
    simp only [ascend] at h
    split at h
    · cases h
    · split at h
      · rename_i hparent
        cases h
        exact .top hparent
      · rename_i parent hparent
        split at h
        · cases h
        · rename_i outer houter
          obtain ⟨rest, hrest, rfl⟩ := map_eq_ok_iff.mp h
          exact .inner hparent houter (ih hrest)

theorem lineage_eq_ok {symbol : Symbol} {symbols : List Symbol}
    (h : program.lineage symbol = .ok symbols) : program.Lineage symbol symbols.reverse := by
  obtain ⟨inner, hinner, rfl⟩ := map_eq_ok_iff.mp h
  rw [List.reverse_reverse]
  exact lineage_of_ascend hinner

/-! ### Merging -/

theorem merge_eq_bind (program : Program) :
    program.merge = program.check >>= fun _ =>
      program.settlingOrder.map fun order =>
        SymbolTable.ofGroups (order.foldl (Group.settle program) []) := by
  unfold merge check
  cases program.checkSymbols [] program.symbols with
  | error e => rfl
  | ok _ =>
    cases program.checkParents program.symbols with
    | error e => rfl
    | ok _ =>
      cases program.settlingOrder with
      | error e => rfl
      | ok order => rfl

/-- A merge succeeds on a consistent program whose symbols all have a lineage, and settles the
    lineages one after the other. -/
theorem merge_eq_ok_iff {table : SymbolTable} :
    program.merge = .ok table ↔
      program.Consistent ∧ ∃ lineages,
        program.sortedSymbols.mapM program.lineage = .ok lineages ∧
        table = SymbolTable.ofGroups (lineages.flatten.foldl (Group.settle program) []) := by
  rw [merge_eq_bind, bind_eq_ok_iff]
  simp only [map_eq_ok_iff, settlingOrder]
  constructor
  · rintro ⟨_, hcheck, order, ⟨lineages, hlineages, rfl⟩, rfl⟩
    exact ⟨check_eq_ok_iff.mp hcheck, lineages, hlineages, rfl⟩
  · rintro ⟨hconsistent, lineages, hlineages, rfl⟩
    exact ⟨(), check_eq_ok_iff.mpr hconsistent, _, ⟨lineages, hlineages, rfl⟩, rfl⟩

end Program

end MonikerIndex
