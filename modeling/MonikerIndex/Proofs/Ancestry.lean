import MonikerIndex.Proofs.Consistency
import Mathlib.Logic.Relation
import Mathlib.Data.List.Nodup

/-!
# Ancestry

The parents of symbols form a relation between handles (`LiesIn`). Walking up from a symbol ends at
a symbol without a parent if the relation has no cycle, and only then: a lineage leaves no room for
a cycle (`Lineage.not_transGen`), and without cycles the handles passed on the way up are distinct,
so they run out before the steps do (`exists_ascend`).

Main statement: all symbols have lineages if and only if no symbol lies in itself
(`exists_settlingOrder_iff`).
-/

namespace MonikerIndex.Program

open Relation (TransGen)

variable {program : Program}

/-- Whether the symbol of one handle is reported with the other one as its parent. -/
def LiesIn (program : Program) (inner outer : Handle) : Prop :=
  ∃ symbol ∈ program.symbols, symbol.handle = inner ∧ symbol.parent = some outer

/-- Whether no symbol lies in itself, directly or through others. -/
def Acyclic (program : Program) : Prop :=
  ∀ handle, ¬TransGen program.LiesIn handle handle

theorem Consistent.parent_eq (hconsistent : program.Consistent) {symbol : Symbol}
    (hmem : symbol ∈ program.symbols) {outer : Handle}
    (h : program.LiesIn symbol.handle outer) : symbol.parent = some outer := by
  obtain ⟨other, hother, hhandle, hparent⟩ := h
  have heq : other = symbol :=
    List.inj_on_of_nodup_map hconsistent.handles_nodup hother hmem hhandle
  rw [← heq, hparent]

/-! ### Lineages exclude cycles -/

theorem Lineage.not_transGen (hconsistent : program.Consistent) {symbol : Symbol}
    {symbols : List Symbol} (h : program.Lineage symbol symbols) (hmem : symbol ∈ program.symbols) :
    ¬TransGen program.LiesIn symbol.handle symbol.handle := by
  induction h with
  | top hparent =>
    intro hcycle
    obtain ⟨outer, hstep, -⟩ := TransGen.head'_iff.mp hcycle
    rw [hconsistent.parent_eq hmem hstep] at hparent
    cases hparent
  | @inner symbol outer parent symbols hparent houter hrest ih =>
    intro hcycle
    obtain ⟨next, hstep, hback⟩ := TransGen.head'_iff.mp hcycle
    obtain ⟨houter', hhandle⟩ := mem_of_symbol? houter
    have hnext : next = outer.handle := by
      rw [hhandle]
      exact Option.some.inj ((hconsistent.parent_eq hmem hstep).symm.trans hparent)
    -- a cycle through the symbol goes through its parent as well
    apply ih houter'
    rw [← hnext]
    exact TransGen.tail' hback hstep

theorem acyclic_of_lineages (hconsistent : program.Consistent)
    (h : ∀ symbol ∈ program.symbols, ∃ symbols, program.Lineage symbol symbols) :
    program.Acyclic := by
  intro handle hcycle
  obtain ⟨outer, ⟨symbol, hmem, rfl, -⟩, -⟩ := TransGen.head'_iff.mp hcycle
  obtain ⟨symbols, hlineage⟩ := h symbol hmem
  exact hlineage.not_transGen hconsistent hmem hcycle

/-! ### Without cycles all lineages exist -/

/-- Distinct handles of symbols are at most as many as there are symbols. -/
theorem length_le_of_handles {below : List Handle} (hnodup : below.Nodup)
    (hreported : below ⊆ program.symbols.map Symbol.handle) :
    below.length ≤ program.symbols.length := by
  have hle := (List.subperm_of_subset hnodup hreported).length_le
  rwa [List.length_map] at hle

theorem exists_ascend (hconsistent : program.Consistent) (hacyclic : program.Acyclic) {steps : Nat}
    {below : List Handle} {symbol : Symbol} (hmem : symbol ∈ program.symbols)
    (hnodup : below.Nodup) (hreported : below ⊆ program.symbols.map Symbol.handle)
    (hbelow : ∀ handle ∈ below, TransGen program.LiesIn handle symbol.handle)
    (hsteps : steps + below.length = program.symbols.length + 1) :
    ∃ symbols, program.ascend steps below symbol = .ok symbols := by
  induction steps generalizing below symbol with
  | zero =>
    have hle := length_le_of_handles hnodup hreported
    omega
  | succ steps ih =>
    have hnew : symbol.handle ∉ below := fun hseen => hacyclic _ (hbelow _ hseen)
    simp only [ascend, List.contains_iff_mem, if_neg hnew]
    cases hparent : symbol.parent with
    | none => exact ⟨[symbol], rfl⟩
    | some parent =>
      obtain ⟨outer, houter⟩ := Option.isSome_iff_exists.mp
        (hconsistent.parents symbol hmem parent hparent)
      obtain ⟨houter', hhandle⟩ := mem_of_symbol? houter
      have hstep : program.LiesIn symbol.handle outer.handle :=
        ⟨symbol, hmem, rfl, hhandle ▸ hparent⟩
      have hbelow' : ∀ handle ∈ symbol.handle :: below,
          TransGen program.LiesIn handle outer.handle := by
        intro handle hhandle
        rcases List.mem_cons.mp hhandle with rfl | hhandle
        · exact TransGen.single hstep
        · exact (hbelow handle hhandle).tail hstep
      have hreported' : symbol.handle :: below ⊆ program.symbols.map Symbol.handle :=
        List.cons_subset.mpr ⟨List.mem_map_of_mem hmem, hreported⟩
      obtain ⟨symbols, hsymbols⟩ := ih houter' (List.nodup_cons.mpr ⟨hnew, hnodup⟩) hreported'
        hbelow' (by rw [List.length_cons]; omega)
      simp only [houter, hsymbols]
      exact ⟨_, rfl⟩

theorem exists_lineage (hconsistent : program.Consistent) (hacyclic : program.Acyclic)
    {symbol : Symbol} (hmem : symbol ∈ program.symbols) :
    ∃ symbols, program.lineage symbol = .ok symbols := by
  obtain ⟨symbols, hsymbols⟩ := exists_ascend hconsistent hacyclic hmem List.nodup_nil
    (List.nil_subset _) (by simp) (Nat.add_zero _)
  exact ⟨symbols.reverse, map_eq_ok_iff.mpr ⟨symbols, hsymbols, rfl⟩⟩

theorem kind_of_ascend_error {steps : Nat} {below : List Handle} {symbol : Symbol} {e : Error}
    (h : program.ascend steps below symbol = .error e) : e.kind = .inconsistency := by
  induction steps generalizing below symbol with
  | zero =>
    cases h
    rfl
  | succ steps ih =>
    simp only [ascend] at h
    split at h
    · cases h
      rfl
    · split at h
      · cases h
      · split at h
        · cases h
          rfl
        · exact ih (map_eq_error_iff.mp h)

/-! ### All symbols -/

theorem exists_lineage_error {e : Error} (h : program.settlingOrder = .error e) :
    ∃ symbol ∈ program.symbols, program.lineage symbol = .error e := by
  obtain ⟨symbol, hmem, herror⟩ := exists_error_of_mapM_eq_error (map_eq_error_iff.mp h)
  exact ⟨symbol, mem_sortBy.mp hmem, herror⟩

theorem kind_of_settlingOrder_error {e : Error} (h : program.settlingOrder = .error e) :
    e.kind = .inconsistency := by
  obtain ⟨symbol, -, herror⟩ := exists_lineage_error h
  exact kind_of_ascend_error (map_eq_error_iff.mp herror)

theorem exists_settlingOrder_iff (hconsistent : program.Consistent) :
    (∃ order, program.settlingOrder = .ok order) ↔ program.Acyclic := by
  constructor
  · rintro ⟨order, h⟩
    obtain ⟨lineages, hlineages, -⟩ := map_eq_ok_iff.mp h
    refine acyclic_of_lineages hconsistent fun symbol hmem => ?_
    obtain ⟨symbols, -, hsymbols⟩ := exists_mem_right_of_forall₂ (mapM_eq_ok_iff.mp hlineages)
      (mem_sortBy.mpr hmem)
    exact ⟨_, lineage_eq_ok hsymbols⟩
  · intro hacyclic
    cases horder : program.settlingOrder with
    | ok order => exact ⟨order, rfl⟩
    | error e =>
      obtain ⟨symbol, hmem, herror⟩ := exists_lineage_error horder
      obtain ⟨symbols, hsymbols⟩ := exists_lineage hconsistent hacyclic hmem
      rw [hsymbols] at herror
      cases herror

end MonikerIndex.Program
