import MonikerIndex.Proofs.Forest
import MonikerIndex.Visibility

/-!
# What visibility means

Visibility is computed from the outside in, and what it is computed to can be told at once from the
records around a record. A record is seen everywhere if the outermost record is public and every
other record on the way in is open, that is exported and not confined to a body. One that is not
open is hidden, whatever lies around it; an open one is at least scoped, even in a hidden container.

In a forest, the visibility of a record is a function of the record and of the visibility of its
parent (`visibility_eq_ofTop`, `Forest.visibility_eq_ofMember`), so all of this is shown along
`Forest.induct`.

Main statement: `merge_visibility_describes`.
-/

namespace MonikerIndex

/-! ### One record -/

namespace Record

/-- Whether a record is exported from its container and not confined to a body. -/
def IsOpen (record : Record) : Prop :=
  record.scope ≠ .confined ∧ record.exported = true

/-- Whether a record at the top level can be seen from everywhere: it is not confined to a body, and
    it is exported or does not belong to a module file. -/
def IsPublic (record : Record) : Prop :=
  record.scope ≠ .confined ∧ (record.exported = true ∨ ∀ file, record.space ≠ .moduleFile file)

theorem not_isOpen_iff {record : Record} :
    ¬record.IsOpen ↔ record.scope = .confined ∨ record.exported = false := by
  rw [IsOpen, Decidable.not_and_iff_or_not, Decidable.not_not, Bool.not_eq_true]

end Record

namespace Visibility

variable {container : Visibility} {record : Record}

theorem ofTop_eq (record : Record) :
    (record.IsPublic ∧ ofTop record = .everywhere) ∨
      (¬record.IsPublic ∧ ofTop record = .hidden) := by
  unfold ofTop Record.IsPublic
  by_cases hscope : record.scope = .confined
  · simp [hscope]
  · cases hspace : record.space with
    | moduleFile file =>
      cases hexported : record.exported with
      | true => simp [hscope]
      | false => simp [hscope]
    | global => simp [hscope]
    | container id => simp [hscope]
    | alone handle => simp [hscope]

theorem ofTop_eq_everywhere_iff : ofTop record = .everywhere ↔ record.IsPublic := by
  rcases ofTop_eq record with ⟨hpublic, htop⟩ | ⟨hprivate, htop⟩
  · simp [htop, hpublic]
  · simp [htop, hprivate]

theorem ofTop_eq_hidden_iff : ofTop record = .hidden ↔ ¬record.IsPublic := by
  rcases ofTop_eq record with ⟨hpublic, htop⟩ | ⟨hprivate, htop⟩
  · simp [htop, hpublic]
  · simp [htop, hprivate]

theorem ofTop_ne_scoped (record : Record) : ofTop record ≠ .scoped := by
  rcases ofTop_eq record with ⟨-, htop⟩ | ⟨-, htop⟩
  · simp [htop]
  · simp [htop]

theorem ofMember_of_isOpen (h : record.IsOpen) :
    ofMember container record = if container = .everywhere then .everywhere else .scoped := by
  simp [ofMember, h.1, h.2]

theorem ofMember_of_not_isOpen (h : ¬record.IsOpen) : ofMember container record = .hidden := by
  rcases Record.not_isOpen_iff.mp h with hscope | hexported
  · simp [ofMember, hscope]
  · simp [ofMember, hexported]

theorem ofMember_eq_everywhere_iff :
    ofMember container record = .everywhere ↔ container = .everywhere ∧ record.IsOpen := by
  by_cases hopen : record.IsOpen
  · rw [ofMember_of_isOpen hopen]
    by_cases hcontainer : container = .everywhere
    · simp [hcontainer, hopen]
    · simp [hcontainer]
  · simp [ofMember_of_not_isOpen hopen, hopen]

theorem ofMember_eq_hidden_iff : ofMember container record = .hidden ↔ ¬record.IsOpen := by
  by_cases hopen : record.IsOpen
  · rw [ofMember_of_isOpen hopen]
    by_cases hcontainer : container = .everywhere
    · simp [hcontainer, hopen]
    · simp [hcontainer, hopen]
  · simp [ofMember_of_not_isOpen hopen, hopen]

theorem ofNested_append {records : List Record} (hne : records ≠ []) (record : Record) :
    ofNested (records ++ [record]) = ofMember (ofNested records) record := by
  obtain ⟨top, members, rfl⟩ := List.exists_cons_of_ne_nil hne
  simp [ofNested, List.foldl_append]

/-- The visibility of a record, told by the outermost record `top` around it and the records `inner`
    from there to the record, which is one of these unless it is `top`. -/
structure Describes (visibility : Visibility) (record top : Record) (inner : List Record) :
    Prop where
  everywhere_iff : visibility = .everywhere ↔ top.IsPublic ∧ ∀ outer ∈ inner, outer.IsOpen
  hidden_iff : record ≠ top →
    (visibility = .hidden ↔ record.scope = .confined ∨ record.exported = false)
  scoped_iff : record ≠ top →
    (visibility = .scoped ↔ record.IsOpen ∧ ¬(top.IsPublic ∧ ∀ outer ∈ inner, outer.IsOpen))
  top_hidden_iff : record = top → (visibility = .hidden ↔ ¬top.IsPublic)
  top_not_scoped : record = top → visibility ≠ .scoped

theorem describes_ofTop (record : Record) : (ofTop record).Describes record record [] := by
  refine ⟨?_, fun hne => absurd rfl hne, fun hne => absurd rfl hne, fun _ => ?_, fun _ => ?_⟩
  · rw [ofTop_eq_everywhere_iff]
    simp
  · exact ofTop_eq_hidden_iff
  · exact ofTop_ne_scoped record

/-- One step further in. -/
theorem Describes.ofMember {outer top : Record} {inner : List Record}
    (h : container.Describes outer top inner) (hne : record ≠ top) :
    (Visibility.ofMember container record).Describes record top (record :: inner) := by
  have heverywhere : Visibility.ofMember container record = .everywhere ↔
      top.IsPublic ∧ ∀ outer ∈ record :: inner, outer.IsOpen := by
    rw [ofMember_eq_everywhere_iff, h.everywhere_iff, List.forall_mem_cons, and_assoc,
      and_comm (a := record.IsOpen)]
  refine ⟨heverywhere, fun _ => ?_, fun _ => ?_, fun heq => absurd heq hne,
    fun heq => absurd heq hne⟩
  · rw [ofMember_eq_hidden_iff, Record.not_isOpen_iff]
  · rw [← heverywhere]
    by_cases hopen : record.IsOpen
    · rw [ofMember_of_isOpen hopen]
      by_cases hcontainer : container = .everywhere
      · simp [hcontainer]
      · simp [hcontainer, hopen]
    · simp [ofMember_of_not_isOpen hopen, hopen]

end Visibility

/-! ### The records around a record -/

namespace SymbolTable

variable {table : SymbolTable} {id parent : Nat} {record : Record}

theorem visibility_eq_ofTop (hrecord : table.record? id = some record)
    (hparent : record.parent = none) : table.visibility id = Visibility.ofTop record := by
  rw [visibility, chain_of_top hrecord hparent]
  rfl

theorem Forest.visibility_eq_ofMember (h : table.Forest) (hrecord : table.record? id = some record)
    (hparent : record.parent = some parent) :
    table.visibility id = Visibility.ofMember (table.visibility parent) record := by
  obtain ⟨container, hcontainer⟩ := h.exists_container hrecord hparent
  have hne : (table.chain parent).reverse ≠ [] :=
    List.reverse_ne_nil_iff.mpr (chain_ne_nil hcontainer)
  rw [visibility, h.chain_of_parent hrecord hparent, List.reverse_cons,
    Visibility.ofNested_append hne]
  rfl

/-- The visibility of every record is told by the records around it. -/
theorem Forest.exists_describes (h : table.Forest) :
    ∀ id record, table.record? id = some record → ∃ inner top, table.chain id = inner ++ [top] ∧
      top.parent = none ∧ (table.visibility id).Describes record top inner := by
  refine h.induct ?_ ?_
  · intro id record hrecord hparent
    refine ⟨[], record, chain_of_top hrecord hparent, hparent, ?_⟩
    rw [visibility_eq_ofTop hrecord hparent]
    exact Visibility.describes_ofTop record
  · intro id record parent container hrecord hparent hcontainer
    rintro ⟨inner, top, hchain, htop, hdescribes⟩
    refine ⟨record :: inner, top, ?_, htop, ?_⟩
    · rw [h.chain_of_parent hrecord hparent, hchain, List.cons_append]
    · rw [h.visibility_eq_ofMember hrecord hparent]
      apply hdescribes.ofMember
      rintro rfl
      rw [htop] at hparent
      cases hparent

/-- What is seen everywhere lies in nothing but what is seen everywhere. -/
theorem Forest.visibility_of_mem_chain (h : table.Forest)
    (hids : ∀ id record, table.record? id = some record → record.id = id) :
    ∀ id record, table.record? id = some record → table.visibility id = .everywhere →
      ∀ outer ∈ table.chain id, table.visibility outer.id = .everywhere := by
  refine h.induct ?_ ?_
  · intro id record hrecord hparent hvisible outer houter
    rw [chain_of_top hrecord hparent] at houter
    rw [List.mem_singleton.mp houter, hids id record hrecord]
    exact hvisible
  · intro id record parent container hrecord hparent hcontainer ih hvisible outer houter
    rw [h.chain_of_parent hrecord hparent] at houter
    rcases List.mem_cons.mp houter with rfl | houter
    · rw [hids id outer hrecord]
      exact hvisible
    · rw [h.visibility_eq_ofMember hrecord hparent] at hvisible
      exact ih (Visibility.ofMember_eq_everywhere_iff.mp hvisible).1 outer houter

theorem getElem?_visibilities (hids : ∀ id record, table.record? id = some record → record.id = id)
    (id : Nat) : table.visibilities[id]? = (table.record? id).map fun _ => table.visibility id := by
  rw [visibilities, List.getElem?_map, ← record?]
  cases hrecord : table.record? id with
  | none => rfl
  | some record => rw [Option.map_some, Option.map_some, hids id record hrecord]

end SymbolTable

namespace Program

variable {program : Program} {table : SymbolTable} {id : Nat} {record : Record}

/-- Visibility has its declarative meaning for every record of a merged program. What is seen
    everywhere lies in nothing but what is seen everywhere, and the list of all visibilities has
    that of each record at the place of the record. -/
theorem merge_visibility_describes (h : program.merge = .ok table)
    (hrecord : table.record? id = some record) :
    (∃ inner top, table.chain id = inner ++ [top] ∧ top.parent = none ∧
      (table.visibility id).Describes record top inner) ∧
    (table.visibility id = .everywhere →
      ∀ outer ∈ table.chain id, table.visibility outer.id = .everywhere) ∧
    table.visibilities[id]? = some (table.visibility id) := by
  have hforest := merge_forest h
  have hids := (merge_grounded h).id_eq
  refine ⟨hforest.exists_describes id record hrecord,
    hforest.visibility_of_mem_chain hids id record hrecord, ?_⟩
  rw [SymbolTable.getElem?_visibilities hids, hrecord, Option.map_some]

/-- A module file that exports a namespace with a function. In the body of the function is a class
    with a method. -/
def till : Program where
  root := "/p"
  documents := [.moduleFile "/p/a.ts"]
  symbols := [
    { handle := 1, name := some "Shop", kind := .namespaceBlock
      declarations := [{ file := "/p/a.ts", span := .onLine 0 17 21, exported := true }] },
    { handle := 2, name := some "open", kind := .function, parent := some 1
      declarations := [{ file := "/p/a.ts", span := .onLine 1 18 22, exported := true }] },
    { handle := 3, name := some "Till", kind := .classType, parent := some 2, scope := .confined
      declarations := [{ file := "/p/a.ts", span := .onLine 2 10 14 }] },
    { handle := 4, name := some "count", kind := .method, parent := some 3
      declarations := [{ file := "/p/a.ts", span := .onLine 3 6 11, exported := true }] }]

/-- The method of the hidden class is scoped, which is less than what its file exports. -/
theorem merge_till_visibility : ∃ table record, till.merge = .ok table ∧
    table.record? 3 = some record ∧
    table.visibilities = [.everywhere, .everywhere, .hidden, .scoped] ∧
    ∃ inner top, table.chain 3 = inner ++ [top] ∧ top.parent = none ∧
      Visibility.scoped.Describes record top inner := by
  have hmerge : till.merge.toOption.any (fun table => (table.record? 3).any fun record =>
      table.visibilities = [.everywhere, .everywhere, .hidden, .scoped]) = true := by
    decide +kernel
  simp only [Option.any_eq_true, toOption_eq_some_iff, decide_eq_true_eq] at hmerge
  obtain ⟨table, hmerge, record, hrecord, hall⟩ := hmerge
  obtain ⟨⟨inner, top, hchain, htop, hdescribes⟩, -, hplace⟩ :=
    merge_visibility_describes hmerge hrecord
  rw [hall] at hplace
  rw [← Option.some.inj hplace] at hdescribes
  exact ⟨table, record, hmerge, hrecord, hall, inner, top, hchain, htop, hdescribes⟩

end Program

end MonikerIndex
