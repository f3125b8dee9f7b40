import MonikerIndex.Proofs.Sites
import Mathlib.Algebra.Order.BigOperators.Group.List

/-!
# The forest of records

A symbol is settled after its parent, so a group can only get a parent that stands before it
(`Group.Reached.parentsFirst`). In a merged table this makes the way up from a record end before
its steps run out: the chain of a record is the record, followed by the chain of its parent
(`Forest.chain_of_parent`). The members of a record are exactly the records whose parent it is.

What is to be shown of all records can be shown from the top down (`Forest.induct`), and so the
chain of a record is seen to lead up to a record without a parent (`Forest.leadsUp_chain`).

Main statement: `merge_orderedForest`.
-/

namespace MonikerIndex

/-! ### Groups -/

namespace Group

variable {program : Program} {groups : List Group}

/-- Whether the parent of each group stands before it. -/
def ParentsFirst (groups : List Group) : Prop :=
  ∀ i parent : Nat, (groups.map Group.parent)[i]? = some (some parent) → parent < i

theorem parentIn_lt {symbol : Symbol} {parent : Nat} (h : parentIn groups symbol = some parent) :
    parent < groups.length := by
  obtain ⟨handle, -, hfind⟩ := Option.bind_eq_some_iff.mp h
  exact (List.findIdx?_eq_some_iff_getElem.mp hfind).1

theorem Settling.parentsFirst {symbol : Symbol} {result : List Group}
    (hstep : Settling program groups symbol result) (h : ParentsFirst groups) :
    ParentsFirst result := by
  cases hstep with
  | known _ => exact h
  | joined hnew hgroups hspace hname =>
    subst hgroups
    simpa only [ParentsFirst, List.map_append, List.map_cons, absorb] using h
  | started hnew hfresh =>
    intro i parent hi
    rw [List.map_append, List.getElem?_append] at hi
    split at hi
    · exact h i parent hi
    · rename_i hlast
      rw [List.length_map] at hlast hi
      obtain ⟨hlt, hget⟩ := List.getElem?_eq_some_iff.mp hi
      have hzero : i - groups.length = 0 := by
        simpa using hlt
      simp only [hzero] at hget
      have hparent := parentIn_lt hget
      omega

theorem Reached.parentsFirst (h : Reached program groups) : ParentsFirst groups := by
  induction h with
  | nil => simp [ParentsFirst]
  | step _ _ hstep ih => exact hstep.parentsFirst ih

/-- There are no more groups than handles, as each group has a handle of its own. -/
theorem Settled.length_le (h : Settled program groups) (hreached : Reached program groups) :
    groups.length ≤ UInt32.size := by
  have hhandled : groups.length ≤ (groups.flatMap Group.handles).length := by
    rw [List.length_flatMap, ← List.length_map fun group => group.handles.length]
    apply List.length_le_sum_of_one_le
    intro length hlength
    obtain ⟨group, hgroup, rfl⟩ := List.mem_map.mp hlength
    obtain ⟨founder, -, hhandle, -⟩ := hreached.founded group hgroup
    exact List.length_pos_of_mem hhandle
  have hnumbers : ((groups.flatMap Group.handles).map UInt32.toNat).Nodup :=
    h.handles_nodup.map fun _ _ => UInt32.toNat_inj.mp
  have hbelow : (groups.flatMap Group.handles).map UInt32.toNat ⊆ List.range UInt32.size := by
    intro number hnumber
    obtain ⟨handle, -, rfl⟩ := List.mem_map.mp hnumber
    exact List.mem_range.mpr handle.toNat_lt_size
  have hle := (List.subperm_of_subset hnumbers hbelow).length_le
  rw [List.length_map, List.length_range] at hle
  exact Nat.le_trans hhandled hle

end Group

/-! ### Tables -/

namespace SymbolTable

variable {table : SymbolTable} {id : Nat} {record : Record}

/-- A table in which parents stand before their members, and every record knows its members. -/
structure Forest (table : SymbolTable) : Prop where
  parent_lt : ∀ id record, table.record? id = some record → ∀ parent,
    record.parent = some parent → parent < id
  mem_children_iff : ∀ id record, table.record? id = some record → ∀ child,
    child ∈ record.children ↔ ∃ member, table.record? child = some member ∧ member.parent = some id

theorem mem_childrenOf_iff {groups : List Group} {child : Nat} :
    child ∈ childrenOf (groups.mapIdx recordOf) id ↔
      ∃ group, groups[child]? = some group ∧ group.parent = some id := by
  simp only [childrenOf, List.mem_map, mem_sortBy, List.mem_filter, beq_iff_eq]
  constructor
  · rintro ⟨member, ⟨hmember, hparent⟩, rfl⟩
    obtain ⟨i, hi, rfl⟩ := List.mem_mapIdx.mp hmember
    exact ⟨groups[i], List.getElem?_eq_getElem hi, hparent⟩
  · rintro ⟨group, hgroup, hparent⟩
    obtain ⟨hlt, rfl⟩ := List.getElem?_eq_some_iff.mp hgroup
    exact ⟨recordOf child groups[child], ⟨List.mem_mapIdx.mpr ⟨child, hlt, rfl⟩, hparent⟩, rfl⟩

theorem forest_ofGroups {groups : List Group} (h : Group.ParentsFirst groups) :
    (ofGroups groups).Forest := by
  refine ⟨?_, ?_⟩
  · intro id record hrecord parent hparent
    rw [record?_ofGroups] at hrecord
    obtain ⟨group, hgroup, rfl⟩ := Option.map_eq_some_iff.mp hrecord
    apply h
    rw [List.getElem?_map, hgroup]
    exact congrArg some hparent
  · intro id record hrecord child
    rw [record?_ofGroups] at hrecord
    obtain ⟨group, hgroup, rfl⟩ := Option.map_eq_some_iff.mp hrecord
    rw [mem_childrenOf_iff, record?_ofGroups]
    constructor
    · rintro ⟨inner, hinner, hparent⟩
      exact ⟨_, by rw [hinner]; rfl, hparent⟩
    · rintro ⟨member, hmember, hparent⟩
      obtain ⟨inner, hinner, rfl⟩ := Option.map_eq_some_iff.mp hmember
      exact ⟨inner, hinner, hparent⟩

/-- The way up from a record takes no more steps than the record's place tells. -/
theorem Forest.ascend_eq (h : table.Forest) {steps : Nat} (hsteps : id < steps) :
    table.ascend steps id = table.chain id := by
  induction id using Nat.strongRecOn generalizing steps with
  | ind id ih =>
    obtain ⟨steps, rfl⟩ := Nat.exists_eq_add_one_of_ne_zero (Nat.ne_zero_of_lt hsteps)
    rw [chain, ascend, ascend]
    cases hrecord : table.record? id with
    | none => rfl
    | some record =>
      dsimp only
      cases hparent : record.parent with
      | none => rfl
      | some parent =>
        have hlt := h.parent_lt id record hrecord parent hparent
        have hmore := ih parent hlt (Nat.lt_of_lt_of_le hlt (Nat.le_of_lt_succ hsteps))
        dsimp only
        rw [hmore, ih parent hlt hlt]

theorem Forest.chain_of_parent (h : table.Forest) (hrecord : table.record? id = some record)
    {parent : Nat} (hparent : record.parent = some parent) :
    table.chain id = record :: table.chain parent := by
  rw [chain, ascend, hrecord]
  simp only [hparent]
  rw [h.ascend_eq (h.parent_lt id record hrecord parent hparent)]

theorem chain_ne_nil (hrecord : table.record? id = some record) : table.chain id ≠ [] := by
  rw [chain, ascend, hrecord]
  exact List.cons_ne_nil _ _

theorem chain_of_top (hrecord : table.record? id = some record) (hparent : record.parent = none) :
    table.chain id = [record] := by
  rw [chain, ascend, hrecord]
  simp only [hparent]

theorem Forest.exists_container (h : table.Forest) (hrecord : table.record? id = some record)
    {parent : Nat} (hparent : record.parent = some parent) :
    ∃ container, table.record? parent = some container := by
  have hlt := h.parent_lt id record hrecord parent hparent
  have hbound := (List.getElem?_eq_some_iff.mp hrecord).1
  exact ⟨table.records[parent], List.getElem?_eq_getElem (Nat.lt_trans hlt hbound)⟩

/-- What holds of every record without a parent, and of every other one if it holds of its parent,
    holds of all records. -/
theorem Forest.induct (h : table.Forest) {motive : Nat → Record → Prop}
    (top : ∀ id record, table.record? id = some record → record.parent = none → motive id record)
    (inner : ∀ id record parent container, table.record? id = some record →
      record.parent = some parent → table.record? parent = some container →
      motive parent container → motive id record) :
    ∀ id record, table.record? id = some record → motive id record := by
  intro id
  induction id using Nat.strongRecOn with
  | ind id ih =>
    intro record hrecord
    cases hparent : record.parent with
    | none => exact top id record hrecord hparent
    | some parent =>
      have hlt := h.parent_lt id record hrecord parent hparent
      obtain ⟨container, hcontainer⟩ := h.exists_container hrecord hparent
      exact inner id record parent container hrecord hparent hcontainer
        (ih parent hlt container hcontainer)

/-- Records that lead from a given one up to the top, each being the parent of the one before. -/
structure LeadsUp (record : Record) (records : List Record) : Prop where
  first : records.head? = some record
  parents : records.IsChain fun inner outer => inner.parent = some outer.id
  decreasing : records.Pairwise fun inner outer => outer.id < inner.id
  last : ∃ top, records.getLast? = some top ∧ top.parent = none

theorem Forest.leadsUp_chain (h : table.Forest)
    (hids : ∀ id record, table.record? id = some record → record.id = id) :
    ∀ id record, table.record? id = some record → LeadsUp record (table.chain id) := by
  refine h.induct ?_ ?_
  · intro id record hrecord hparent
    rw [chain_of_top hrecord hparent]
    exact ⟨rfl, List.isChain_singleton _, List.pairwise_singleton _ _, record, rfl, hparent⟩
  · intro id record parent container hrecord hparent hcontainer ih
    obtain ⟨rest, hchain⟩ := List.head?_eq_some_iff.mp ih.first
    have hnext : container.id = parent := hids parent container hcontainer
    have hlt : container.id < record.id := by
      rw [hnext, hids id record hrecord]
      exact h.parent_lt id record hrecord parent hparent
    obtain ⟨top, hlast, htop⟩ := ih.last
    rw [h.chain_of_parent hrecord hparent]
    refine ⟨rfl, List.isChain_cons.mpr ⟨?_, ih.parents⟩,
      List.pairwise_cons.mpr ⟨?_, ih.decreasing⟩, top, ?_, htop⟩
    · intro outer houter
      rw [ih.first] at houter
      cases houter
      rw [hparent, hnext]
    · intro outer houter
      have hdecreasing := ih.decreasing
      rw [hchain] at houter hdecreasing
      rcases List.mem_cons.mp houter with rfl | houter
      · exact hlt
      · exact Nat.lt_trans ((List.pairwise_cons.mp hdecreasing).1 outer houter) hlt
    · rw [hchain, List.getLast?_cons_cons, ← hchain, hlast]

/-! ### The order of members -/

/-- Whether the first site of one record does not come after the first site of another. -/
def DeclaredFirst (table : SymbolTable) (id other : Nat) : Prop :=
  ∃ record record' site site', table.record? id = some record ∧
    table.record? other = some record' ∧ record.canonical? = some site ∧
    record'.canonical? = some site' ∧ (compare site.place site'.place).isLE

theorem children_ofGroups {groups : List Group} (h : record ∈ (ofGroups groups).records) :
    record.children = childrenOf (groups.mapIdx recordOf) record.id := by
  obtain ⟨member, -, rfl⟩ := List.mem_map.mp h
  rfl

theorem map_id_mapIdx (groups : List Group) :
    (groups.mapIdx recordOf).map Record.id = List.range groups.length := by
  refine List.ext_getElem (by simp) ?_
  intro i hi hi'
  simp [recordOf]

theorem nodup_childrenOf (groups : List Group) (id : Nat) :
    (childrenOf (groups.mapIdx recordOf) id).Nodup := by
  have hids : ((groups.mapIdx recordOf).map Record.id).Nodup := by
    rw [map_id_mapIdx]
    exact List.nodup_range
  exact ((sortBy_perm _ _).map Record.id).nodup_iff.mpr (hids.sublist (List.filter_sublist.map _))

theorem exists_canonical_of_mem_mapIdx {groups : List Group}
    (hsited : ∀ group ∈ groups, group.sites ≠ []) {member : Record}
    (hmember : member ∈ groups.mapIdx recordOf) : ∃ record site,
      (ofGroups groups).record? member.id = some record ∧ record.canonical? = some site ∧
        member.canonical? = some site := by
  obtain ⟨i, hi, rfl⟩ := List.mem_mapIdx.mp hmember
  obtain ⟨site, hsite⟩ := Option.isSome_iff_exists.mp (List.isSome_head?.mpr
    (Site.arrange_ne_nil (hsited groups[i] (List.getElem_mem hi))))
  refine ⟨{ recordOf i groups[i] with children := childrenOf (groups.mapIdx recordOf) i }, site,
    ?_, hsite, hsite⟩
  rw [record?_ofGroups]
  exact congrArg _ (List.getElem?_eq_getElem hi)

theorem pairwise_childrenOf {groups : List Group}
    (hsited : ∀ group ∈ groups, group.sites ≠ []) (id : Nat) :
    (childrenOf (groups.mapIdx recordOf) id).Pairwise (ofGroups groups).DeclaredFirst := by
  rw [childrenOf, List.pairwise_map]
  refine (pairwise_sortBy _).imp_of_mem ?_
  intro member member' hmember hmember' hle
  obtain ⟨record, site, hrecord, hsite, hfirst⟩ := exists_canonical_of_mem_mapIdx hsited
    (List.mem_of_mem_filter (mem_sortBy.mp hmember))
  obtain ⟨record', site', hrecord', hsite', hfirst'⟩ := exists_canonical_of_mem_mapIdx hsited
    (List.mem_of_mem_filter (mem_sortBy.mp hmember'))
  refine ⟨record, record', site, site', hrecord, hrecord', hsite, hsite', ?_⟩
  rwa [compareOn, hfirst, hfirst'] at hle

/-- A forest in which every record knows its place, which is a number of 32 bits, and lists each of
    its members once, in the order of their first sites. -/
structure OrderedForest (table : SymbolTable) : Prop extends Forest table where
  id_eq : ∀ id record, table.record? id = some record → record.id = id
  id_lt : ∀ id record, table.record? id = some record → id < UInt32.size
  children_nodup : ∀ record ∈ table.records, record.children.Nodup
  children_sorted : ∀ record ∈ table.records, record.children.Pairwise table.DeclaredFirst

end SymbolTable

namespace Program

variable {program : Program} {table : SymbolTable}

theorem merge_forest (h : program.merge = .ok table) : table.Forest := by
  obtain ⟨-, groups, rfl, hreached, -⟩ := exists_groups_of_merge h
  exact SymbolTable.forest_ofGroups hreached.parentsFirst

/-- The records of a merged program are an ordered forest. The way up from a record is the same
    however many steps are allowed beyond its place, and leads to a record without a parent. -/
theorem merge_orderedForest (h : program.merge = .ok table) :
    table.OrderedForest ∧ ∀ id record, table.record? id = some record →
      (∀ steps, id < steps → table.ascend steps id = table.chain id) ∧
        SymbolTable.LeadsUp record (table.chain id) := by
  have hforest := merge_forest h
  have hids := (merge_grounded h).id_eq
  obtain ⟨hconsistent, groups, rfl, hreached, hsettled⟩ := exists_groups_of_merge h
  refine ⟨⟨hforest, hids, ?_, ?_, ?_⟩, ?_⟩
  · intro id record hrecord
    rw [SymbolTable.record?_ofGroups] at hrecord
    obtain ⟨group, hgroup, -⟩ := Option.map_eq_some_iff.mp hrecord
    have hlt := (List.getElem?_eq_some_iff.mp hgroup).1
    exact Nat.lt_of_lt_of_le hlt (hsettled.length_le hreached)
  · intro record hrecord
    rw [SymbolTable.children_ofGroups hrecord]
    exact SymbolTable.nodup_childrenOf groups record.id
  · intro record hrecord
    rw [SymbolTable.children_ofGroups hrecord]
    apply SymbolTable.pairwise_childrenOf
    intro group hgroup
    exact (hreached.sited hconsistent group hgroup).nonempty
  · intro id record hrecord
    exact ⟨fun steps hsteps => hforest.ascend_eq hsteps,
      hforest.leadsUp_chain hids id record hrecord⟩

/-- A namespace with two classes. A method of the first is declared in the first file, the second
    class in the next one, and the rest in the last. -/
def scattered : Program where
  root := "/p"
  documents := [.script "/p/a.ts", .script "/p/b.ts", .script "/p/c.ts"]
  symbols := [
    { handle := 1, name := some "Shop", kind := .namespaceBlock
      declarations := [{ file := "/p/c.ts", span := .onLine 0 10 14 }] },
    { handle := 2, name := some "Cart", kind := .classType, parent := some 1
      declarations := [{ file := "/p/c.ts", span := .onLine 1 15 19, exported := true }] },
    { handle := 3, name := some "pay", kind := .method, parent := some 2
      declarations := [{ file := "/p/a.ts", span := .onLine 0 2 5, exported := true }] },
    { handle := 4, name := some "Desk", kind := .classType, parent := some 1
      declarations := [{ file := "/p/b.ts", span := .onLine 0 15 19, exported := true }] }]

/-- The first class is settled before the second, as its method needs it, but is declared after it. -/
theorem merge_scattered_orderedForest : ∃ table, scattered.merge = .ok table ∧
    (table.record? 0).map Record.children = some [3, 1] ∧
    (table.chain 2).map Record.id = [2, 1, 0] ∧ table.OrderedForest ∧
    ∃ record, table.record? 2 = some record ∧ record.name = some "pay" ∧
      table.ascend 1000 2 = table.chain 2 ∧ SymbolTable.LeadsUp record (table.chain 2) := by
  have hmerge : scattered.merge.toOption.any (fun table => (table.record? 2).any fun record =>
      (table.record? 0).map Record.children = some [3, 1] ∧
      (table.chain 2).map Record.id = [2, 1, 0] ∧ record.name = some "pay") = true := by
    decide +kernel
  simp only [Option.any_eq_true, toOption_eq_some_iff, decide_eq_true_eq] at hmerge
  obtain ⟨table, hmerge, record, hrecord, hchildren, hchain, hname⟩ := hmerge
  obtain ⟨hforest, hup⟩ := merge_orderedForest hmerge
  obtain ⟨hsteps, hleads⟩ := hup 2 record hrecord
  exact ⟨table, hmerge, hchildren, hchain, hforest, record, hrecord, hname,
    hsteps 1000 (by decide), hleads⟩

end Program

end MonikerIndex
