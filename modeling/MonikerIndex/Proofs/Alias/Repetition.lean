import MonikerIndex.Proofs.Alias.Publication
import MonikerIndex.Proofs.Emission.Run
import MonikerIndex.Proofs.Repeats

/-!
# An alias that is reported twice

A second report of an alias leads to every record that the first one led to, and under the same
path. Where the alias has a container it does so on every walk through the container, on some walks
more than once. None of this shows in the graph: whatever is met again has been met before, and the
identifier was taken then at the latest.

So the visits of the larger program are those of the smaller one with repetitions (`Repeats`). The
relation goes from the aliases to their links, to the steps from each record, to the visits
(`repeats_visits`) and through the publication of the visits (`Repeats.foldlM_publish`).

Main statement: `index_addAlias_of_mem`.
-/

namespace MonikerIndex

/-! ### Repeated visits -/

theorem repeats_visitsFrom {steps steps' : List (List Step)}
    (h : ∀ id : Nat, Repeats [] ((steps[id]?).getD []) ((steps'[id]?).getD [])) (room : Nat)
    (passed : List Nat) (visit : Visit) :
    Repeats [] (visitsFrom steps room passed visit) (visitsFrom steps' room passed visit) := by
  induction room generalizing passed visit with
  | zero => exact .nil
  | succ room ih =>
    rw [visitsFrom, visitsFrom]
    split
    · exact .nil
    · exact .keep ((h visit.record).flatMap (fun step => ih _ _) (by simp))

theorem SymbolTable.repeats_steps (table : SymbolTable) {links links' : List Link}
    (h : Repeats [] links links') (id : Nat) :
    Repeats [] (((table.steps links)[id]?).getD []) (((table.steps links')[id]?).getD []) := by
  simp only [steps, List.getElem?_map]
  cases table.records[id]? with
  | none => exact .nil
  | some record =>
    -- the members are the same, and the links come after them
    exact (Repeats.refl [] _).append ((h.filterMap _).mono (List.nil_subset _))

/-- Repeated links make repeated visits. -/
theorem SymbolTable.repeats_visits (table : SymbolTable) {links links' : List Link}
    (h : Repeats [] links links') : Repeats [] (table.visits links) (table.visits links') :=
  (h.filterMap Link.start?).flatMap
    (repeats_visitsFrom (table.repeats_steps h) table.records.length []) (by simp)

/-! ### Publication -/

namespace Publication

variable {scheme : String} {canonical : Nat → Option Canonical} {state state' : Publication}
  {visit : Visit}

/-- Whether two states agree in all that decides what is emitted. The counts may differ. -/
structure Agrees (state state' : Publication) : Prop where
  graph : state'.graph = state.graph
  taken : state'.taken = state.taken

/-- Whether a visit has nothing to emit any more. -/
def Settles (canonical : Nat → Option Canonical) (state : Publication) (visit : Visit) : Prop :=
  ∀ moniker, canonical visit.record = some moniker →
    (visit.path.identifier == moniker.identifier ||
      state.taken.contains visit.path.identifier) = true

theorem publish_of_settles (scheme : String) (h : state.Settles canonical visit) :
    ∃ after, publish scheme canonical state visit = .ok after ∧ state.Agrees after := by
  unfold publish
  cases hcanonical : canonical visit.record with
  | none => exact ⟨state, rfl, rfl, rfl⟩
  | some moniker =>
    dsimp only
    rw [if_pos (h moniker hcanonical)]
    exact ⟨_, rfl, rfl, rfl⟩

/-- A visit that is published has nothing to emit from then on, and neither have the earlier ones. -/
theorem settles_of_publish {after : Publication}
    (h : publish scheme canonical state visit = .ok after) {other : Visit}
    (hother : other = visit ∨ state.Settles canonical other) : after.Settles canonical other := by
  unfold publish at h
  cases hcanonical : canonical visit.record with
  | none =>
    rw [hcanonical] at h
    cases h
    rcases hother with rfl | hother
    · intro moniker hmoniker
      rw [hcanonical] at hmoniker
      cases hmoniker
    · exact hother
  | some moniker =>
    rw [hcanonical] at h
    dsimp only at h
    split at h
    · rename_i htaken
      cases h
      rcases hother with rfl | hother
      · intro moniker' hmoniker
        rw [hcanonical] at hmoniker
        cases hmoniker
        exact htaken
      · exact hother
    · obtain ⟨result, -, h⟩ := bind_eq_ok_iff.mp h
      cases h
      intro moniker' hmoniker
      rcases hother with rfl | hother
      · simp
      · have hbefore := hother moniker' hmoniker
        simp only [Bool.or_eq_true, List.contains_cons] at hbefore ⊢
        rcases hbefore with hsame | htaken
        · exact .inl hsame
        · exact .inr (.inr htaken)

theorem Agrees.publish {after : Publication} (hagrees : state.Agrees state')
    (h : publish scheme canonical state visit = .ok after) :
    ∃ after', Publication.publish scheme canonical state' visit = .ok after' ∧
      after.Agrees after' := by
  obtain ⟨hgraph, htaken⟩ := hagrees
  unfold Publication.publish at h ⊢
  cases hcanonical : canonical visit.record with
  | none =>
    rw [hcanonical] at h
    cases h
    exact ⟨state', rfl, hgraph, htaken⟩
  | some moniker =>
    rw [hcanonical] at h
    dsimp only at h ⊢
    rw [htaken, hgraph]
    split at h
    · rename_i hcond
      cases h
      rw [if_pos hcond]
      exact ⟨_, rfl, rfl, rfl⟩
    · rename_i hcond
      obtain ⟨result, hresult, h⟩ := bind_eq_ok_iff.mp h
      cases h
      rw [if_neg hcond, hresult]
      exact ⟨_, rfl, rfl, rfl⟩

end Publication

open Publication in
/-- Repeated visits are published to the same graph. -/
theorem Repeats.foldlM_publish {scheme : String} {canonical : Nat → Option Canonical}
    {seen visits visits' : List Visit} (h : Repeats seen visits visits')
    {state state' final : Publication} (hagrees : state.Agrees state')
    (hseen : ∀ visit ∈ seen, state.Settles canonical visit)
    (hrun : visits.foldlM (publish scheme canonical) state = .ok final) :
    ∃ final', visits'.foldlM (publish scheme canonical) state' = .ok final' ∧
      final.Agrees final' := by
  induction h generalizing state state' with
  | nil =>
    cases hrun
    exact ⟨state', rfl, hagrees⟩
  | @keep seen visits visits' visit _ ih =>
    obtain ⟨after, hafter, hrun⟩ := bind_eq_ok_iff.mp hrun
    obtain ⟨after', hafter', hagrees'⟩ := hagrees.publish hafter
    have hseen' : ∀ other ∈ visit :: seen, after.Settles canonical other := by
      intro other hother
      apply settles_of_publish hafter
      rcases List.mem_cons.mp hother with rfl | hother
      · exact .inl rfl
      · exact .inr (hseen other hother)
    obtain ⟨final', hfinal', hagrees''⟩ := ih hagrees' hseen' hrun
    refine ⟨final', ?_, hagrees''⟩
    rw [List.foldlM_cons, hafter']
    exact hfinal'
  | @again seen visits visits' visit hvisit _ ih =>
    have hsettles : state'.Settles canonical visit := by
      intro moniker hmoniker
      rw [hagrees.taken]
      exact hseen visit hvisit moniker hmoniker
    obtain ⟨after', hafter', hagrees'⟩ := publish_of_settles scheme hsettles
    obtain ⟨final', hfinal', hagrees''⟩ := ih
      ⟨hagrees'.graph.trans hagrees.graph, hagrees'.taken.trans hagrees.taken⟩ hseen hrun
    refine ⟨final', ?_, hagrees''⟩
    rw [List.foldlM_cons, hafter']
    exact hfinal'

/-! ### Runs -/

namespace Program

variable {program : Program} {aliasFact : Alias}

theorem ascend_addAlias (program : Program) (aliasFact : Alias) (steps : Nat)
    (below : List Handle) (symbol : Symbol) :
    (program.addAlias aliasFact).ascend steps below symbol = program.ascend steps below symbol := by
  induction steps generalizing below symbol with
  | zero => rfl
  | succ steps ih =>
    simp only [ascend, ih]
    rfl

theorem merge_addAlias {table : SymbolTable} (h : program.merge = .ok table) :
    (program.addAlias aliasFact).merge = .ok table := by
  obtain ⟨hconsistent, lineages, hlineages, rfl⟩ := merge_eq_ok_iff.mp h
  have hlineage : (program.addAlias aliasFact).lineage = program.lineage := by
    funext symbol
    unfold lineage
    rw [ascend_addAlias]
    rfl
  refine merge_eq_ok_iff.mpr ⟨⟨hconsistent.handles_nodup, hconsistent.declared,
    hconsistent.inDocuments, hconsistent.parents⟩, lineages, ?_, rfl⟩
  rw [hlineage]
  exact hlineages

theorem links_addAlias {naming : Naming} {table : SymbolTable} {links : List Link}
    (hmem : aliasFact ∈ program.aliases) (h : program.links naming table = .ok links) :
    ∃ links', (program.addAlias aliasFact).links naming table = .ok links' ∧
      Repeats [] links links' :=
  (Repeats.sortBy_append hmem).mapM (by simp) h

theorem publishAliases_addAlias {naming : Naming} {table : SymbolTable}
    {canonical : Nat → Option Canonical} {scheme : String} {graph : Graph}
    {result : Graph × AliasStats} (hmem : aliasFact ∈ program.aliases)
    (h : program.publishAliases naming table canonical scheme graph = .ok result) :
    ∃ stats, (program.addAlias aliasFact).publishAliases naming table canonical scheme graph =
      .ok (result.1, stats) := by
  obtain ⟨links, hlinks, h⟩ := bind_eq_ok_iff.mp h
  obtain ⟨final, hfinal, h⟩ := bind_eq_ok_iff.mp h
  cases h
  obtain ⟨links', hlinks', hrepeats⟩ := links_addAlias hmem hlinks
  obtain ⟨final', hfinal', hagrees⟩ := (table.repeats_visits hrepeats).foldlM_publish ⟨rfl, rfl⟩
    (by simp) hfinal
  rw [publishAliases, hlinks', ← hagrees.graph]
  change ∃ stats, ((table.visits links').foldlM (Publication.publish scheme canonical) _ >>= _) =
    .ok (final'.graph, stats)
  rw [hfinal']
  exact ⟨_, rfl⟩

/-- An alias that is reported once more changes nothing in the graph. -/
theorem index_addAlias_of_mem {options : IndexOptions} {index : Index}
    (h : program.index options = .ok index) (hmem : aliasFact ∈ program.aliases) :
    ∃ again, (program.addAlias aliasFact).index options = .ok again ∧
      again.graph = index.graph := by
  obtain ⟨_, hdocuments, h⟩ := bind_eq_ok_iff.mp h
  obtain ⟨table, hmerge, h⟩ := bind_eq_ok_iff.mp h
  obtain ⟨occurrences, hoccurrences, h⟩ := bind_eq_ok_iff.mp h
  obtain ⟨emission, hemission, h⟩ := bind_eq_ok_iff.mp h
  obtain ⟨labelling, hlabelling, h⟩ := bind_eq_ok_iff.mp h
  obtain ⟨⟨graph, stats⟩, hpublish, h⟩ := bind_eq_ok_iff.mp h
  cases h
  obtain ⟨stats', hpublish'⟩ := publishAliases_addAlias hmem hpublish
  refine ⟨⟨graph, stats'⟩, ?_, rfl⟩
  refine bind_eq_ok_iff.mpr ⟨_, hdocuments, bind_eq_ok_iff.mpr ⟨table, merge_addAlias hmerge, ?_⟩⟩
  refine bind_eq_ok_iff.mpr ⟨occurrences, hoccurrences, bind_eq_ok_iff.mpr ⟨emission, hemission, ?_⟩⟩
  exact bind_eq_ok_iff.mpr ⟨labelling, hlabelling,
    bind_eq_ok_iff.mpr ⟨(graph, stats'), hpublish', rfl⟩⟩

/-- The namespace that exports itself, with a second report of the alias inside it. More visits than
    before are found to be repetitions, and the graph is the same. -/
theorem index_mirrored_addAlias : ∃ index again, mirrored.index {} = .ok index ∧
    (mirrored.addAlias ⟨"/p/geometry.ts", .onLine 2 16 20, some 1, "Self", 1⟩).index {} =
      .ok again ∧
    (index.graph.monikers.map (·.2.identifier) =
      ["geometry:Geometry", "geometry:Geometry.area", "geometry:Geometry.Self",
        "geometry:Geometry.Self.area", "geometry:Maths", "geometry:Maths.area"] ∧
      index.aliasStats.duplicates = 0 ∧ again.aliasStats.duplicates = 2) ∧
    again.graph = index.graph := by
  have hmonikers : (mirrored.index {}).toOption.map (fun index =>
      (index.graph.monikers.map (·.2.identifier), index.aliasStats.duplicates)) =
        some (["geometry:Geometry", "geometry:Geometry.area", "geometry:Geometry.Self",
          "geometry:Geometry.Self.area", "geometry:Maths", "geometry:Maths.area"], 0) := by
    decide +kernel
  have hduplicates : ((mirrored.addAlias
      ⟨"/p/geometry.ts", .onLine 2 16 20, some 1, "Self", 1⟩).index {}).toOption.map
        (·.aliasStats.duplicates) = some 2 := by
    decide +kernel
  obtain ⟨index, hindex, hmonikers⟩ := Option.map_eq_some_iff.mp hmonikers
  rw [toOption_eq_some_iff] at hindex
  rw [Prod.mk.injEq] at hmonikers
  obtain ⟨again, hagain, hgraph⟩ := index_addAlias_of_mem hindex
    (List.mem_cons_of_mem _ List.mem_cons_self)
  rw [hagain] at hduplicates
  exact ⟨index, again, hindex, hagain, ⟨hmonikers.1, hmonikers.2, Option.some.inj hduplicates⟩,
    hgraph⟩

end Program

end MonikerIndex
