import MonikerIndex.Alias.Publish
import MonikerIndex.Proofs.Alias.Walks
import MonikerIndex.Proofs.Merging

/-!
# What the alias pass emits

The alias pass is specified without its recursion. The roots are the targets of the aliases that
have a base path; from a record one goes on to its exported members and then along the aliases of
which it is the container (`root?`, `nextVisits`). The walks without repetition are listed in
order, those that end in a record with a canonical moniker are kept, and each whose identifier is
that of a canonical moniker or of an earlier walk is dropped (`firstUses`). For each that is left,
the pass adds a moniker and attaches it to the canonical one (`attachAliases`).

Main statement: `publishAliases_emits_walks`.
-/

namespace MonikerIndex

/-! ### Growing a graph -/

namespace Graph

@[simp] theorem lastId_push (graph : Graph) (payload : Payload) :
    (graph.push payload).lastId = graph.lastId + 1 := by
  simp [lastId, push]

@[simp] theorem nextId_eq (graph : Graph) : graph.nextId = graph.lastId + 1 := rfl

theorem checkEdge_eq_ok_iff {id : Nat} {edge : Edge} :
    checkEdge id edge = .ok () ↔
      edge.allTargets ≠ [] ∧ ∀ endpoint ∈ edge.endpoints, 1 ≤ endpoint ∧ endpoint ≤ id - 1 := by
  have hfind : edge.endpoints.find? (isAhead id) = none ↔
      ∀ endpoint ∈ edge.endpoints, 1 ≤ endpoint ∧ endpoint ≤ id - 1 := by
    rw [List.find?_eq_none]
    refine forall₂_congr fun endpoint _ => ?_
    simp only [isAhead, Bool.or_eq_true, beq_iff_eq, decide_eq_true_eq]
    omega
  rw [← hfind, checkEdge]
  by_cases hempty : edge.allTargets = []
  · simp [hempty]
  · cases edge.endpoints.find? (isAhead id) with
    | none => simp [hempty]
    | some endpoint => simp [hempty]

/-- An edge between elements of the graph is accepted. -/
theorem emitEdge_eq_ok {graph : Graph} {edge : Edge} (htargets : edge.allTargets ≠ [])
    (h : ∀ endpoint ∈ edge.endpoints, 1 ≤ endpoint ∧ endpoint ≤ graph.lastId) :
    graph.emitEdge edge = .ok (graph.push (.edge edge), graph.nextId) := by
  have hcheck : checkEdge graph.nextId edge = .ok () := checkEdge_eq_ok_iff.mpr ⟨htargets, h⟩
  rw [emitEdge, hcheck]
  rfl

theorem emitEdge_attach {graph : Graph} {aliasVertex vertex : Nat}
    (halias : 1 ≤ aliasVertex ∧ aliasVertex ≤ graph.lastId)
    (hvertex : 1 ≤ vertex ∧ vertex ≤ graph.lastId) :
    graph.emitEdge (.attach aliasVertex vertex) =
      .ok (graph.push (.edge (.attach aliasVertex vertex)), graph.nextId) := by
  refine emitEdge_eq_ok (List.cons_ne_nil _ _) fun endpoint hmem => ?_
  rcases List.mem_cons.mp hmem with rfl | hmem
  · exact halias
  · exact List.mem_singleton.mp hmem ▸ hvertex

/-- The graph with an alias moniker for each identifier, attached to the canonical moniker of the
    record beside it. -/
def attachAliases (scheme : String) (canonical : Nat → Option Canonical) (graph : Graph)
    (pairs : List (String × Nat)) : Graph :=
  pairs.foldl (fun graph pair =>
    (graph.push (.vertex (.moniker ((Identity.exported pair.1).under scheme)))).push
      (.edge (.attach graph.nextId (((canonical pair.2).map Canonical.vertex).getD 0)))) graph

end Graph

/-! ### New identifiers -/

/-- The pairs whose identifier is neither taken nor that of an earlier pair. -/
def firstUses (taken : List String) (pairs : List (String × Nat)) : List (String × Nat) :=
  (pairs.zipIdx.filter fun pair =>
    pair.1.1 ∉ taken ∧ pair.1.1 ∉ (pairs.take pair.2).map Prod.fst).map Prod.fst

theorem firstUses_cons (taken : List String) (pair : String × Nat) (pairs : List (String × Nat)) :
    firstUses taken (pair :: pairs) =
      if pair.1 ∈ taken then firstUses taken pairs
      else pair :: firstUses (pair.1 :: taken) pairs := by
  have hshift : ∀ other : (String × Nat) × Nat,
      (other.1.1 ∉ taken ∧ other.1.1 ∉ ((pair :: pairs).take (other.2 + 1)).map Prod.fst) ↔
        other.1.1 ∉ pair.1 :: taken ∧ other.1.1 ∉ (pairs.take other.2).map Prod.fst := by
    intro other
    simp only [List.take_succ_cons, List.map_cons, List.mem_cons, not_or]
    tauto
  have hrest : ∀ taken' : List String, (∀ name, name ∈ taken' ↔ name ∈ pair.1 :: taken) →
      ((pairs.zipIdx 1).filter fun other =>
        other.1.1 ∉ taken ∧ other.1.1 ∉ ((pair :: pairs).take other.2).map Prod.fst).map Prod.fst =
        firstUses taken' pairs := by
    intro taken' htaken
    rw [List.zipIdx_succ, List.filter_map, List.map_map, firstUses]
    congr 1
    refine List.filter_congr fun other _ => ?_
    simp only [Function.comp_apply, hshift, htaken]
  unfold firstUses at *
  rw [List.zipIdx_cons, List.filter_cons]
  by_cases htaken : pair.1 ∈ taken
  · rw [if_pos htaken, if_neg (by simp [htaken])]
    refine hrest taken fun name => ?_
    simp only [List.mem_cons]
    exact ⟨Or.inr, fun h => h.elim (fun heq => heq ▸ htaken) id⟩
  · rw [if_neg htaken, if_pos (by simp [htaken]), List.map_cons,
      hrest (pair.1 :: taken) fun _ => Iff.rfl]

/-! ### Publishing visits -/

/-- The identifier that a visit gives its record, with the record, if that has a canonical
    moniker. -/
def Visit.use? (canonical : Nat → Option Canonical) (visit : Visit) : Option (String × Nat) :=
  (canonical visit.record).map fun _ => (visit.path.identifier, visit.record)

namespace Publication

variable {canonical : Nat → Option Canonical} {state : Publication}

/-- Publishing a visit succeeds. Either it changes nothing but the counts, or it attaches a moniker
    with a new identifier. -/
theorem publish_cases (scheme : String) {visit : Visit}
    (hvertex : ∀ id moniker, canonical id = some moniker →
      1 ≤ moniker.vertex ∧ moniker.vertex ≤ state.graph.lastId)
    (htaken : ∀ moniker, canonical visit.record = some moniker →
      moniker.identifier ∈ state.taken) :
    ∃ after, publish scheme canonical state visit = .ok after ∧
      ((after.graph = state.graph ∧ after.taken = state.taken ∧
          ∀ use, visit.use? canonical = some use → use.1 ∈ state.taken) ∨
        ∃ use, visit.use? canonical = some use ∧ use.1 ∉ state.taken ∧
          after.taken = use.1 :: state.taken ∧
          after.graph = state.graph.attachAliases scheme canonical [use]) := by
  unfold publish Visit.use?
  cases hcanonical : canonical visit.record with
  | none => exact ⟨state, rfl, Or.inl ⟨rfl, rfl, by simp⟩⟩
  | some moniker =>
    by_cases hmem : visit.path.identifier ∈ state.taken
    · simp only [List.contains_iff_mem.mpr hmem, Bool.or_true, if_true]
      refine ⟨_, rfl, Or.inl ⟨rfl, rfl, ?_⟩⟩
      simpa using hmem
    · have hown : visit.path.identifier ≠ moniker.identifier := fun heq =>
        hmem (heq ▸ htaken moniker hcanonical)
      have hnew : ¬((visit.path.identifier == moniker.identifier ||
          state.taken.contains visit.path.identifier) = true) := by simp [hown, hmem]
      obtain ⟨hpos, hle⟩ := hvertex _ _ hcanonical
      simp only [if_neg hnew, Graph.emitVertex]
      rw [Graph.emitEdge_attach (by simp) (by rw [Graph.lastId_push]; omega)]
      refine ⟨_, rfl, Or.inr ⟨_, rfl, hmem, rfl, ?_⟩⟩
      simp only [Graph.attachAliases, List.foldl_cons, List.foldl_nil, hcanonical, Option.map_some,
        Option.getD_some]

/-- Publishing all visits attaches a moniker for each new identifier. -/
theorem foldlM_publish (scheme : String) {visits : List Visit}
    (hvertex : ∀ id moniker, canonical id = some moniker →
      1 ≤ moniker.vertex ∧ moniker.vertex ≤ state.graph.lastId)
    (htaken : ∀ visit ∈ visits, ∀ moniker, canonical visit.record = some moniker →
      moniker.identifier ∈ state.taken) :
    ∃ final, visits.foldlM (publish scheme canonical) state = .ok final ∧
      final.graph = state.graph.attachAliases scheme canonical
        (firstUses state.taken (visits.filterMap (·.use? canonical))) := by
  induction visits generalizing state with
  | nil => exact ⟨state, rfl, rfl⟩
  | cons visit visits ih =>
    obtain ⟨after, hafter, hcases⟩ := publish_cases scheme hvertex
      (htaken visit List.mem_cons_self)
    rw [List.foldlM_cons, hafter, List.filterMap_cons]
    have hrest : ∀ v ∈ visits, ∀ moniker, canonical v.record = some moniker →
        moniker.identifier ∈ state.taken := fun v hv => htaken v (List.mem_cons_of_mem _ hv)
    rcases hcases with ⟨hgraph, htaken', huse⟩ | ⟨use, huse, hnew, htaken', hgraph⟩
    · obtain ⟨final, hfinal, hfinal'⟩ := @ih after (by rwa [hgraph]) (by rwa [htaken'])
      refine ⟨final, hfinal, ?_⟩
      rw [hfinal', hgraph, htaken']
      cases hsome : visit.use? canonical with
      | none => rfl
      | some use => simp only [firstUses_cons, if_pos (huse use hsome)]
    · have hgrown : after.graph.lastId = state.graph.lastId + 2 := by
        simp [hgraph, Graph.attachAliases]
      have hvertex' : ∀ id moniker, canonical id = some moniker →
          1 ≤ moniker.vertex ∧ moniker.vertex ≤ after.graph.lastId := by
        intro id moniker h
        obtain ⟨hpos, hle⟩ := hvertex id moniker h
        omega
      obtain ⟨final, hfinal, hfinal'⟩ := ih hvertex' (by
        rw [htaken']
        exact fun v hv moniker h => List.mem_cons_of_mem _ (hrest v hv moniker h))
      refine ⟨final, hfinal, ?_⟩
      rw [hfinal', hgraph, htaken', huse]
      simp only [firstUses_cons, if_neg hnew]
      rfl

end Publication

/-! ### Roots and steps, told by the aliases -/

namespace Alias

/-- The root of an alias that has a base path: its target, under its name. -/
def root? (aliasFact : Alias) (program : Program) (naming : Naming) (table : SymbolTable) :
    Option Visit := do
  let target ← table.resolve aliasFact.target
  let container := aliasFact.container.bind table.resolve
  let base ← (aliasFact.findBase program naming table container).toOption.join
  return ⟨target, base.child aliasFact.name⟩

/-- The step along an alias, from its container to its target. -/
def next? (aliasFact : Alias) (table : SymbolTable) (visit : Visit) : Option Visit := do
  let target ← table.resolve aliasFact.target
  if aliasFact.container.bind table.resolve = some visit.record then
    some ⟨target, visit.path.child aliasFact.name⟩
  else none

end Alias

namespace SymbolTable

/-- The step to a record, if it is named, exported and not hidden. -/
def member? (table : SymbolTable) (visit : Visit) (id : Nat) : Option Visit := do
  let member ← table.record? id
  let name ← member.name
  if member.exported ∧ table.visibility id ≠ .hidden then some ⟨id, visit.path.child name⟩ else none

/-- The steps from a visit: to the members of its record, then along the aliases. -/
def nextVisits (table : SymbolTable) (aliases : List Alias) (visit : Visit) : List Visit :=
  (((table.record? visit.record).map Record.children).getD []).filterMap (table.member? visit) ++
    aliases.filterMap (·.next? table visit)

theorem member?_eq_some_iff {table : SymbolTable} {visit after : Visit} {id : Nat} :
    table.member? visit id = some after ↔
      ∃ member name, table.record? id = some member ∧ member.name = some name ∧
        member.exported = true ∧ table.visibility id ≠ .hidden ∧
        after = ⟨id, visit.path.child name⟩ := by
  simp only [member?, Option.bind_eq_bind, Option.bind_eq_some_iff, Option.ite_none_right_eq_some,
    Option.some.injEq]
  constructor
  · rintro ⟨member, hmember, name, hname, ⟨hexported, hvisible⟩, rfl⟩
    exact ⟨member, name, hmember, hname, hexported, hvisible, rfl⟩
  · rintro ⟨member, name, hmember, hname, hexported, hvisible, rfl⟩
    exact ⟨member, hmember, name, hname, ⟨hexported, hvisible⟩, rfl⟩

/-- The steps from a visit to the members of its record. -/
def memberVisits (table : SymbolTable) (visit : Visit) : List Visit :=
  (((table.record? visit.record).map Record.children).getD []).filterMap (table.member? visit)

theorem mem_memberVisits_iff {table : SymbolTable} {visit after : Visit} :
    after ∈ table.memberVisits visit ↔
      ∃ record, table.record? visit.record = some record ∧ ∃ child ∈ record.children,
        table.member? visit child = some after := by
  rw [memberVisits, List.mem_filterMap]
  cases table.record? visit.record with
  | none => simp
  | some record => simp

theorem mem_nextVisits_iff {table : SymbolTable} {aliases : List Alias} {visit after : Visit} :
    after ∈ table.nextVisits aliases visit ↔ after ∈ table.memberVisits visit ∨
      ∃ aliasFact ∈ aliases, aliasFact.next? table visit = some after := by
  simp only [nextVisits, memberVisits, List.mem_append, List.mem_filterMap]

end SymbolTable

theorem Alias.root?_eq_some_iff {aliasFact : Alias} {program : Program} {naming : Naming}
    {table : SymbolTable} {root : Visit} :
    aliasFact.root? program naming table = some root ↔
      ∃ target base, table.resolve aliasFact.target = some target ∧
        aliasFact.findBase program naming table (aliasFact.container.bind table.resolve) =
          .ok (some base) ∧ root = ⟨target, base.child aliasFact.name⟩ := by
  simp only [root?, Option.bind_eq_bind, Option.bind_eq_some_iff, Option.join_eq_some_iff,
    toOption_eq_some_iff, Option.pure_def, Option.some.injEq]
  constructor
  · rintro ⟨target, htarget, base, hbase, rfl⟩
    exact ⟨target, base, htarget, hbase, rfl⟩
  · rintro ⟨target, base, htarget, hbase, rfl⟩
    exact ⟨target, htarget, base, hbase, rfl⟩

theorem Alias.next?_eq_some_iff {aliasFact : Alias} {table : SymbolTable} {visit after : Visit} :
    aliasFact.next? table visit = some after ↔
      ∃ target, table.resolve aliasFact.target = some target ∧
        aliasFact.container.bind table.resolve = some visit.record ∧
        after = ⟨target, visit.path.child aliasFact.name⟩ := by
  simp only [next?, Option.bind_eq_bind, Option.bind_eq_some_iff, Option.ite_none_right_eq_some,
    Option.some.injEq]
  constructor
  · rintro ⟨target, htarget, hcontainer, rfl⟩
    exact ⟨target, htarget, hcontainer, rfl⟩
  · rintro ⟨target, htarget, hcontainer, rfl⟩
    exact ⟨target, htarget, hcontainer, rfl⟩

/-- What the link of an alias holds. -/
theorem Alias.link_eq_ok {aliasFact : Alias} {program : Program} {naming : Naming}
    {table : SymbolTable} {link : Link} (h : aliasFact.link program naming table = .ok link) :
    table.resolve aliasFact.target = some link.target ∧
      aliasFact.container.bind table.resolve = link.container ∧
      aliasFact.findBase program naming table link.container = .ok link.base ∧
      link.name = aliasFact.name := by
  obtain ⟨target, htarget, h⟩ := bind_eq_ok_iff.mp h
  obtain ⟨container, hcontainer, h⟩ := bind_eq_ok_iff.mp h
  obtain ⟨base, hbase, h⟩ := bind_eq_ok_iff.mp h
  cases h
  refine ⟨?_, ?_, hbase, rfl⟩
  · unfold findTarget at htarget
    split at htarget
    · cases htarget
      assumption
    · cases htarget
  · unfold findContainer at hcontainer
    split at hcontainer
    · rename_i hnone
      cases hcontainer
      rw [hnone]
      rfl
    · rename_i handle hsome
      rw [hsome, Option.bind_some]
      split at hcontainer
      · cases hcontainer
        assumption
      · cases hcontainer

theorem Alias.root?_eq_start? {aliasFact : Alias} {program : Program} {naming : Naming}
    {table : SymbolTable} {link : Link} (h : aliasFact.link program naming table = .ok link) :
    aliasFact.root? program naming table = link.start? := by
  obtain ⟨htarget, hcontainer, hbase, hname⟩ := link_eq_ok h
  simp only [root?, htarget, hcontainer, hbase, Except.toOption, Option.join_some,
    Option.bind_eq_bind, Option.bind_some, Link.start?, hname]
  cases link.base with
  | none => rfl
  | some base => rfl

theorem Alias.next?_eq_step? {aliasFact : Alias} {program : Program} {naming : Naming}
    {table : SymbolTable} {link : Link} (h : aliasFact.link program naming table = .ok link)
    (visit : Visit) :
    aliasFact.next? table visit = (link.step? visit.record).map fun step =>
      ⟨step.target, visit.path.child step.name⟩ := by
  obtain ⟨htarget, hcontainer, -, hname⟩ := link_eq_ok h
  simp only [next?, htarget, hcontainer, Option.bind_eq_bind, Option.bind_some, Link.step?]
  split
  · rw [Option.map_some, hname]
  · rfl

theorem SymbolTable.member?_eq_memberStep? (table : SymbolTable) (visit : Visit) (id : Nat) :
    table.member? visit id = (table.memberStep? id).map fun step =>
      ⟨step.target, visit.path.child step.name⟩ := by
  simp only [member?, memberStep?]
  cases table.record? id with
  | none => rfl
  | some member =>
    have hseen : (member.exported && (table.visibility id).isExport) = true ↔
        member.exported = true ∧ table.visibility id ≠ .hidden := by simp [Visibility.isExport]
    cases hname : member.name with
    | none => simp [hname]
    | some name =>
      simp only [Option.bind_eq_bind, Option.bind_some, hname]
      by_cases h : member.exported = true ∧ table.visibility id ≠ .hidden
      · rw [if_pos h, if_pos (hseen.mpr h)]
        rfl
      · rw [if_neg h, if_neg (mt hseen.mp h)]
        rfl

theorem SymbolTable.resolve_lt {table : SymbolTable} {handle : Handle} {id : Nat}
    (h : table.resolve handle = some id) : id < table.records.length :=
  (List.findIdx?_eq_some_iff_getElem.mp h).1

theorem Alias.lt_of_root? {aliasFact : Alias} {program : Program} {naming : Naming}
    {table : SymbolTable} {visit : Visit} (h : aliasFact.root? program naming table = some visit) :
    visit.record < table.records.length := by
  obtain ⟨target, base, htarget, -, rfl⟩ := root?_eq_some_iff.mp h
  exact SymbolTable.resolve_lt htarget

/-- No alias leads on from a record that is not there. -/
theorem Alias.next?_eq_none {table : SymbolTable} {visit : Visit}
    (h : table.record? visit.record = none) (aliasFact : Alias) :
    aliasFact.next? table visit = none := by
  have hcontainer : aliasFact.container.bind table.resolve ≠ some visit.record := by
    intro hsome
    obtain ⟨handle, -, hresolve⟩ := Option.bind_eq_some_iff.mp hsome
    exact absurd (SymbolTable.resolve_lt hresolve) (not_lt.mpr (List.getElem?_eq_none_iff.mp h))
  simp only [next?, if_neg hcontainer]
  cases table.resolve aliasFact.target with
  | none => rfl
  | some target => rfl

theorem SymbolTable.lt_of_mem_nextVisits {table : SymbolTable} {aliases : List Alias}
    {visit after : Visit} (h : after ∈ table.nextVisits aliases visit) :
    after.record < table.records.length := by
  rcases mem_nextVisits_iff.mp h with h | ⟨aliasFact, -, h⟩
  · obtain ⟨_, -, id, -, h⟩ := mem_memberVisits_iff.mp h
    obtain ⟨member, name, hmember, -, -, -, rfl⟩ := member?_eq_some_iff.mp h
    exact (List.getElem?_eq_some_iff.mp hmember).1
  · obtain ⟨target, htarget, -, rfl⟩ := Alias.next?_eq_some_iff.mp h
    exact resolve_lt htarget

/-! ### The pass as a whole -/

/-- The steps told by the aliases are those told by their links. -/
theorem SymbolTable.nextVisits_eq {table : SymbolTable} {aliases : List Alias} {program : Program}
    {naming : Naming} {links : List Link}
    (hid : ∀ id record, table.record? id = some record → record.id = id)
    (h : List.Forall₂ (fun aliasFact link => aliasFact.link program naming table = .ok link)
      aliases links) (visit : Visit) :
    table.nextVisits aliases visit = (((table.steps links)[visit.record]?).getD []).map fun step =>
      ⟨step.target, visit.path.child step.name⟩ := by
  have hsteps : (table.steps links)[visit.record]? =
      (table.record? visit.record).map fun record => record.steps table links := List.getElem?_map
  rw [nextVisits, hsteps]
  cases hrecord : table.record? visit.record with
  | none =>
    simp [Alias.next?_eq_none hrecord]
  | some record =>
    have hmembers : record.children.filterMap (table.member? visit) =
        (record.children.filterMap table.memberStep?).map fun step =>
          ⟨step.target, visit.path.child step.name⟩ := by
      rw [List.map_filterMap]
      exact List.filterMap_congr fun id _ => table.member?_eq_memberStep? visit id
    have haliases : aliases.filterMap (·.next? table visit) =
        (links.filterMap (·.step? visit.record)).map fun step =>
          ⟨step.target, visit.path.child step.name⟩ := by
      rw [List.map_filterMap]
      exact filterMap_eq_of_forall₂ h fun _ _ hlink => Alias.next?_eq_step? hlink visit
    simp only [Option.map_some, Option.getD_some, Record.steps, List.map_append,
      hid _ record hrecord, hmembers, haliases]

/-- The visits of the walks along the links are the ends of the walks told by the aliases. -/
theorem SymbolTable.exists_walks_visits {table : SymbolTable} {aliases : List Alias}
    {program : Program} {naming : Naming} {links : List Link}
    (hid : ∀ id record, table.record? id = some record → record.id = id)
    (h : List.Forall₂ (fun aliasFact link => aliasFact.link program naming table = .ok link)
      aliases links) :
    ∃ walks : List (List Nat), walks.Pairwise (· < ·) ∧
      (∀ choices, choices ∈ walks ↔ IsSimpleWalk (aliases.filterMap (·.root? program naming table))
        (table.nextVisits aliases) choices) ∧
      walks.filterMap (walkEnd (aliases.filterMap (·.root? program naming table))
        (table.nextVisits aliases)) = table.visits links ∧
      ∀ visit ∈ table.visits links, visit.record < table.records.length := by
  have hroots : ∀ root ∈ aliases.filterMap (·.root? program naming table),
      root.record < table.records.length := by
    intro root hroot
    obtain ⟨aliasFact, -, hroot⟩ := List.mem_filterMap.mp hroot
    exact Alias.lt_of_root? hroot
  have hstarts : aliases.filterMap (·.root? program naming table) = links.filterMap Link.start? :=
    filterMap_eq_of_forall₂ h fun _ _ hlink => Alias.root?_eq_start? hlink
  have hnext : table.nextVisits aliases = fun visit =>
      (((table.steps links)[visit.record]?).getD []).map fun step =>
        ⟨step.target, visit.path.child step.name⟩ := funext (nextVisits_eq hid h)
  have hbound : ∀ visit, ∀ after ∈ table.nextVisits aliases visit,
      after.record < table.records.length := fun _ _ hafter => lt_of_mem_nextVisits hafter
  obtain ⟨walks, hsorted, hmem, hends⟩ := exists_simpleWalks hroots hbound
  have hvisits : walks.filterMap (walkEnd (aliases.filterMap (·.root? program naming table))
      (table.nextVisits aliases)) = table.visits links := by
    rw [hends, hstarts, hnext]
    simp only [map_snd_walksFrom]
    rfl
  refine ⟨walks, hsorted, hmem, hvisits, ?_⟩
  intro visit hvisit
  rw [← hvisits] at hvisit
  obtain ⟨choices, -, hend⟩ := List.mem_filterMap.mp hvisit
  exact forall_walkEnd hroots hbound hend

theorem SymbolTable.id_of_record?_ofGroups {groups : List Group} {id : Nat} {record : Record}
    (h : (ofGroups groups).record? id = some record) : record.id = id := by
  rw [record?_ofGroups] at h
  obtain ⟨group, -, rfl⟩ := Option.map_eq_some_iff.mp h
  rfl

/-- A walk of the alias pass: from the target of an alias with a base path, along members and
    aliases, never to a record that it has passed. -/
structure Program.IsAliasWalk (program : Program) (naming : Naming) (table : SymbolTable)
    (visits : List Visit) : Prop where
  root : ∃ aliasFact ∈ program.aliases, ∃ root, aliasFact.root? program naming table = some root ∧
    visits.head? = some root
  chain : visits.IsChain fun visit after => after ∈ table.nextVisits program.aliases visit
  nodup : (visits.map Visit.record).Nodup

theorem Program.mem_nextVisits_sortedAliases {program : Program} {table : SymbolTable}
    {visit after : Visit} :
    after ∈ table.nextVisits program.sortedAliases visit ↔
      after ∈ table.nextVisits program.aliases visit := by
  simp only [SymbolTable.mem_nextVisits_iff, sortedAliases, mem_sortBy]

/-- The visits of the alias pass are the ends of its walks. -/
theorem Program.mem_visits_iff {program : Program} {naming : Naming} {table : SymbolTable}
    {links : List Link} (hmerge : program.merge = .ok table)
    (hlinks : program.links naming table = .ok links) {visit : Visit} :
    visit ∈ table.visits links ↔
      ∃ visits, program.IsAliasWalk naming table visits ∧ visits.getLast? = some visit := by
  obtain ⟨-, groups, rfl, -, -⟩ := exists_settled_of_merge hmerge
  obtain ⟨walks, -, hmem, hends, -⟩ := SymbolTable.exists_walks_visits
    (fun _ _ h => SymbolTable.id_of_record?_ofGroups h) (mapM_eq_ok_iff.mp hlinks)
  rw [← hends, List.mem_filterMap]
  constructor
  · rintro ⟨choices, hchoices, hend⟩
    obtain ⟨visits, htrace, hnodup⟩ := (hmem choices).mp hchoices
    obtain ⟨⟨root, hroot, hhead⟩, hchain⟩ := exists_trace_iff.mp ⟨choices, htrace⟩
    obtain ⟨aliasFact, halias, hroot⟩ := List.mem_filterMap.mp hroot
    refine ⟨visits, ⟨⟨aliasFact, mem_sortBy.mp halias, root, hroot, hhead⟩, ?_, hnodup⟩, ?_⟩
    · exact hchain.imp fun _ _ h => mem_nextVisits_sortedAliases.mp h
    · rw [walkEnd, htrace] at hend
      exact hend
  · rintro ⟨visits, ⟨⟨aliasFact, halias, root, hroot, hhead⟩, hchain, hnodup⟩, hlast⟩
    have hmemRoot : root ∈ program.sortedAliases.filterMap
        (·.root? program naming (.ofGroups groups)) :=
      List.mem_filterMap.mpr ⟨aliasFact, mem_sortBy.mpr halias, hroot⟩
    obtain ⟨choices, htrace⟩ := exists_trace_iff.mpr ⟨⟨root, hmemRoot, hhead⟩,
      hchain.imp fun _ _ h => mem_nextVisits_sortedAliases.mpr h⟩
    refine ⟨choices, (hmem choices).mpr ⟨visits, htrace, hnodup⟩, ?_⟩
    rw [walkEnd, htrace]
    exact hlast

/-- The identifier of a record's canonical moniker is among those of the table. -/
theorem SymbolTable.mem_identifiers {table : SymbolTable} {canonical : Nat → Option Canonical}
    (hid : ∀ id record, table.record? id = some record → record.id = id) {id : Nat}
    (hlt : id < table.records.length) {moniker : Canonical} (h : canonical id = some moniker) :
    moniker.identifier ∈ table.identifiers canonical := by
  have hrecord : table.record? id = some table.records[id] := List.getElem?_eq_getElem hlt
  refine List.mem_filterMap.mpr ⟨table.records[id], List.getElem_mem hlt, ?_⟩
  rw [hid id _ hrecord, h]
  rfl

/-- An alias pass that succeeds emits the walks without repetition. The aliases are taken by file,
    start and the order in which they were reported; the walks from their roots are listed in
    depth-first order; and each that ends in a record with a canonical moniker under a new
    identifier gives a moniker attached to the canonical one. -/
theorem Program.publishAliases_emits_walks {program : Program} {naming : Naming}
    {table : SymbolTable} {canonical : Nat → Option Canonical} {scheme : String}
    {graph result : Graph} {stats : AliasStats} (hmerge : program.merge = .ok table)
    (hvertex : ∀ id moniker, canonical id = some moniker →
      1 ≤ moniker.vertex ∧ moniker.vertex ≤ graph.lastId)
    (hrun : program.publishAliases naming table canonical scheme graph = .ok (result, stats)) :
    ∃ ordered : List (Alias × Nat), ordered.Perm program.aliases.zipIdx ∧
      ordered.Pairwise (Precedes
        (compareLex (compareOn Alias.file) (compareOn fun aliasFact => aliasFact.span.start))) ∧
      let aliases := ordered.map Prod.fst
      let roots := aliases.filterMap (·.root? program naming table)
      let next := table.nextVisits aliases
      ∃ walks : List (List Nat), walks.Pairwise (· < ·) ∧
        (∀ choices, choices ∈ walks ↔ IsSimpleWalk roots next choices) ∧
        result = graph.attachAliases scheme canonical (firstUses (table.identifiers canonical)
          ((walks.filterMap (walkEnd roots next)).filterMap (·.use? canonical))) := by
  obtain ⟨links, hlinks, hrun⟩ := bind_eq_ok_iff.mp hrun
  obtain ⟨state, hstate, hrun⟩ := bind_eq_ok_iff.mp hrun
  obtain ⟨ordered, hperm, hsorted, hfst⟩ := exists_numbering_sortBy
    (compareLex (compareOn Alias.file) (compareOn fun aliasFact => aliasFact.span.start))
    program.aliases 0
  refine ⟨ordered, hperm, hsorted, ?_⟩
  have haliases : ordered.map Prod.fst = program.sortedAliases := hfst
  rw [haliases]
  obtain ⟨-, groups, rfl, -, -⟩ := exists_settled_of_merge hmerge
  have hid : ∀ id record, (SymbolTable.ofGroups groups).record? id = some record →
      record.id = id := fun _ _ h => SymbolTable.id_of_record?_ofGroups h
  obtain ⟨walks, hwalks, hmem, hends, hlt⟩ :=
    SymbolTable.exists_walks_visits hid (mapM_eq_ok_iff.mp hlinks)
  refine ⟨walks, hwalks, hmem, ?_⟩
  rw [hends]
  obtain ⟨final, hfinal, hgraph⟩ := @Publication.foldlM_publish canonical
    { graph := graph, taken := (SymbolTable.ofGroups groups).identifiers canonical } scheme _
    hvertex fun visit hvisit moniker h => SymbolTable.mem_identifiers hid (hlt visit hvisit) h
  rw [hstate] at hfinal
  cases hfinal
  cases hrun
  exact hgraph

namespace Program

/-- A namespace that exports itself once more, and is exported from its file under another name. -/
def mirrored : Program where
  root := "/p"
  documents := [.moduleFile "/p/geometry.ts"]
  symbols := [
    { handle := 1, name := some "Geometry", kind := .namespaceBlock
      declarations := [{ file := "/p/geometry.ts", span := .onLine 0 17 25, exported := true }] },
    { handle := 2, name := some "area", kind := .function, parent := some 1
      declarations := [{ file := "/p/geometry.ts", span := .onLine 1 18 22, exported := true }] }]
  aliases := [
    ⟨"/p/geometry.ts", .onLine 4 21 26, none, "Maths", 1⟩,
    ⟨"/p/geometry.ts", .onLine 2 16 20, some 1, "Self", 1⟩]

/-- The canonical monikers of the namespace and of its function. -/
def mirroredMonikers (id : Nat) : Option Canonical :=
  [⟨1, "geometry:Geometry"⟩, ⟨2, "geometry:Geometry.area"⟩][id]?

/-- Both new names, and the function under both, become monikers. The namespace within itself does
    not, though its alias leads there. -/
theorem publishAliases_emits_mirrored :
    ∃ table result stats, mirrored.merge = .ok table ∧
      mirrored.publishAliases ⟨"/p", id⟩ table mirroredMonikers "tsc" ⟨.replicate 2 default⟩ =
        .ok (result, stats) ∧ stats.attached = 4 ∧
      ∃ ordered : List (Alias × Nat), ordered.Perm mirrored.aliases.zipIdx ∧
        ∃ walks : List (List Nat), walks.Pairwise (· < ·) ∧
          (∀ choices, choices ∈ walks ↔
            IsSimpleWalk ((ordered.map Prod.fst).filterMap (·.root? mirrored ⟨"/p", id⟩ table))
              (table.nextVisits (ordered.map Prod.fst)) choices) ∧
          result = Graph.attachAliases "tsc" mirroredMonikers ⟨.replicate 2 default⟩
            (firstUses (table.identifiers mirroredMonikers)
              ((walks.filterMap (walkEnd
                ((ordered.map Prod.fst).filterMap (·.root? mirrored ⟨"/p", id⟩ table))
                (table.nextVisits (ordered.map Prod.fst)))).filterMap
                (·.use? mirroredMonikers))) := by
  have hattached : (mirrored.merge.bind fun table => mirrored.publishAliases ⟨"/p", id⟩ table
      mirroredMonikers "tsc" ⟨.replicate 2 default⟩).toOption.map (·.2.attached) = some 4 := by
    decide +kernel
  have hvertex : ∀ id moniker, mirroredMonikers id = some moniker →
      1 ≤ moniker.vertex ∧ moniker.vertex ≤ Graph.lastId ⟨.replicate 2 default⟩ := by
    intro id moniker h
    have hmem := List.mem_of_getElem? h
    simp only [List.mem_cons, List.not_mem_nil, or_false] at hmem
    rcases hmem with rfl | rfl <;> decide
  cases hmerge : mirrored.merge with
  | error e =>
    rw [hmerge] at hattached
    cases hattached
  | ok table =>
    rw [hmerge] at hattached
    obtain ⟨⟨result, stats⟩, hrun, hattached⟩ := Option.map_eq_some_iff.mp hattached
    have hok : mirrored.publishAliases ⟨"/p", id⟩ table mirroredMonikers "tsc"
        ⟨.replicate 2 default⟩ = .ok (result, stats) := toOption_eq_some_iff.mp hrun
    obtain ⟨ordered, hperm, -, walks, hwalks, hmem, hresult⟩ :=
      publishAliases_emits_walks hmerge hvertex hok
    exact ⟨table, result, stats, rfl, hok, hattached, ordered, hperm, walks, hwalks, hmem, hresult⟩

end Program

end MonikerIndex
