import MonikerIndex.Proofs.Store
import Mathlib.Logic.Relation

/-!
# Which aliases are followed

An alias in a container that is not public has no base path. It is followed all the same if its
container is reached from the target of an alias that has one, along members and aliases
(`LeadsTo`). The alias pass looks for such containers along walks that never come back to a record.
Nothing is lost by that: where a way comes back to a record, the walk that was there first is as
good (`exists_walk_iff_reaches`).

Main statement: `publishAliases_follows_reachable`, with what the counts of the pass say about the
graph.
-/

namespace MonikerIndex

namespace Program

/-- A step of the alias pass from one record to another. -/
inductive LeadsTo (program : Program) (table : SymbolTable) : Nat → Nat → Prop
  | member {id child : Nat} {record inner : Record} (hrecord : table.record? id = some record)
      (hchild : child ∈ record.children) (hinner : table.record? child = some inner)
      (hname : inner.name.isSome) (hexported : inner.exported = true)
      (hvisible : table.visibility child ≠ .hidden) : LeadsTo program table id child
  | along {id target : Nat} {aliasFact : Alias} (halias : aliasFact ∈ program.aliases)
      (hcontainer : aliasFact.container.bind table.resolve = some id)
      (htarget : table.resolve aliasFact.target = some target) : LeadsTo program table id target

end Program

/-- Whether an alias is public on its own. -/
def Alias.HasBase (aliasFact : Alias) (program : Program) (naming : Naming)
    (table : SymbolTable) : Prop :=
  ∃ base, aliasFact.findBase program naming table (aliasFact.container.bind table.resolve) =
    .ok (some base)

/-- Whether a record is reached from the target of an alias that is public on its own, by any number
    of steps. -/
def Program.Reaches (program : Program) (naming : Naming) (table : SymbolTable) (id : Nat) :
    Prop :=
  ∃ aliasFact ∈ program.aliases, aliasFact.HasBase program naming table ∧
    ∃ target, table.resolve aliasFact.target = some target ∧
      Relation.ReflTransGen (program.LeadsTo table) target id

/-- Whether an alias is public on its own or through another one. -/
def Alias.Followed (aliasFact : Alias) (program : Program) (naming : Naming)
    (table : SymbolTable) : Prop :=
  aliasFact.HasBase program naming table ∨
    ∃ id, aliasFact.container.bind table.resolve = some id ∧ program.Reaches naming table id

variable {program : Program} {naming : Naming} {table : SymbolTable}

/-! ### Steps -/

namespace Program

theorem leadsTo_iff {visit : Visit} {id : Nat} :
    program.LeadsTo table visit.record id ↔
      ∃ after ∈ table.nextVisits program.aliases visit, after.record = id := by
  constructor
  · intro h
    cases h with
    | member hrecord hchild hinner hname hexported hvisible =>
      obtain ⟨name, hname⟩ := Option.isSome_iff_exists.mp hname
      refine ⟨⟨id, visit.path.child name⟩, SymbolTable.mem_nextVisits_iff.mpr (Or.inl ?_), rfl⟩
      exact SymbolTable.mem_memberVisits_iff.mpr ⟨_, hrecord, id, hchild,
        SymbolTable.member?_eq_some_iff.mpr ⟨_, name, hinner, hname, hexported, hvisible, rfl⟩⟩
    | @along aliasFact halias hcontainer htarget =>
      have hnext : aliasFact.next? table visit = some ⟨id, visit.path.child aliasFact.name⟩ :=
        Alias.next?_eq_some_iff.mpr ⟨id, htarget, hcontainer, rfl⟩
      exact ⟨_, SymbolTable.mem_nextVisits_iff.mpr (Or.inr ⟨aliasFact, halias, hnext⟩), rfl⟩
  · rintro ⟨after, hafter, rfl⟩
    rcases SymbolTable.mem_nextVisits_iff.mp hafter with hafter | ⟨aliasFact, halias, hafter⟩
    · obtain ⟨record, hrecord, child, hchild, hafter⟩ := SymbolTable.mem_memberVisits_iff.mp hafter
      obtain ⟨inner, name, hinner, hname, hexported, hvisible, rfl⟩ :=
        SymbolTable.member?_eq_some_iff.mp hafter
      exact .member hrecord hchild hinner (Option.isSome_of_eq_some hname) hexported hvisible
    · obtain ⟨target, htarget, hcontainer, rfl⟩ := Alias.next?_eq_some_iff.mp hafter
      exact .along halias hcontainer htarget

/-! ### Walks without repetition reach all -/

theorem IsAliasWalk.cut {front back : List Visit} {visit : Visit}
    (h : program.IsAliasWalk naming table (front ++ visit :: back)) :
    program.IsAliasWalk naming table (front ++ [visit]) := by
  have hsplit : front ++ visit :: back = (front ++ [visit]) ++ back := by simp
  obtain ⟨⟨aliasFact, halias, root, hroot, hhead⟩, hchain, hnodup⟩ := h
  rw [hsplit] at hhead hchain hnodup
  refine ⟨⟨aliasFact, halias, root, hroot, ?_⟩, hchain.left_of_append, ?_⟩
  · rw [List.head?_append_of_ne_nil _ (by simp)] at hhead
    exact hhead
  · rw [List.map_append] at hnodup
    exact hnodup.of_append_left

theorem IsAliasWalk.concat {visits : List Visit} {last after : Visit}
    (h : program.IsAliasWalk naming table visits) (hlast : visits.getLast? = some last)
    (hafter : after ∈ table.nextVisits program.aliases last)
    (hnew : after.record ∉ visits.map Visit.record) :
    program.IsAliasWalk naming table (visits ++ [after]) := by
  obtain ⟨⟨aliasFact, halias, root, hroot, hhead⟩, hchain, hnodup⟩ := h
  refine ⟨⟨aliasFact, halias, root, hroot, ?_⟩, ?_, ?_⟩
  · rw [List.head?_append, hhead]
    rfl
  · apply hchain.append (List.isChain_singleton after)
    intro visit hvisit first hfirst
    rw [hlast] at hvisit
    cases hvisit
    cases hfirst
    exact hafter
  · rw [List.map_append, List.map_singleton, ← List.concat_eq_append]
    exact hnodup.concat hnew

/-- One more step from where a walk ends leads to where some walk ends. If the walk has been there,
    it is the walk up to there. -/
theorem IsAliasWalk.exists_step {visits : List Visit} {last : Visit} {id : Nat}
    (h : program.IsAliasWalk naming table visits) (hlast : visits.getLast? = some last)
    (hstep : program.LeadsTo table last.record id) :
    ∃ others visit, program.IsAliasWalk naming table others ∧ others.getLast? = some visit ∧
      visit.record = id := by
  by_cases hpassed : id ∈ visits.map Visit.record
  · obtain ⟨visit, hvisit, rfl⟩ := List.mem_map.mp hpassed
    obtain ⟨front, back, rfl⟩ := List.append_of_mem hvisit
    exact ⟨front ++ [visit], visit, h.cut, List.getLast?_concat, rfl⟩
  · obtain ⟨after, hafter, rfl⟩ := leadsTo_iff.mp hstep
    exact ⟨visits ++ [after], after, h.concat hlast hafter hpassed, List.getLast?_concat, rfl⟩

theorem IsAliasWalk.reaches {visits : List Visit}
    (h : program.IsAliasWalk naming table visits) :
    ∀ visit ∈ visits, program.Reaches naming table visit.record := by
  obtain ⟨⟨aliasFact, halias, root, hroot, hhead⟩, hchain, -⟩ := h
  obtain ⟨target, base, htarget, hbase, rfl⟩ := Alias.root?_eq_some_iff.mp hroot
  -- the root is reached at once, and each step of the chain adds one to the way
  apply List.IsChain.induction (fun visit => program.Reaches naming table visit.record) _ hchain
  · rintro visit after hafter ⟨other, hother, hpublic, start, hstart, hway⟩
    exact ⟨other, hother, hpublic, start, hstart, hway.tail (leadsTo_iff.mpr ⟨after, hafter, rfl⟩)⟩
  · intro hne
    rw [List.head?_eq_some_head hne] at hhead
    rw [Option.some.inj hhead]
    exact ⟨aliasFact, halias, ⟨base, hbase⟩, target, htarget, .refl⟩

/-- The walks that never come back to a record end at all records that are reached. -/
theorem exists_walk_iff_reaches {id : Nat} :
    (∃ visits visit, program.IsAliasWalk naming table visits ∧ visits.getLast? = some visit ∧
      visit.record = id) ↔ program.Reaches naming table id := by
  constructor
  · rintro ⟨visits, visit, hwalk, hlast, rfl⟩
    exact hwalk.reaches visit (List.mem_of_getLast? hlast)
  · rintro ⟨aliasFact, halias, ⟨base, hbase⟩, target, htarget, hway⟩
    induction hway with
    | refl =>
      have hroot : aliasFact.root? program naming table =
          some ⟨target, base.child aliasFact.name⟩ :=
        Alias.root?_eq_some_iff.mpr ⟨target, base, htarget, hbase, rfl⟩
      exact ⟨[_], _, ⟨⟨aliasFact, halias, _, hroot, rfl⟩, List.isChain_singleton _, by simp⟩, rfl,
        rfl⟩
    | tail _ hstep ih =>
      obtain ⟨visits, visit, hwalk, hlast, rfl⟩ := ih
      exact hwalk.exists_step hlast hstep

theorem isReached_iff {links : List Link} {aliasFact : Alias} {link : Link}
    (hmerge : program.merge = .ok table) (hlinks : program.links naming table = .ok links)
    (hlink : aliasFact.link program naming table = .ok link) :
    link.isReached (table.visits links) = true ↔ aliasFact.Followed program naming table := by
  obtain ⟨-, hcontainer, hbase, -⟩ := Alias.link_eq_ok hlink
  have hpublic : link.base.isSome ↔ aliasFact.HasBase program naming table := by
    rw [Alias.HasBase, hcontainer, hbase, Option.isSome_iff_exists]
    simp
  simp only [Link.isReached, Bool.or_eq_true, hpublic, List.any_eq_true, beq_iff_eq,
    mem_visits_iff hmerge hlinks, Alias.Followed, hcontainer]
  apply or_congr Iff.rfl
  constructor
  · rintro ⟨visit, ⟨visits, hwalk, hlast⟩, heq⟩
    exact ⟨visit.record, heq, exists_walk_iff_reaches.mp ⟨visits, visit, hwalk, hlast, rfl⟩⟩
  · rintro ⟨id, heq, hreaches⟩
    obtain ⟨visits, visit, hwalk, hlast, rfl⟩ := exists_walk_iff_reaches.mpr hreaches
    exact ⟨visit, ⟨visits, hwalk, hlast⟩, heq⟩

end Program

/-! ### What the counts say about the graph -/

namespace Publication

variable {scheme : String} {canonical : Nat → Option Canonical} {state middle after : Publication}

/-- Whether a state comes after another one, with an attach edge and its moniker for each that is
    counted. -/
def Extends (state after : Publication) : Prop :=
  ∃ block, state.graph.Grows block after.graph ∧
    block.length = 2 * (linksIn .attach block).length ∧
    after.attached = state.attached + (linksIn .attach block).length

theorem Extends.trans (h : state.Extends middle) (h' : middle.Extends after) :
    state.Extends after := by
  obtain ⟨block, hgrows, hlength, hattached⟩ := h
  obtain ⟨block', hgrows', hlength', hattached'⟩ := h'
  refine ⟨block ++ block', hgrows.trans hgrows', ?_, ?_⟩
  · rw [linksIn_append, List.length_append, List.length_append]
    omega
  · rw [linksIn_append, List.length_append]
    omega

theorem publish_extends {visit : Visit} (h : publish scheme canonical state visit = .ok after) :
    state.Extends after := by
  have hidle : ∀ duplicates, state.Extends { state with duplicates := duplicates } :=
    fun _ => ⟨[], .refl _, rfl, rfl⟩
  unfold publish at h
  cases hcanonical : canonical visit.record with
  | none =>
    rw [hcanonical] at h
    cases h
    exact hidle _
  | some moniker =>
    rw [hcanonical] at h
    dsimp only at h
    by_cases htaken : (visit.path.identifier == moniker.identifier ||
        state.taken.contains visit.path.identifier) = true
    · rw [if_pos htaken] at h
      cases h
      exact hidle _
    · rw [if_neg htaken] at h
      obtain ⟨result, hedge, h⟩ := bind_eq_ok_iff.mp h
      obtain ⟨-, rfl⟩ := Graph.emitEdge_eq_ok_iff.mp hedge
      cases h
      exact ⟨_, Graph.Grows.push_push state.graph _ _, by simp [Edge.attach], by simp [Edge.attach]⟩

theorem foldlM_extends {visits : List Visit}
    (h : visits.foldlM (publish scheme canonical) state = .ok after) : state.Extends after := by
  induction visits generalizing state with
  | nil =>
    cases h
    exact ⟨[], .refl _, rfl, rfl⟩
  | cons visit visits ih =>
    rw [List.foldlM_cons] at h
    obtain ⟨middle, hmiddle, h⟩ := bind_eq_ok_iff.mp h
    exact (publish_extends hmiddle).trans (ih h)

end Publication

/-! ### The pass as a whole -/

namespace Program

/-- The aliases fall into those that are followed, as many as there are reached links, and the
    others. -/
theorem exists_followed {links : List Link} (hmerge : program.merge = .ok table)
    (hlinks : program.links naming table = .ok links) :
    ∃ linked skipped : List Alias, (linked ++ skipped).Perm program.aliases ∧
      (∀ aliasFact ∈ linked, aliasFact.Followed program naming table) ∧
      (∀ aliasFact ∈ skipped, ¬aliasFact.Followed program naming table) ∧
      linked.length = links.countP (·.isReached (table.visits links)) := by
  classical
  have hboth : List.Forall₂ (fun aliasFact link => aliasFact.link program naming table = .ok link)
      (program.sortedAliases.filter fun aliasFact => aliasFact.Followed program naming table)
      (links.filter fun link => link.isReached (table.visits links)) := by
    apply List.rel_filter _ (mapM_eq_ok_iff.mp hlinks)
    intro aliasFact link hlink
    simp only [isReached_iff hmerge hlinks hlink, decide_eq_true_eq]
  refine ⟨_, _, (List.filter_append_perm
    (fun aliasFact => decide (aliasFact.Followed program naming table))
    program.sortedAliases).trans (sortBy_perm _ _), ?_, ?_, ?_⟩
  · intro aliasFact hmem
    simpa using (List.mem_filter.mp hmem).2
  · intro aliasFact hmem
    simpa using (List.mem_filter.mp hmem).2
  · rw [hboth.length_eq, List.countP_eq_length_filter]

/-- An alias pass that succeeds follows exactly the aliases that are public on their own or whose
    container is reached from the target of one that is, and counts each other one as skipped. It
    counts the attach edges it adds, and adds nothing else but a moniker for each. -/
theorem publishAliases_follows_reachable {canonical : Nat → Option Canonical} {scheme : String}
    {graph result : Graph} {stats : AliasStats} (hmerge : program.merge = .ok table)
    (hrun : program.publishAliases naming table canonical scheme graph = .ok (result, stats)) :
    (∃ linked skipped : List Alias, (linked ++ skipped).Perm program.aliases ∧
      (∀ aliasFact ∈ linked, aliasFact.Followed program naming table) ∧
      (∀ aliasFact ∈ skipped, ¬aliasFact.Followed program naming table) ∧
      stats.linked = linked.length ∧ stats.skipped = skipped.length) ∧
    stats.total = program.aliases.length ∧ stats.linked + stats.skipped = stats.total ∧
    ∃ block, graph.Grows block result ∧ block.length = 2 * stats.attached ∧
      (linksIn .attach block).length = stats.attached := by
  obtain ⟨links, hlinks, hrun⟩ := bind_eq_ok_iff.mp hrun
  obtain ⟨state, hstate, hrun⟩ := bind_eq_ok_iff.mp hrun
  cases hrun
  obtain ⟨linked, skipped, hperm, hfollowed, hothers, hcount⟩ := exists_followed hmerge hlinks
  obtain ⟨block, hgrows, hlength, hattached⟩ := Publication.foldlM_extends hstate
  have htotal : links.length = program.aliases.length :=
    (mapM_eq_ok_iff.mp hlinks).length_eq.symm.trans (sortBy_perm _ _).length_eq
  have hsplit : linked.length + skipped.length = program.aliases.length := by
    rw [← List.length_append]
    exact hperm.length_eq
  dsimp only at hattached ⊢
  rw [Nat.zero_add] at hattached
  refine ⟨⟨linked, skipped, hperm, hfollowed, hothers, hcount.symm, ?_⟩, htotal, ?_, block, hgrows,
    ?_, hattached.symm⟩
  · omega
  · omega
  · rw [hlength, hattached]

/-- A file that exports one of its namespaces under a new name. Both namespaces hold aliases, and
    the exported one exports itself once more. -/
def chrome : Program where
  root := "/p"
  documents := [.moduleFile "/p/chrome.ts"]
  symbols := [
    { handle := 1, name := some "_d", kind := .namespaceBlock
      declarations := [{ file := "/p/chrome.ts", span := .onLine 0 10 12 }] },
    { handle := 2, name := some "_inner", kind := .function, parent := some 1
      declarations := [{ file := "/p/chrome.ts", span := .onLine 1 11 17 }] },
    { handle := 3, name := some "_e", kind := .namespaceBlock
      declarations := [{ file := "/p/chrome.ts", span := .onLine 5 10 12 }] }]
  aliases := [
    ⟨"/p/chrome.ts", .onLine 2 11 16, some 1, "inner", 2⟩,
    ⟨"/p/chrome.ts", .onLine 3 11 15, some 1, "self", 1⟩,
    ⟨"/p/chrome.ts", .onLine 6 11 15, some 3, "lost", 2⟩,
    ⟨"/p/chrome.ts", .onLine 8 9 17, none, "debugger", 1⟩]

/-- The canonical monikers of the namespaces and the function. -/
def chromeMonikers (id : Nat) : Option Canonical :=
  [⟨1, "d"⟩, ⟨2, "inner"⟩, ⟨3, "e"⟩][id]?

/-- The alias for the function is followed, since the file exports its namespace; the one in the
    other namespace is skipped. -/
theorem publishAliases_follows_chrome :
    ∃ table result stats, chrome.merge = .ok table ∧
      chrome.publishAliases ⟨"/p", id⟩ table chromeMonikers "tsc" ⟨.replicate 3 default⟩ =
        .ok (result, stats) ∧ stats = ⟨4, 3, 1, 2, 0⟩ ∧
      ∃ linked skipped : List Alias, (linked ++ skipped).Perm chrome.aliases ∧
        linked.length = 3 ∧ skipped.length = 1 ∧
        (∀ aliasFact ∈ linked, aliasFact.Followed chrome ⟨"/p", id⟩ table) ∧
        (∀ aliasFact ∈ skipped, ¬aliasFact.Followed chrome ⟨"/p", id⟩ table) ∧
        ∃ block, Graph.Grows ⟨.replicate 3 default⟩ block result ∧ block.length = 4 ∧
          (linksIn .attach block).length = 2 := by
  have hstats : (chrome.merge.bind fun table => chrome.publishAliases ⟨"/p", id⟩ table
      chromeMonikers "tsc" ⟨.replicate 3 default⟩).toOption.map Prod.snd =
        some ⟨4, 3, 1, 2, 0⟩ := by
    decide +kernel
  cases hmerge : chrome.merge with
  | error e =>
    rw [hmerge] at hstats
    cases hstats
  | ok table =>
    rw [hmerge] at hstats
    obtain ⟨⟨result, stats⟩, hrun, rfl⟩ := Option.map_eq_some_iff.mp hstats
    have hok := toOption_eq_some_iff.mp hrun
    obtain ⟨⟨linked, skipped, hperm, hfollowed, hothers, hlinked, hskipped⟩, -, -, hgrowth⟩ :=
      publishAliases_follows_reachable hmerge hok
    exact ⟨table, result, _, rfl, hok, rfl, linked, skipped, hperm, hlinked.symm, hskipped.symm,
      hfollowed, hothers, hgrowth⟩

end Program

end MonikerIndex
