import MonikerIndex.Proofs.Acceptance
import MonikerIndex.Proofs.Store

/-!
# The alias pass in place

When `publishAliases` fails it gives no graph. A caller who hands over a graph to be changed still
has it then, with whatever was added before the failure. So the pass is told once more, as work on
one graph: each vertex and edge is added when the walk comes to it, and an error stops the walk and
leaves the graph as it is at that moment (`aliasPass`). Apart from the graph of a failure, both
tell the same (`outcome_aliasPass`).

A failure can come from an alias of which something is missing (`Alias.Dangling`), or from an edge
that is refused. The first kind is found before anything is added. The second kind does not occur:
an attach edge leads from the vertex added just before it to a canonical moniker, and those were in
the graph from the beginning and nothing is ever taken away. `Adds` carries this through the walk.

Main statement: `aliasPass_allOrNothing`.
-/

namespace MonikerIndex

/-! ### Attaching a vertex -/

namespace OnGraph

variable {α β : Type}

/-- Adds a vertex and an attach edge from it. If the edge is refused, the vertex stays. -/
def attach (vertex : Vertex) (target : Nat) : OnGraph Unit := do
  let id ← emitVertex vertex
  let _ ← emitEdge (.attach id target)

theorem outcome_attach (vertex : Vertex) (target : Nat) (graph : Graph) :
    outcome ((attach vertex target).run graph) =
      ((graph.push (.vertex vertex)).emitEdge (.attach graph.nextId target)).map
        fun result => (result.1, ()) := by
  change outcome ((emitEdge (.attach graph.nextId target) >>= fun _ => pure ()).run
    (graph.push (.vertex vertex))) = _
  rw [outcome_bind, emitEdge, outcome_emit, Graph.emit]
  cases (graph.push (.vertex vertex)).emitEdge (.attach graph.nextId target) with
  | ok result => rfl
  | error e => rfl

/-! ### Work that only adds -/

/-- Whether work succeeds on every graph with at least so many elements, and leaves these elements
    in front of what it adds. -/
def Adds (bound : Nat) (work : OnGraph α) : Prop :=
  ∀ graph : Graph, bound ≤ graph.lastId → ∃ a after, work.run graph = .ok a after ∧
    graph.elements.toList <+: after.elements.toList

variable {bound : Nat}

theorem lastId_mono {graph after : Graph}
    (h : graph.elements.toList <+: after.elements.toList) : graph.lastId ≤ after.lastId := by
  simpa [Graph.lastId] using h.length_le

theorem adds_pure (a : α) : Adds bound (pure a) := by
  intro graph _
  exact ⟨a, graph, rfl, List.prefix_rfl⟩

theorem Adds.bind {work : OnGraph α} {next : α → OnGraph β} (h : Adds bound work)
    (hnext : ∀ a, Adds bound (next a)) : Adds bound (work >>= next) := by
  intro graph hbound
  obtain ⟨a, middle, hrun, hkept⟩ := h graph hbound
  obtain ⟨b, after, hrun', hkept'⟩ :=
    hnext a middle (hbound.trans (lastId_mono hkept))
  refine ⟨b, after, ?_, hkept.trans hkept'⟩
  rw [run_bind_ok hrun]
  exact hrun'

/-- An attach edge to an element of the graph is not refused. -/
theorem adds_attach (vertex : Vertex) {target : Nat} (htarget : 1 ≤ target ∧ target ≤ bound) :
    Adds bound (attach vertex target) := by
  intro graph hbound
  have hedge : (graph.push (.vertex vertex)).emitEdge (.attach graph.nextId target) =
      .ok ((graph.push (.vertex vertex)).push (.edge (.attach graph.nextId target)),
        (graph.push (.vertex vertex)).nextId) := by
    apply Graph.emitEdge_attach
    · simp
    · rw [Graph.lastId_push]
      omega
  have houtcome := outcome_attach vertex target graph
  rw [hedge] at houtcome
  cases hrun : (attach vertex target).run graph with
  | error e after =>
    rw [hrun] at houtcome
    cases houtcome
  | ok a after =>
    rw [hrun] at houtcome
    cases houtcome
    exact ⟨_, _, rfl, _, (Graph.Grows.push_push graph _ _).elements.symm⟩

theorem adds_foldlM {step : β → α → OnGraph β} (hstep : ∀ b a, Adds bound (step b a))
    (xs : List α) (b : β) : Adds bound (xs.foldlM step b) := by
  induction xs generalizing b with
  | nil => exact adds_pure b
  | cons x xs ih =>
    rw [List.foldlM_cons]
    exact (hstep b x).bind ih

end OnGraph

/-! ### The pass -/

/-- What is kept beside the graph while visits are published. -/
structure Tally where
  /-- The identifiers that are taken. -/
  taken : List String
  attached : Nat := 0
  duplicates : Nat := 0
  deriving DecidableEq, Repr

namespace Tally

variable (scheme : String) (canonical : Nat → Option Canonical)

/-- Publishes one visit. -/
def publish (tally : Tally) (visit : Visit) : OnGraph Tally :=
  match canonical visit.record with
  | none => pure tally
  | some moniker =>
      let identifier := visit.path.identifier
      if identifier == moniker.identifier || tally.taken.contains identifier then
        pure { tally with duplicates := tally.duplicates + 1 }
      else do
        OnGraph.attach (.moniker ((Identity.exported identifier).under scheme)) moniker.vertex
        return { tally with
          taken := identifier :: tally.taken
          attached := tally.attached + 1 }

/-- Publishes a visit and then all that can be reached from it. `passed` holds the records passed
    so far, and `room` is the number of records that can still be passed. -/
def walk (steps : List (List Step)) : Nat → List Nat → Tally → Visit → OnGraph Tally
  | 0, _, tally, _ => pure tally
  | room + 1, passed, tally, visit =>
      if passed.contains visit.record then pure tally
      else do
        let tally ← tally.publish scheme canonical visit
        ((steps[visit.record]?).getD []).foldlM (fun tally step =>
          walk steps room (visit.record :: passed) tally
            ⟨step.target, visit.path.child step.name⟩) tally

/-- Publishes all that can be reached from the links that are public on their own. -/
def walkAll (table : SymbolTable) (links : List Link) (tally : Tally) : OnGraph Tally :=
  (links.filterMap Link.start?).foldlM
    (walk scheme canonical (table.steps links) table.records.length []) tally

end Tally

/-- Emits the alias monikers of a program into a graph that is changed in place. -/
def Program.aliasPass (program : Program) (naming : Naming) (table : SymbolTable)
    (canonical : Nat → Option Canonical) (scheme : String) : OnGraph AliasStats := do
  let links ← OnGraph.ofExcept (program.links naming table)
  let tally ← Tally.walkAll scheme canonical table links { taken := table.identifiers canonical }
  let linked := links.countP (·.isReached (table.visits links))
  return {
    total := links.length
    linked := linked
    skipped := links.length - linked
    attached := tally.attached
    duplicates := tally.duplicates }

/-! ### Both tellings -/

theorem foldlM_flatMap {α β γ : Type} {m : Type → Type} [Monad m] [LawfulMonad m]
    (f : γ → β → m γ) (g : α → List β) (xs : List α) (c : γ) :
    (xs.flatMap g).foldlM f c = xs.foldlM (fun c x => (g x).foldlM f c) c := by
  induction xs generalizing c with
  | nil => rfl
  | cons x xs ih => simp only [List.flatMap_cons, List.foldlM_append, List.foldlM_cons, ih]

namespace Tally

variable {scheme : String} {canonical : Nat → Option Canonical}

/-- The tally together with a graph. -/
def on (tally : Tally) (graph : Graph) : Publication :=
  ⟨graph, tally.taken, tally.attached, tally.duplicates⟩

/-- To publish during the walk is to list the visits of the walk and to publish them after it. -/
theorem walk_eq_foldlM (steps : List (List Step)) (room : Nat) (passed : List Nat) (tally : Tally)
    (visit : Visit) :
    walk scheme canonical steps room passed tally visit =
      (visitsFrom steps room passed visit).foldlM (publish scheme canonical) tally := by
  induction room generalizing passed tally visit with
  | zero => rfl
  | succ room ih =>
    rw [walk, visitsFrom]
    split
    · rfl
    · simp only [ih, List.foldlM_cons, foldlM_flatMap]

theorem walkAll_eq_foldlM (table : SymbolTable) (links : List Link) (tally : Tally) :
    walkAll scheme canonical table links tally =
      (table.visits links).foldlM (publish scheme canonical) tally := by
  have hwalk : walk scheme canonical (table.steps links) table.records.length [] =
      fun tally visit => (visitsFrom (table.steps links) table.records.length [] visit).foldlM
        (publish scheme canonical) tally :=
    funext fun tally => funext fun visit => walk_eq_foldlM _ _ _ tally visit
  rw [walkAll, hwalk, SymbolTable.visits, foldlM_flatMap]

theorem publish_on (tally : Tally) (graph : Graph) (visit : Visit) :
    (tally.on graph).publish scheme canonical visit =
      (OnGraph.outcome ((tally.publish scheme canonical visit).run graph)).map
        fun result => result.2.on result.1 := by
  unfold publish Publication.publish
  cases canonical visit.record with
  | none => rfl
  | some moniker =>
    dsimp only
    by_cases htaken : (visit.path.identifier == moniker.identifier ||
        tally.taken.contains visit.path.identifier) = true
    · have htaken' : (visit.path.identifier == moniker.identifier ||
          (tally.on graph).taken.contains visit.path.identifier) = true := htaken
      rw [if_pos htaken, if_pos htaken']
      rfl
    · have htaken' : ¬(visit.path.identifier == moniker.identifier ||
          (tally.on graph).taken.contains visit.path.identifier) = true := htaken
      rw [if_neg htaken, if_neg htaken', OnGraph.outcome_bind, OnGraph.outcome_attach]
      change (Graph.emitEdge (graph.push _) (.attach graph.nextId moniker.vertex) >>= _) = _
      cases Graph.emitEdge (graph.push _) (.attach graph.nextId moniker.vertex) with
      | ok result => rfl
      | error e => rfl

theorem foldlM_publish_on (visits : List Visit) (tally : Tally) (graph : Graph) :
    visits.foldlM (Publication.publish scheme canonical) (tally.on graph) =
      (OnGraph.outcome ((visits.foldlM (publish scheme canonical) tally).run graph)).map
        fun result => result.2.on result.1 := by
  induction visits generalizing tally graph with
  | nil => rfl
  | cons visit visits ih =>
    rw [List.foldlM_cons, List.foldlM_cons, OnGraph.outcome_bind, publish_on]
    cases OnGraph.outcome ((tally.publish scheme canonical visit).run graph) with
    | ok result => exact ih result.2 result.1
    | error e => rfl

end Tally

/-- Where both tellings give a graph, it is the same one, and they fail alike. -/
theorem Program.outcome_aliasPass (program : Program) (naming : Naming) (table : SymbolTable)
    (canonical : Nat → Option Canonical) (scheme : String) (graph : Graph) :
    OnGraph.outcome ((program.aliasPass naming table canonical scheme).run graph) =
      program.publishAliases naming table canonical scheme graph := by
  unfold aliasPass publishAliases
  rw [OnGraph.outcome_bind]
  cases program.links naming table with
  | error e => rfl
  | ok links =>
    have hstates := @Tally.foldlM_publish_on scheme canonical (table.visits links)
      { taken := table.identifiers canonical } graph
    change OnGraph.outcome (EStateM.run (Tally.walkAll scheme canonical table links
      { taken := table.identifiers canonical } >>= _) graph) =
        ((table.visits links).foldlM (Publication.publish scheme canonical)
          (Tally.on { taken := table.identifiers canonical } graph) >>= _)
    rw [OnGraph.outcome_bind, Tally.walkAll_eq_foldlM, hstates]
    cases OnGraph.outcome (EStateM.run _ graph) with
    | ok result => rfl
    | error e => rfl

/-! ### No edge is refused -/

theorem Tally.adds_publish {scheme : String} {canonical : Nat → Option Canonical} {bound : Nat}
    (hvertex : ∀ id moniker, canonical id = some moniker →
      1 ≤ moniker.vertex ∧ moniker.vertex ≤ bound) (tally : Tally) (visit : Visit) :
    OnGraph.Adds bound (tally.publish scheme canonical visit) := by
  unfold publish
  cases hcanonical : canonical visit.record with
  | none => exact OnGraph.adds_pure tally
  | some moniker =>
    dsimp only
    split
    · exact OnGraph.adds_pure _
    · exact (OnGraph.adds_attach _ (hvertex _ _ hcanonical)).bind fun _ => OnGraph.adds_pure _

theorem Tally.adds_walk {scheme : String} {canonical : Nat → Option Canonical} {bound : Nat}
    (hvertex : ∀ id moniker, canonical id = some moniker →
      1 ≤ moniker.vertex ∧ moniker.vertex ≤ bound) (steps : List (List Step)) (room : Nat)
    (passed : List Nat) (tally : Tally) (visit : Visit) :
    OnGraph.Adds bound (walk scheme canonical steps room passed tally visit) := by
  induction room generalizing passed tally visit with
  | zero => exact OnGraph.adds_pure tally
  | succ room ih =>
    rw [walk]
    split
    · exact OnGraph.adds_pure tally
    · apply (adds_publish hvertex tally visit).bind
      intro tally
      apply OnGraph.adds_foldlM
      intro tally step
      exact ih _ tally _

/-! ### Missing things -/

/-- Whether no record of the table was reported under the handle. -/
def SymbolTable.Lacks (table : SymbolTable) (handle : Handle) : Prop :=
  ∀ record ∈ table.records, handle ∉ record.handles

theorem SymbolTable.resolve_eq_none_iff {table : SymbolTable} {handle : Handle} :
    table.resolve handle = none ↔ table.Lacks handle := by
  simp [resolve, Lacks, List.findIdx?_eq_none_iff]

/-- Whether something that an alias mentions is missing: its target, its container, or the document
    of an alias without a container. -/
def Alias.Dangling (aliasFact : Alias) (program : Program) (table : SymbolTable) : Prop :=
  table.Lacks aliasFact.target ∨
    (∃ handle, aliasFact.container = some handle ∧ table.Lacks handle) ∨
    aliasFact.container = none ∧ aliasFact.file ∉ program.documents.map Document.path

namespace Program

variable {program : Program} {naming : Naming} {table : SymbolTable}

theorem findTarget_accepts_of_lacks (table : SymbolTable) (aliasFact : Alias) :
    Accepts (¬table.Lacks aliasFact.target) (aliasFact.findTarget table) := by
  rw [← SymbolTable.resolve_eq_none_iff, Alias.findTarget]
  cases table.resolve aliasFact.target with
  | some id => exact .ok (by simp) id
  | none => exact .error (by simp) rfl

theorem findContainer_accepts_of_lacks (table : SymbolTable) (aliasFact : Alias) :
    Accepts (¬∃ handle, aliasFact.container = some handle ∧ table.Lacks handle)
      (aliasFact.findContainer table) := by
  simp only [← SymbolTable.resolve_eq_none_iff, Alias.findContainer]
  cases aliasFact.container with
  | none => exact .ok (by simp) none
  | some handle =>
    simp only [Option.some.injEq, exists_eq_left']
    cases table.resolve handle with
    | some id => exact .ok (by simp) (some id)
    | none => exact .error (by simp) rfl

/-- An alias gives a link unless something that it mentions is missing. -/
theorem link_accepts_of_dangling (naming : Naming) (table : SymbolTable) (aliasFact : Alias) :
    Accepts (¬aliasFact.Dangling program table) (aliasFact.link program naming table) := by
  have hstages : Accepts _ (aliasFact.link program naming table) :=
    (findTarget_accepts_of_lacks table aliasFact).bind fun _ target _ =>
      (findContainer_accepts_of_lacks table aliasFact).bind fun _ container hcontainer =>
        (findBase_accepts naming hcontainer).bind fun _ base _ =>
          Accepts.ok trivial (Link.mk aliasFact.name target container base)
  refine hstages.congr ?_
  simp only [Alias.Dangling, not_or, not_and, not_not, and_true]

theorem links_accepts_of_dangling (program : Program) (naming : Naming) (table : SymbolTable) :
    Accepts (∀ aliasFact ∈ program.aliases, ¬aliasFact.Dangling program table)
      (program.links naming table) := by
  have hall : Accepts _ (program.links naming table) :=
    Accepts.mapM fun aliasFact _ => link_accepts_of_dangling naming table aliasFact
  refine hall.congr ?_
  simp only [sortedAliases, mem_sortBy]

/-- A missing link ends the pass before anything is added. -/
theorem run_aliasPass_of_links_error {e : Error} (canonical : Nat → Option Canonical)
    (scheme : String) (graph : Graph) (h : program.links naming table = .error e) :
    (program.aliasPass naming table canonical scheme).run graph = .error e graph := by
  unfold aliasPass
  rw [h]
  rfl

/-- What comes after the links only adds to the graph. -/
theorem exists_run_aliasPass_of_links {canonical : Nat → Option Canonical} {links : List Link}
    (scheme : String) {graph : Graph} (hvertex : ∀ id moniker, canonical id = some moniker →
      1 ≤ moniker.vertex ∧ moniker.vertex ≤ graph.lastId)
    (h : program.links naming table = .ok links) :
    ∃ stats after, (program.aliasPass naming table canonical scheme).run graph = .ok stats after ∧
      graph.elements.toList <+: after.elements.toList := by
  have hadds : OnGraph.Adds graph.lastId
      (Tally.walkAll scheme canonical table links { taken := table.identifiers canonical }) :=
    OnGraph.adds_foldlM (Tally.adds_walk hvertex _ _ _) _ _
  obtain ⟨tally, after, hwalk, hkept⟩ := hadds graph le_rfl
  obtain ⟨stats, hrun⟩ : ∃ stats, (program.aliasPass naming table canonical scheme).run graph =
      .ok stats after := by
    unfold aliasPass
    rw [h]
    change ∃ stats, EStateM.run (Tally.walkAll scheme canonical table links _ >>= _) graph =
      .ok stats after
    rw [OnGraph.run_bind_ok hwalk]
    exact ⟨_, rfl⟩
  exact ⟨stats, after, hrun, hkept⟩

/-- The alias pass changes a graph altogether or not at all. It fails exactly if something that an
    alias mentions is missing, and then the graph is as it was before; if it succeeds, what the
    graph held stands unchanged in front of what was added. -/
theorem aliasPass_allOrNothing {canonical : Nat → Option Canonical} (scheme : String)
    {graph : Graph} (hvertex : ∀ id moniker, canonical id = some moniker →
      1 ≤ moniker.vertex ∧ moniker.vertex ≤ graph.lastId) :
    OnGraph.outcome ((program.aliasPass naming table canonical scheme).run graph) =
      program.publishAliases naming table canonical scheme graph ∧
    ((∃ e after, (program.aliasPass naming table canonical scheme).run graph = .error e after) ↔
      ∃ aliasFact ∈ program.aliases, aliasFact.Dangling program table) ∧
    (∀ e after, (program.aliasPass naming table canonical scheme).run graph = .error e after →
      after = graph) ∧
    ∀ stats after, (program.aliasPass naming table canonical scheme).run graph = .ok stats after →
      graph.elements.toList <+: after.elements.toList := by
  refine ⟨outcome_aliasPass program naming table canonical scheme graph, ?_⟩
  have hlinks := links_accepts_of_dangling program naming table
  cases hfound : program.links naming table with
  | error e =>
    rw [hfound] at hlinks
    cases hlinks with
    | error hdangling _ =>
      rw [run_aliasPass_of_links_error canonical scheme graph hfound]
      refine ⟨?_, ?_, ?_⟩
      · push Not at hdangling
        exact ⟨fun _ => hdangling, fun _ => ⟨e, graph, rfl⟩⟩
      · intro e' after heq
        cases heq
        rfl
      · intro stats after heq
        cases heq
  | ok links =>
    rw [hfound] at hlinks
    obtain ⟨stats, final, hrun, hkept⟩ := exists_run_aliasPass_of_links scheme hvertex hfound
    cases hlinks with
    | ok hnone _ =>
      rw [hrun]
      refine ⟨?_, ?_, ?_⟩
      · constructor
        · rintro ⟨e, after, heq⟩
          cases heq
        · rintro ⟨aliasFact, hmem, hdangling⟩
          exact absurd hdangling (hnone aliasFact hmem)
      · intro e after heq
        cases heq
      · intro stats' after heq
        cases heq
        exact hkept

/-- The shop with a second alias, of which the target is missing. -/
def shopWithGap : Program :=
  { shop with aliases := shop.aliases ++ [⟨"/p/shop.ts", .onLine 6 17 21, none, "Gone", 9⟩] }

/-- The monikers of the namespace and of the function of the shop. -/
def shopCanonical (id : Nat) : Option Canonical :=
  [(0, ⟨1, "shop:Shop"⟩), (1, ⟨2, "shop:Shop.open"⟩)].lookup id

/-- The alias of the shop adds a moniker for the namespace and one for its function, each with an
    edge. With the second alias nothing is added, though the first one is before it. -/
theorem aliasPass_shop : ∃ table, shop.merge = .ok table ∧ ∃ graph : Graph, graph.lastId = 2 ∧
    (∃ stats after, (shop.aliasPass (shop.naming {}) table shopCanonical "ts").run graph =
      .ok stats after ∧ graph.elements.toList <+: after.elements.toList ∧ after.lastId = 6) ∧
    ∃ e, (shopWithGap.aliasPass (shop.naming {}) table shopCanonical "ts").run graph =
      .error e graph := by
  let graph : Graph := (Graph.empty.push (.vertex .resultSet)).push (.vertex .resultSet)
  have hfacts : shop.merge.toOption.map (fun table =>
      (table.records.all (!·.handles.contains 9),
        (shop.publishAliases (shop.naming {}) table shopCanonical "ts" graph).toOption.map
          (·.1.lastId))) = some (true, some 6) := by
    decide +kernel
  obtain ⟨table, hmerge, hfacts⟩ := Option.map_eq_some_iff.mp hfacts
  rw [Prod.mk.injEq] at hfacts
  obtain ⟨⟨after, stats⟩, hpublish, hsize⟩ := Option.map_eq_some_iff.mp hfacts.2
  rw [toOption_eq_some_iff] at hmerge hpublish
  have hvertex : ∀ id moniker, shopCanonical id = some moniker →
      1 ≤ moniker.vertex ∧ moniker.vertex ≤ graph.lastId := by
    intro id moniker hmoniker
    match id with
    | 0 | 1 =>
      cases hmoniker
      decide
    | id + 2 => cases hmoniker
  refine ⟨table, hmerge, graph, rfl, ?_, ?_⟩
  · obtain ⟨houtcome, -, -, hkept⟩ := @aliasPass_allOrNothing shop (shop.naming {}) table
      shopCanonical "ts" graph hvertex
    rw [hpublish] at houtcome
    cases hrun : (shop.aliasPass (shop.naming {}) table shopCanonical "ts").run graph with
    | error e after' =>
      rw [hrun] at houtcome
      cases houtcome
    | ok stats' after' =>
      rw [hrun] at houtcome
      cases houtcome
      exact ⟨stats, after, rfl, hkept stats after hrun, hsize⟩
  · obtain ⟨-, hfails, hunchanged, -⟩ := @aliasPass_allOrNothing shopWithGap (shop.naming {}) table
      shopCanonical "ts" graph hvertex
    have hlacks : table.Lacks 9 := by
      intro record hrecord
      simpa using List.all_eq_true.mp hfacts.1 record hrecord
    obtain ⟨e, after', hrun⟩ := hfails.mpr ⟨_, List.mem_append_right _ List.mem_cons_self,
      .inl hlacks⟩
    obtain rfl := hunchanged e after' hrun
    exact ⟨e, hrun⟩

end Program

end MonikerIndex
