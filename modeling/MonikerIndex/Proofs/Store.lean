import MonikerIndex.Graph.InPlace
import MonikerIndex.Proofs.Growth

/-!
# The graph under any calls

A graph is built through three calls, `emit`, `emitVertex` and `emitEdge`, with whatever vertices
and edges a caller comes up with. The calls are work on a graph that is changed in place, so that
there is a graph after a failure, too. A call is accepted exactly if it brings a vertex, or an edge
that leads somewhere and only back (`Payload.Fits`); an accepted call adds its payload under the
next number and answers with that number. A refused call leaves the graph as it was, since an edge
is checked before anything is added (`run_emit_of_not_fits`). Apart from the graph of a failure the
calls come to the same as the functions on graphs by which programs are indexed (`outcome_emit`).

From this follows what holds of every graph that calls can build (`Orderly`): the elements are
numbered by their places, edges lead back, and an element is found under its number. Nothing that
was stored is touched again, so an earlier graph is always the beginning of a later one.

Main statement: `run_orderly`.
-/

namespace MonikerIndex

/-! ### What may be added -/

/-- Whether an edge that is to get the number `id` has a target and connects earlier elements
    only. -/
structure Edge.LeadsBack (edge : Edge) (id : Nat) : Prop where
  leads : edge.target ≠ none ∨ edge.targets ≠ []
  source : 1 ≤ edge.source ∧ edge.source ≤ id - 1
  target : ∀ target, edge.target = some target → 1 ≤ target ∧ target ≤ id - 1
  targets : ∀ target ∈ edge.targets, 1 ≤ target ∧ target ≤ id - 1

/-- Whether a payload may get the number `id`: any vertex may. -/
def Payload.Fits (id : Nat) : Payload → Prop
  | .vertex _ => True
  | .edge connection => connection.LeadsBack id

theorem Edge.leadsBack_iff {edge : Edge} {id : Nat} :
    edge.LeadsBack id ↔
      edge.allTargets ≠ [] ∧ ∀ endpoint ∈ edge.endpoints, 1 ≤ endpoint ∧ endpoint ≤ id - 1 := by
  have hleads : edge.allTargets ≠ [] ↔ edge.target ≠ none ∨ edge.targets ≠ [] := by
    cases htarget : edge.target with
    | none => simp [allTargets, htarget]
    | some target => simp [allTargets, htarget]
  rw [hleads]
  constructor
  · rintro ⟨hsome, hsource, htarget, htargets⟩
    refine ⟨hsome, ?_⟩
    intro endpoint hmem
    simp only [endpoints, allTargets, List.mem_cons, List.mem_append, Option.mem_toList] at hmem
    rcases hmem with rfl | hmem | hmem
    · exact hsource
    · exact htarget endpoint hmem
    · exact htargets endpoint hmem
  · rintro ⟨hsome, hends⟩
    refine ⟨hsome, hends _ List.mem_cons_self, ?_, ?_⟩
    · intro target htarget
      apply hends
      simp [endpoints, allTargets, htarget]
    · intro target htarget
      apply hends
      simp [endpoints, allTargets, htarget]

/-! ### Work on a graph -/

namespace OnGraph

variable {α β : Type}

/-- What work came to, without the graph of a failure. -/
def outcome : EStateM.Result Error Graph α → Except Error (Graph × α)
  | .ok a graph => .ok (graph, a)
  | .error e _ => .error e

/-- The graph that work leaves behind, whichever way it ends. -/
def left : EStateM.Result Error Graph α → Graph
  | .ok _ graph => graph
  | .error _ graph => graph

theorem run_bind_ok {work : OnGraph α} {graph after : Graph} {a : α}
    (h : work.run graph = .ok a after) (next : α → OnGraph β) :
    (work >>= next).run graph = (next a).run after := by
  change EStateM.bind work next graph = _
  rw [EStateM.bind, show work graph = .ok a after from h]
  rfl

theorem run_bind_error {work : OnGraph α} {graph after : Graph} {e : Error}
    (h : work.run graph = .error e after) (next : α → OnGraph β) :
    (work >>= next).run graph = .error e after := by
  change EStateM.bind work next graph = _
  rw [EStateM.bind, show work graph = .error e after from h]

theorem outcome_bind (work : OnGraph α) (next : α → OnGraph β) (graph : Graph) :
    outcome ((work >>= next).run graph) =
      outcome (work.run graph) >>= fun result => outcome ((next result.2).run result.1) := by
  cases h : work.run graph with
  | ok a after =>
    rw [run_bind_ok h]
    rfl
  | error e after =>
    rw [run_bind_error h]
    rfl

end OnGraph

/-! ### What one emission does -/

namespace Graph

variable {graph : Graph} {edge : Edge}

theorem checkEdge_iff_leadsBack {id : Nat} : checkEdge id edge = .ok () ↔ edge.LeadsBack id := by
  rw [Edge.leadsBack_iff, checkEdge_eq_ok_iff]

theorem emitEdge_eq_ok_iff {result : Graph × Nat} :
    graph.emitEdge edge = .ok result ↔
      edge.LeadsBack graph.nextId ∧ result = (graph.push (.edge edge), graph.nextId) := by
  rw [emitEdge, bind_eq_ok_iff, ← checkEdge_iff_leadsBack]
  constructor
  · rintro ⟨_, hcheck, h⟩
    exact ⟨hcheck, (Except.ok.inj h).symm⟩
  · rintro ⟨hcheck, rfl⟩
    exact ⟨(), hcheck, rfl⟩

end Graph

namespace OnGraph

variable {graph : Graph} {payload : Payload}

theorem run_emit_of_fits (h : payload.Fits graph.nextId) :
    (emit payload).run graph = .ok graph.nextId (graph.push payload) := by
  cases payload with
  | vertex node => rfl
  | edge connection =>
    have hcheck : (ofExcept (Graph.checkEdge graph.nextId connection)).run graph =
        .ok () graph := by
      rw [Graph.checkEdge_iff_leadsBack.mpr h]
      rfl
    exact run_bind_ok hcheck _

/-- The error comes up before the edge is added. -/
theorem run_emit_of_not_fits (h : ¬payload.Fits graph.nextId) :
    ∃ error, (emit payload).run graph = .error error graph := by
  cases payload with
  | vertex node => exact absurd trivial h
  | edge connection =>
    cases hcheck : Graph.checkEdge graph.nextId connection with
    | ok => exact absurd (Graph.checkEdge_iff_leadsBack.mp hcheck) h
    | error error =>
      have hstop : (ofExcept (Graph.checkEdge graph.nextId connection)).run graph =
          .error error graph := by
        rw [hcheck]
        rfl
      exact ⟨error, run_bind_error hstop _⟩

theorem outcome_emit (payload : Payload) (graph : Graph) :
    outcome ((emit payload).run graph) = graph.emit payload := by
  cases payload with
  | vertex node => rfl
  | edge connection =>
    change outcome ((ofExcept (Graph.checkEdge graph.nextId connection) >>= fun _ => do
      store ⟨graph.nextId, .edge connection⟩
      return graph.nextId : OnGraph Nat).run graph) = graph.emitEdge connection
    rw [outcome_bind, Graph.emitEdge]
    cases Graph.checkEdge graph.nextId connection with
    | ok => rfl
    | error error => rfl

end OnGraph

/-! ### Calls -/

namespace Graph

inductive Call where
  | emit (payload : Payload)
  | emitVertex (node : Vertex)
  | emitEdge (connection : Edge)
  deriving DecidableEq, Repr

namespace Call

/-- What a call is to add. -/
def payload : Call → Payload
  | .emit payload => payload
  | .emitVertex node => .vertex node
  | .emitEdge connection => .edge connection

/-- What a call does to the graph it is made on. -/
def work : Call → OnGraph Nat
  | .emit payload => OnGraph.emit payload
  | .emitVertex node => OnGraph.emitVertex node
  | .emitEdge connection => OnGraph.emitEdge connection

theorem work_eq (call : Call) : call.work = OnGraph.emit call.payload := by
  cases call with
  | emit payload => rfl
  | emitVertex node => rfl
  | emitEdge connection => rfl

variable {graph : Graph} {call : Call}

theorem run_work_of_fits (h : call.payload.Fits graph.nextId) :
    call.work.run graph = .ok graph.nextId (graph.push call.payload) := by
  rw [work_eq, OnGraph.run_emit_of_fits h]

theorem run_work_of_not_fits (h : ¬call.payload.Fits graph.nextId) :
    ∃ error, call.work.run graph = .error error graph := by
  rw [work_eq]
  exact OnGraph.run_emit_of_not_fits h

end Call

/-- What the same call comes to as a function on graphs. -/
def answer (graph : Graph) : Call → Except Error (Graph × Nat)
  | .emit payload => graph.emit payload
  | .emitVertex node => .ok (graph.emitVertex node)
  | .emitEdge connection => graph.emitEdge connection

/-- The graph that a caller has after a call, accepted or not. -/
def perform (graph : Graph) (call : Call) : Graph :=
  OnGraph.left (call.work.run graph)

/-- The graph after some calls on a new one. -/
def run (calls : List Call) : Graph :=
  calls.foldl perform empty

theorem run_append (calls more : List Call) :
    run (calls ++ more) = more.foldl perform (run calls) :=
  List.foldl_append

variable {graph : Graph} {call : Call}

theorem perform_of_fits (h : call.payload.Fits graph.nextId) :
    graph.perform call = graph.push call.payload := by
  rw [perform, Call.run_work_of_fits h, OnGraph.left]

theorem perform_of_not_fits (h : ¬call.payload.Fits graph.nextId) :
    graph.perform call = graph := by
  obtain ⟨error, hrun⟩ := Call.run_work_of_not_fits h
  rw [perform, hrun, OnGraph.left]

/-- The contract of one call: when it is accepted, what it answers and leaves behind then and
    otherwise, and that it comes to the same as a function on graphs. -/
structure Answered (graph : Graph) (call : Call) : Prop where
  succeeds_iff : (∃ id after, call.work.run graph = .ok id after) ↔
    call.payload.Fits (graph.lastId + 1)
  accepted : ∀ id after, call.work.run graph = .ok id after →
    id = graph.lastId + 1 ∧ after.elements = graph.elements.push ⟨id, call.payload⟩
  refused : ∀ error after, call.work.run graph = .error error after → after = graph
  outcome : OnGraph.outcome (call.work.run graph) = graph.answer call

theorem outcome_work (graph : Graph) (call : Call) :
    OnGraph.outcome (call.work.run graph) = graph.answer call := by
  cases call with
  | emit payload => exact OnGraph.outcome_emit payload graph
  | emitVertex node => rfl
  | emitEdge connection => exact OnGraph.outcome_emit (.edge connection) graph

theorem answered (graph : Graph) (call : Call) : graph.Answered call := by
  have houtcome := outcome_work graph call
  by_cases hfits : call.payload.Fits graph.nextId
  · have hrun := Call.run_work_of_fits hfits
    refine ⟨⟨fun _ => hfits, fun _ => ⟨_, _, hrun⟩⟩, ?_, ?_, houtcome⟩
    · intro id after hid
      rw [hrun] at hid
      cases hid
      exact ⟨rfl, rfl⟩
    · intro error after herror
      rw [hrun] at herror
      cases herror
  · obtain ⟨error, hrun⟩ := Call.run_work_of_not_fits hfits
    refine ⟨⟨?_, fun h => absurd h hfits⟩, ?_, ?_, houtcome⟩
    · rintro ⟨id, after, hid⟩
      rw [hrun] at hid
      cases hid
    · intro id after hid
      rw [hrun] at hid
      cases hid
    · intro error' after herror
      rw [hrun] at herror
      cases herror
      rfl

/-! ### What calls keep -/

/-- What holds of every graph that calls have built: an element's number is its place, edges lead
    back, and elements are found under their numbers. -/
structure Orderly (graph : Graph) : Prop where
  numbered : ∀ i element, graph.elements[i]? = some element → element.id = i + 1
  backward : ∀ element ∈ graph.elements, element.payload.Fits element.id
  found : ∀ id element, graph.get? id = some element ↔ element ∈ graph.elements ∧ element.id = id
  bounds : ∀ id, (graph.get? id).isSome ↔ 1 ≤ id ∧ id ≤ graph.lastId

theorem isSome_get?_iff (graph : Graph) (id : Nat) :
    (graph.get? id).isSome ↔ 1 ≤ id ∧ id ≤ graph.lastId := by
  unfold get? lastId
  by_cases hzero : id = 0
  · simp [hzero]
  · rw [if_neg hzero, isSome_getElem?]
    omega

/-- A graph that has grown from nothing by payloads that fit is in order. -/
theorem orderly_of_grows {block : List Element} (h : empty.Grows block graph)
    (hfits : ∀ element ∈ block, element.payload.Fits element.id) : graph.Orderly := by
  have helements : graph.elements.toList = block := h.elements
  refine ⟨?_, ?_, ?_, graph.isSome_get?_iff⟩
  · intro i element helement
    have hget : graph.get? (i + 1) = some element := by
      rw [get?, if_neg (Nat.succ_ne_zero i)]
      exact helement
    exact ((get?_eq_some_iff h).mp hget).2
  · intro element helement
    apply hfits
    rw [← helements]
    exact Array.mem_toList_iff.mpr helement
  · intro id element
    rw [get?_eq_some_iff h, ← helements, Array.mem_toList_iff]

/-- Calls make a graph grow by payloads that fit. -/
theorem exists_grows_foldl (calls : List Call) (graph : Graph) :
    ∃ block, graph.Grows block (calls.foldl perform graph) ∧
      ∀ element ∈ block, element.payload.Fits element.id := by
  induction calls generalizing graph with
  | nil => exact ⟨[], Grows.refl graph, by simp⟩
  | cons call calls ih =>
    rw [List.foldl_cons]
    by_cases hfits : call.payload.Fits graph.nextId
    · rw [perform_of_fits hfits]
      obtain ⟨block, hgrows, hblock⟩ := ih (graph.push call.payload)
      refine ⟨_, (Grows.push graph call.payload).trans hgrows, ?_⟩
      intro element helement
      rcases List.mem_cons.mp helement with rfl | helement
      · exact hfits
      · exact hblock element helement
    · rw [perform_of_not_fits hfits]
      exact ih graph

/-- Whatever is called on a new graph, it stays in order: elements are numbered by their places,
    edges have targets and lead back, and an element is found under its number. The next call
    succeeds exactly if it brings a vertex or an edge that leads back, and then answers with the
    next number; otherwise it changes nothing. What was stored by the earlier calls stays. -/
theorem run_orderly (calls : List Call) :
    (run calls).Orderly ∧ (∀ call, (run calls).Answered call) ∧ ∀ before, before <+: calls →
      (run before).elements.toList <+: (run calls).elements.toList := by
  refine ⟨?_, (run calls).answered, ?_⟩
  · obtain ⟨block, hgrows, hfits⟩ := exists_grows_foldl calls empty
    exact orderly_of_grows hgrows hfits
  · rintro before ⟨more, rfl⟩
    obtain ⟨block, hgrows, -⟩ := exists_grows_foldl more (run before)
    rw [run_append, hgrows.elements]
    exact List.prefix_append _ block

/-- An edge to an element that is still to come takes no number. -/
example : run [.emitVertex .resultSet, .emitEdge (.attach 1 5), .emitVertex .resultSet,
    .emit (.edge (.attach 2 1))] = run [.emitVertex .resultSet, .emitVertex .resultSet,
    .emitEdge (.attach 2 1)] := by decide

end Graph

end MonikerIndex
