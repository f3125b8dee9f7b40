import MonikerIndex.Alias.Remark
import Mathlib.Data.List.Chain
import Mathlib.Data.List.Lex
import Mathlib.Data.List.Nodup
import Mathlib.Data.List.Perm.Subperm

/-!
# Walks without repetition

A walk is told by numbers: which of the roots it starts from, and which of the possible steps it
takes each time. Ordered as lists of numbers, a walk comes before those that continue it, and the
walks through one step before those through a later one. That is the order of a depth-first search.

`visitsFrom` recurses on the room that is left and so seems to cut walks short. It does not: a walk
that never comes back to a record cannot be longer than there are records. The visits are exactly
the ends of the walks without repetition, in their order (`exists_simpleWalks`).

The meetings, on which remarks are made, come from a recursion of their own. Without the returns to
records that were passed they are the same visits (`filterMap_meetings`).
-/

namespace MonikerIndex

/-! ### Walks by their choices -/

/-- The visits of the walk that starts with `visit` and takes the steps with the given numbers. -/
def follow (next : Visit → List Visit) : Visit → List Nat → Option (List Visit)
  | visit, [] => some [visit]
  | visit, choice :: choices => do
      let after ← (next visit)[choice]?
      let visits ← follow next after choices
      return visit :: visits

/-- The visits of the walk that starts from the root with the first number. -/
def trace (roots : List Visit) (next : Visit → List Visit) : List Nat → Option (List Visit)
  | [] => none
  | choice :: choices => do
      let root ← roots[choice]?
      follow next root choices

/-- Whether the numbers tell a walk that passes no record twice. -/
def IsSimpleWalk (roots : List Visit) (next : Visit → List Visit) (choices : List Nat) : Prop :=
  ∃ visits, trace roots next choices = some visits ∧ (visits.map Visit.record).Nodup

/-- Where a walk ends. -/
def walkEnd (roots : List Visit) (next : Visit → List Visit) (choices : List Nat) : Option Visit :=
  (trace roots next choices).bind List.getLast?

variable {roots : List Visit} {next : Visit → List Visit}

theorem follow_cons_eq_some_iff {visit : Visit} {choice : Nat} {choices : List Nat}
    {visits : List Visit} :
    follow next visit (choice :: choices) = some visits ↔
      ∃ after rest, (next visit)[choice]? = some after ∧ follow next after choices = some rest ∧
        visits = visit :: rest := by
  simp only [follow, Option.bind_eq_bind, Option.bind_eq_some_iff, Option.pure_def,
    Option.some.injEq]
  constructor
  · rintro ⟨after, hafter, rest, hrest, rfl⟩
    exact ⟨after, rest, hafter, hrest, rfl⟩
  · rintro ⟨after, rest, hafter, hrest, rfl⟩
    exact ⟨after, hafter, rest, hrest, rfl⟩

theorem head?_follow {visit : Visit} {choices : List Nat} {visits : List Visit}
    (h : follow next visit choices = some visits) : visits.head? = some visit := by
  cases choices with
  | nil =>
    cases h
    rfl
  | cons choice choices =>
    obtain ⟨after, rest, -, -, rfl⟩ := follow_cons_eq_some_iff.mp h
    rfl

/-- What every root has and every step keeps, every visit of a walk has. -/
theorem forall_mem_follow {P : Visit → Prop} (hnext : ∀ visit, ∀ after ∈ next visit, P after)
    {visit : Visit} (hvisit : P visit) {choices : List Nat} {visits : List Visit}
    (h : follow next visit choices = some visits) : ∀ v ∈ visits, P v := by
  induction choices generalizing visit visits with
  | nil =>
    cases h
    simpa using hvisit
  | cons choice choices ih =>
    obtain ⟨after, rest, hafter, hrest, rfl⟩ := follow_cons_eq_some_iff.mp h
    intro v hv
    rcases List.mem_cons.mp hv with rfl | hv
    · exact hvisit
    · exact ih (hnext visit after (List.mem_of_getElem? hafter)) hrest v hv

theorem forall_walkEnd {P : Visit → Prop} (hroots : ∀ root ∈ roots, P root)
    (hnext : ∀ visit, ∀ after ∈ next visit, P after) {choices : List Nat} {last : Visit}
    (h : walkEnd roots next choices = some last) : P last := by
  obtain ⟨visits, htrace, hlast⟩ := Option.bind_eq_some_iff.mp h
  cases choices with
  | nil => cases htrace
  | cons choice choices =>
    obtain ⟨root, hroot, hfollow⟩ := Option.bind_eq_some_iff.mp htrace
    exact forall_mem_follow hnext (hroots root (List.mem_of_getElem? hroot)) hfollow last
      (List.mem_of_getLast? hlast)

theorem exists_follow_iff {visit : Visit} {visits : List Visit} :
    (∃ choices, follow next visit choices = some visits) ↔
      visits.head? = some visit ∧ visits.IsChain fun visit after => after ∈ next visit := by
  constructor
  · rintro ⟨choices, h⟩
    refine ⟨head?_follow h, ?_⟩
    induction choices generalizing visit visits with
    | nil =>
      cases h
      exact List.isChain_singleton visit
    | cons choice choices ih =>
      obtain ⟨after, rest, hafter, hrest, rfl⟩ := follow_cons_eq_some_iff.mp h
      refine List.isChain_cons.mpr ⟨?_, ih hrest⟩
      intro first hfirst
      rw [head?_follow hrest] at hfirst
      cases hfirst
      exact List.mem_of_getElem? hafter
  · rintro ⟨hhead, hchain⟩
    induction visits generalizing visit with
    | nil => cases hhead
    | cons first rest ih =>
      cases hhead
      cases rest with
      | nil => exact ⟨[], rfl⟩
      | cons after rest =>
        obtain ⟨hstep, hrest⟩ := List.isChain_cons_cons.mp hchain
        obtain ⟨choice, hchoice⟩ := List.mem_iff_getElem?.mp hstep
        obtain ⟨choices, hchoices⟩ := ih rfl hrest
        exact ⟨choice :: choices,
          follow_cons_eq_some_iff.mpr ⟨after, _, hchoice, hchoices, rfl⟩⟩

/-- The visits of walks are the chains of steps that start from a root. -/
theorem exists_trace_iff {visits : List Visit} :
    (∃ choices, trace roots next choices = some visits) ↔
      (∃ root ∈ roots, visits.head? = some root) ∧
        visits.IsChain fun visit after => after ∈ next visit := by
  constructor
  · rintro ⟨choices, h⟩
    cases choices with
    | nil => cases h
    | cons choice choices =>
      obtain ⟨root, hroot, hfollow⟩ := Option.bind_eq_some_iff.mp h
      obtain ⟨hhead, hchain⟩ := exists_follow_iff.mp ⟨choices, hfollow⟩
      exact ⟨⟨root, List.mem_of_getElem? hroot, hhead⟩, hchain⟩
  · rintro ⟨⟨root, hroot, hhead⟩, hchain⟩
    obtain ⟨choice, hchoice⟩ := List.mem_iff_getElem?.mp hroot
    obtain ⟨choices, hchoices⟩ := exists_follow_iff.mpr ⟨hhead, hchain⟩
    exact ⟨choice :: choices, Option.bind_eq_some_iff.mpr ⟨root, hchoice, hchoices⟩⟩

/-! ### Listing walks with their numbers -/

/-- Walks that go on from each of some visits, with the number of that visit put in front. -/
def numberWalks (starts : List Visit) (walks : Visit → List (List Nat × Visit)) :
    List (List Nat × Visit) :=
  starts.zipIdx.flatMap fun start =>
    (walks start.1).map fun walk => (start.2 :: walk.1, walk.2)

/-- The walks behind `visitsFrom`, each with its numbers and its end. -/
def walksFrom (next : Visit → List Visit) : Nat → List Nat → Visit → List (List Nat × Visit)
  | 0, _, _ => []
  | room + 1, passed, visit =>
      if visit.record ∈ passed then []
      else ([], visit) :: numberWalks (next visit) (walksFrom next room (visit.record :: passed))

theorem map_snd_numberWalks (starts : List Visit) (walks : Visit → List (List Nat × Visit)) :
    (numberWalks starts walks).map Prod.snd =
      starts.flatMap fun start => (walks start).map Prod.snd := by
  have hfst : starts = starts.zipIdx.map Prod.fst := (List.zipIdx_map_fst 0 starts).symm
  conv_rhs => rw [hfst, List.flatMap_map]
  simp only [numberWalks, List.map_flatMap, List.map_map]
  rfl

theorem mem_numberWalks_iff {starts : List Visit} {walks : Visit → List (List Nat × Visit)}
    {choices : List Nat} {last : Visit} :
    (choices, last) ∈ numberWalks starts walks ↔
      ∃ choice rest start, choices = choice :: rest ∧ starts[choice]? = some start ∧
        (rest, last) ∈ walks start := by
  simp only [numberWalks, List.mem_flatMap, List.mem_map, Prod.exists, Prod.mk.injEq,
    List.mk_mem_zipIdx_iff_getElem?]
  constructor
  · rintro ⟨start, choice, hstart, rest, last', hmem, rfl, rfl⟩
    exact ⟨choice, rest, start, rfl, hstart, hmem⟩
  · rintro ⟨choice, rest, start, rfl, hstart, hmem⟩
    exact ⟨start, choice, hstart, rest, last, hmem, rfl, rfl⟩

/-- Walks numbered in order are in the order of their numbers. -/
theorem pairwise_numberWalks {starts : List Visit} {walks : Visit → List (List Nat × Visit)}
    (h : ∀ start, (walks start).Pairwise fun a b => a.1 < b.1) :
    (numberWalks starts walks).Pairwise fun a b => a.1 < b.1 := by
  rw [numberWalks, List.pairwise_flatMap]
  constructor
  · intro start _
    rw [List.pairwise_map]
    exact (h start.1).imp fun hlt => List.cons_lt_cons_iff.mpr (Or.inr ⟨rfl, hlt⟩)
  · have hnumbers : starts.zipIdx.Pairwise fun a b => a.2 < b.2 := by
      have hrange := List.pairwise_lt_range' (s := 0) (n := starts.length)
      rw [← List.zipIdx_map_snd, List.pairwise_map] at hrange
      exact hrange
    refine hnumbers.imp fun {a b} hab x hx y hy => ?_
    obtain ⟨x', -, rfl⟩ := List.mem_map.mp hx
    obtain ⟨y', -, rfl⟩ := List.mem_map.mp hy
    exact List.cons_lt_cons_iff.mpr (Or.inl hab)

theorem pairwise_walksFrom (next : Visit → List Visit) (room : Nat) (passed : List Nat)
    (visit : Visit) : (walksFrom next room passed visit).Pairwise fun a b => a.1 < b.1 := by
  induction room generalizing passed visit with
  | zero => exact List.Pairwise.nil
  | succ room ih =>
    simp only [walksFrom]
    split
    · exact List.Pairwise.nil
    · refine List.pairwise_cons.mpr ⟨?_, pairwise_numberWalks fun start => ih _ start⟩
      rintro ⟨choices, last⟩ hmem
      obtain ⟨choice, rest, start, rfl, -, -⟩ := mem_numberWalks_iff.mp hmem
      exact List.nil_lt_cons choice rest

/-- Whether visits are to distinct records, none of which has been passed. -/
def Avoids (passed : List Nat) (visits : List Visit) : Prop :=
  (visits.map Visit.record).Nodup ∧ ∀ visit ∈ visits, visit.record ∉ passed

theorem avoids_cons_iff {passed : List Nat} {visit : Visit} {visits : List Visit} :
    Avoids passed (visit :: visits) ↔
      visit.record ∉ passed ∧ Avoids (visit.record :: passed) visits := by
  simp only [Avoids, List.map_cons, List.nodup_cons, List.mem_map, List.mem_cons, forall_eq_or_imp,
    not_or, not_exists, not_and]
  constructor
  · rintro ⟨⟨hnew, hnodup⟩, hvisit, hrest⟩
    exact ⟨hvisit, hnodup, fun v hv => ⟨hnew v hv, hrest v hv⟩⟩
  · rintro ⟨hvisit, hnodup, hrest⟩
    exact ⟨⟨fun v hv => (hrest v hv).1, hnodup⟩, hvisit, fun v hv => (hrest v hv).2⟩

theorem getLast?_cons_follow {visit after : Visit} {choices : List Nat} {visits : List Visit}
    (h : follow next after choices = some visits) :
    (visit :: visits).getLast? = visits.getLast? := by
  cases visits with
  | nil => cases head?_follow h
  | cons first rest => exact List.getLast?_cons_cons

/-- The walks listed from a visit are those that avoid the records passed before and are no longer
    than there is room for. -/
theorem mem_walksFrom_iff {room : Nat} {passed : List Nat} {visit last : Visit}
    {choices : List Nat} :
    (choices, last) ∈ walksFrom next room passed visit ↔
      ∃ visits, follow next visit choices = some visits ∧ visits.getLast? = some last ∧
        Avoids passed visits ∧ visits.length ≤ room := by
  induction room generalizing passed visit choices with
  | zero =>
    simp only [walksFrom, List.not_mem_nil, false_iff]
    rintro ⟨visits, hfollow, -, -, hlength⟩
    rw [List.length_eq_zero_iff.mp (Nat.le_zero.mp hlength)] at hfollow
    cases head?_follow hfollow
  | succ room ih =>
    simp only [walksFrom]
    by_cases hpassed : visit.record ∈ passed
    · rw [if_pos hpassed]
      simp only [List.not_mem_nil, false_iff]
      rintro ⟨visits, hfollow, -, havoids, -⟩
      exact havoids.2 visit (List.mem_of_mem_head? (head?_follow hfollow)) hpassed
    rw [if_neg hpassed, List.mem_cons, mem_numberWalks_iff]
    cases choices with
    | nil =>
      constructor
      · rintro (h | ⟨choice, rest, start, hnil, -⟩)
        · cases h
          exact ⟨[last], rfl, rfl, avoids_cons_iff.mpr ⟨hpassed, by simp [Avoids]⟩, by simp⟩
        · cases hnil
      · rintro ⟨visits, hfollow, hlast, -⟩
        cases hfollow
        cases hlast
        exact Or.inl rfl
    | cons choice choices =>
      constructor
      · rintro (h | ⟨choice', choices', after, heq, hafter, hmem⟩)
        · cases h
        · cases heq
          obtain ⟨rest, hrest, hlast, havoids, hlength⟩ := ih.mp hmem
          exact ⟨visit :: rest, follow_cons_eq_some_iff.mpr ⟨after, rest, hafter, hrest, rfl⟩,
            (getLast?_cons_follow hrest).trans hlast, avoids_cons_iff.mpr ⟨hpassed, havoids⟩,
            Nat.succ_le_succ hlength⟩
      · rintro ⟨visits, hfollow, hlast, havoids, hlength⟩
        obtain ⟨after, rest, hafter, hrest, rfl⟩ := follow_cons_eq_some_iff.mp hfollow
        exact Or.inr ⟨choice, choices, after, rfl, hafter, ih.mpr ⟨rest, hrest,
          (getLast?_cons_follow hrest).symm.trans hlast, (avoids_cons_iff.mp havoids).2,
          Nat.le_of_succ_le_succ hlength⟩⟩

/-! ### All walks without repetition -/

/-- Visits to distinct records below a bound are no more than the bound. -/
theorem length_le_of_nodup_records {visits : List Visit} {bound : Nat}
    (hnodup : (visits.map Visit.record).Nodup) (hbound : ∀ v ∈ visits, v.record < bound) :
    visits.length ≤ bound := by
  have hsub : visits.map Visit.record ⊆ List.range bound := by
    intro id hid
    obtain ⟨v, hv, rfl⟩ := List.mem_map.mp hid
    exact List.mem_range.mpr (hbound v hv)
  have hle := (hnodup.subperm hsub).length_le
  rwa [List.length_map, List.length_range] at hle

theorem exists_getLast?_trace {choices : List Nat} {visits : List Visit}
    (h : trace roots next choices = some visits) : ∃ last, visits.getLast? = some last := by
  cases choices with
  | nil => cases h
  | cons choice choices =>
    obtain ⟨root, -, hfollow⟩ := Option.bind_eq_some_iff.mp h
    cases hlast : visits.getLast? with
    | some last => exact ⟨last, rfl⟩
    | none =>
      rw [List.getLast?_eq_none_iff.mp hlast] at hfollow
      cases head?_follow hfollow

/-- With no record passed and room for all of them, the walks listed from the roots are all walks
    without repetition. -/
theorem mem_numberWalks_walksFrom_iff {bound : Nat} (hroots : ∀ root ∈ roots, root.record < bound)
    (hnext : ∀ visit, ∀ after ∈ next visit, after.record < bound) {choices : List Nat}
    {last : Visit} :
    (choices, last) ∈ numberWalks roots (walksFrom next bound []) ↔
      ∃ visits, trace roots next choices = some visits ∧ visits.getLast? = some last ∧
        (visits.map Visit.record).Nodup := by
  rw [mem_numberWalks_iff]
  constructor
  · rintro ⟨choice, rest, root, rfl, hroot, hmem⟩
    obtain ⟨visits, hfollow, hlast, ⟨hnodup, -⟩, -⟩ := mem_walksFrom_iff.mp hmem
    refine ⟨visits, ?_, hlast, hnodup⟩
    simp only [trace, hroot, Option.bind_eq_bind, Option.bind_some, hfollow]
  · rintro ⟨visits, htrace, hlast, hnodup⟩
    cases choices with
    | nil => cases htrace
    | cons choice rest =>
      obtain ⟨root, hroot, hfollow⟩ := Option.bind_eq_some_iff.mp htrace
      have hbound : ∀ v ∈ visits, v.record < bound :=
        forall_mem_follow hnext (hroots root (List.mem_of_getElem? hroot)) hfollow
      have havoids : Avoids [] visits := ⟨hnodup, fun _ _ => List.not_mem_nil⟩
      exact ⟨choice, rest, root, rfl, hroot, mem_walksFrom_iff.mpr ⟨visits, hfollow, hlast, havoids,
        length_le_of_nodup_records hnodup hbound⟩⟩

/-- The walks without repetition, in order, end at the listed visits, in order. -/
theorem exists_simpleWalks {bound : Nat} (hroots : ∀ root ∈ roots, root.record < bound)
    (hnext : ∀ visit, ∀ after ∈ next visit, after.record < bound) :
    ∃ walks : List (List Nat), walks.Pairwise (· < ·) ∧
      (∀ choices, choices ∈ walks ↔ IsSimpleWalk roots next choices) ∧
      walks.filterMap (walkEnd roots next) =
        roots.flatMap fun root => (walksFrom next bound [] root).map Prod.snd := by
  refine ⟨(numberWalks roots (walksFrom next bound [])).map Prod.fst, ?_, ?_, ?_⟩
  · rw [List.pairwise_map]
    exact pairwise_numberWalks fun root => pairwise_walksFrom next bound [] root
  · intro choices
    rw [List.mem_map]
    constructor
    · rintro ⟨⟨choices', last⟩, hmem, rfl⟩
      obtain ⟨visits, htrace, -, hnodup⟩ := (mem_numberWalks_walksFrom_iff hroots hnext).mp hmem
      exact ⟨visits, htrace, hnodup⟩
    · rintro ⟨visits, htrace, hnodup⟩
      obtain ⟨last, hlast⟩ := exists_getLast?_trace htrace
      exact ⟨(choices, last), (mem_numberWalks_walksFrom_iff hroots hnext).mpr
        ⟨visits, htrace, hlast, hnodup⟩, rfl⟩
  · have hends : ∀ walk ∈ numberWalks roots (walksFrom next bound []),
        walkEnd roots next walk.1 = some walk.2 := by
      rintro ⟨choices, last⟩ hmem
      obtain ⟨visits, htrace, hlast, -⟩ := (mem_numberWalks_walksFrom_iff hroots hnext).mp hmem
      simp only [walkEnd, htrace, Option.bind_some, hlast]
    rw [List.filterMap_map, ← map_snd_numberWalks, ← List.filterMap_eq_map]
    exact List.filterMap_congr hends

/-- The listed ends are the visits of the walks along the given steps. -/
theorem map_snd_walksFrom (steps : List (List Step)) (room : Nat) (passed : List Nat)
    (visit : Visit) :
    (walksFrom (fun visit => ((steps[visit.record]?).getD []).map fun step =>
        ⟨step.target, visit.path.child step.name⟩) room passed visit).map Prod.snd =
      visitsFrom steps room passed visit := by
  induction room generalizing passed visit with
  | zero => rfl
  | succ room ih =>
    simp only [walksFrom, visitsFrom, List.contains_iff_mem]
    split
    · rfl
    · simp only [List.map_cons, map_snd_numberWalks, List.flatMap_map, ih]

/-! ### Meetings -/

theorem filterMap_meetingsFrom (steps : List (List Step)) (room : Nat) (passed : List Nat)
    (visit : Visit) :
    (meetingsFrom steps room passed visit).filterMap Meeting.visit? =
      visitsFrom steps room passed visit := by
  induction room generalizing passed visit with
  | zero => rfl
  | succ room ih =>
    simp only [meetingsFrom, visitsFrom]
    split
    · rfl
    · simp only [List.filterMap_cons, Meeting.visit?, List.filterMap_flatMap, ih]

/-- The new records among the meetings, on which remarks are made, are the visits. -/
theorem SymbolTable.filterMap_meetings (table : SymbolTable) (links : List Link) :
    (table.meetings links).filterMap Meeting.visit? = table.visits links := by
  simp only [SymbolTable.meetings, SymbolTable.visits, List.filterMap_flatMap,
    filterMap_meetingsFrom]

end MonikerIndex
