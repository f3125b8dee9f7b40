import MonikerIndex.Proofs.Consistency

/-!
# Settling symbols

Symbols are settled one after the other. Settling a symbol does one of three things
(`settle_settling`): nothing, where its handle is known; it adds the symbol to the one group that
has its space and name; or it starts a group. From this one inversion follow the frame condition,
that no other handle moves (`Settling.find?_of_ne`), and the invariant `Settled`: no handle is in
two groups, no two groups share space and name, and every group has the name, the parent and the
space of each of its symbols.

Settling a lineage from the outside in keeps the invariant, since every parent is settled before its
members (`Settled.lineage`). Hence it holds after a whole run (`Settled.run`).
-/

namespace MonikerIndex

namespace Program

variable {program : Program}

/-! ### Spaces -/

/-- The space of a symbol, by cases: a space of its own, that of its parent, or one at the top. -/
theorem spaceOf_cases (program : Program) (symbol : Symbol) (parent : Option Nat) :
    (symbol.scope = .confined ∨ symbol.name = none) ∧
        program.spaceOf symbol parent = .alone symbol.handle ∨
      (symbol.scope ≠ .confined ∧ symbol.name.isSome) ∧
        ((∃ id, parent = some id ∧ program.spaceOf symbol parent = .container id) ∨
          parent = none ∧ (program.spaceOf symbol parent = .global ∨
            ∃ file, program.spaceOf symbol parent = .moduleFile file)) := by
  unfold spaceOf
  by_cases halone : symbol.scope = .confined ∨ symbol.name.isNone
  · exact Or.inl ⟨by simpa using halone, if_pos halone⟩
  · refine Or.inr ⟨by simpa [not_or, Option.isSome_iff_ne_none] using halone, ?_⟩
    rw [if_neg halone]
    cases parent with
    | some id => exact Or.inl ⟨id, rfl, rfl⟩
    | none =>
      refine Or.inr ⟨rfl, ?_⟩
      dsimp only
      split
      · exact Or.inl rfl
      · split
        · exact Or.inr ⟨_, rfl⟩
        · exact Or.inl rfl

end Program

namespace Group

variable {program : Program} {groups : List Group} {symbol : Symbol} {handle : Handle}

/-! ### One step -/

/-- The parent of a symbol among the groups so far. -/
def parentIn (groups : List Group) (symbol : Symbol) : Option Nat :=
  symbol.parent.bind (find? groups)

/-- What settling a symbol can come to. -/
inductive Settling (program : Program) (groups : List Group) (symbol : Symbol) :
    List Group → Prop where
  /-- The handle is known, and nothing changes. -/
  | known (h : (find? groups symbol.handle).isSome) : Settling program groups symbol groups
  /-- A group with the symbol's space and name takes it in. -/
  | joined {before after : List Group} {group : Group} (hnew : find? groups symbol.handle = none)
      (hgroups : groups = before ++ group :: after)
      (hspace : group.space = program.spaceOf symbol (parentIn groups symbol))
      (hname : group.name = symbol.name) :
      Settling program groups symbol (before ++ group.absorb symbol :: after)
  /-- No group has the symbol's space and name, and it starts one. -/
  | started (hnew : find? groups symbol.handle = none)
      (hfresh : ∀ group ∈ groups,
        (group.space, group.name) ≠
          (program.spaceOf symbol (parentIn groups symbol), symbol.name)) :
      Settling program groups symbol
        (groups ++ [ofSymbol symbol (parentIn groups symbol)
          (program.spaceOf symbol (parentIn groups symbol))])

theorem settle_settling (program : Program) (groups : List Group) (symbol : Symbol) :
    Settling program groups symbol (settle program groups symbol) := by
  unfold settle
  split
  · rename_i h
    exact .known h
  · rename_i hknown
    have hnew : find? groups symbol.handle = none := by simpa using hknown
    dsimp only
    split
    · rename_i i hfind
      obtain ⟨hi, hkey, -⟩ := List.findIdx?_eq_some_iff_getElem.mp hfind
      obtain ⟨before, group, after, hgroups, hlength, hmodify⟩ :=
        List.exists_of_modify (fun g => g.absorb symbol) hi
      have hgroup : groups[i] = group := by
        have h : groups[i]? = some group := by rw [hgroups, ← hlength]; simp
        exact (List.getElem?_eq_some_iff.mp h).2
      rw [hgroup] at hkey
      simp only [Bool.and_eq_true, beq_iff_eq] at hkey
      rw [hmodify]
      exact .joined hnew hgroups hkey.1 hkey.2
    · rename_i hfind
      refine .started hnew fun group hgroup hkey => ?_
      have hno := List.findIdx?_eq_none_iff.mp hfind group hgroup
      obtain ⟨hspace, hname⟩ := Prod.mk.inj hkey
      simp [hspace, hname, parentIn] at hno

/-- What holds of all groups still does after a step, if it does of a group with the symbol taken
    in and of the group that the symbol starts. -/
theorem Settling.forall_mem {result : List Group} {P : Group → Prop}
    (h : Settling program groups symbol result) (hgroups : ∀ group ∈ groups, P group)
    (habsorb : ∀ group ∈ groups, P (group.absorb symbol))
    (hstart : P (ofSymbol symbol (parentIn groups symbol)
      (program.spaceOf symbol (parentIn groups symbol)))) : ∀ group ∈ result, P group := by
  intro group hgroup
  cases h with
  | known _ => exact hgroups group hgroup
  | @joined before after target _ heq _ _ =>
    subst heq
    rcases List.mem_append.mp hgroup with hmem | hmem
    · exact hgroups group (List.mem_append_left _ hmem)
    · rcases List.mem_cons.mp hmem with rfl | hmem
      · exact habsorb target (List.mem_append_right _ List.mem_cons_self)
      · exact hgroups group (List.mem_append_right _ (List.mem_cons_of_mem _ hmem))
  | started _ _ =>
    rcases List.mem_append.mp hgroup with hmem | hmem
    · exact hgroups group hmem
    · rw [List.mem_singleton.mp hmem]
      exact hstart

/-! ### Finding handles -/

theorem find?_eq_none_iff :
    find? groups handle = none ↔ ∀ group ∈ groups, handle ∉ group.handles := by
  simp [find?, List.findIdx?_eq_none_iff]

theorem isSome_find?_iff :
    (find? groups handle).isSome ↔ ∃ group ∈ groups, handle ∈ group.handles := by
  simp [find?, List.findIdx?_isSome]

theorem mem_handles_of_find? {i : Nat} (h : find? groups handle = some i) :
    ∃ group, groups[i]? = some group ∧ handle ∈ group.handles := by
  obtain ⟨hi, hmem, -⟩ := List.findIdx?_eq_some_iff_getElem.mp h
  exact ⟨groups[i], List.getElem?_eq_getElem hi, by simpa using hmem⟩

/-- Where no handle is in two groups, each is found where it is. -/
theorem find?_eq_some_iff (hnodup : (groups.flatMap Group.handles).Nodup) {i : Nat} :
    find? groups handle = some i ↔ ∃ group, groups[i]? = some group ∧ handle ∈ group.handles := by
  refine ⟨mem_handles_of_find?, ?_⟩
  rintro ⟨group, hgroup, hmem⟩
  obtain ⟨hi, hget⟩ := List.getElem?_eq_some_iff.mp hgroup
  refine List.findIdx?_eq_some_iff_getElem.mpr ⟨hi, by simpa [hget] using hmem, ?_⟩
  intro j hji hj
  -- two groups with the handle would give it twice in the list of all handles
  have hdisjoint := List.pairwise_iff_getElem.mp (List.nodup_flatMap.mp hnodup).2 j i
    (Nat.lt_trans hji hi) hi hji
  exact hdisjoint (by simpa using hj) (by simpa [hget] using hmem)

theorem find?_append (before after : List Group) (handle : Handle) :
    find? (before ++ after) handle =
      (find? before handle).or ((find? after handle).map (· + before.length)) := by
  simp [find?, List.findIdx?_append]

/-- Settling a symbol moves no other handle. -/
theorem Settling.find?_of_ne {result : List Group} (h : Settling program groups symbol result)
    (hne : handle ≠ symbol.handle) : find? result handle = find? groups handle := by
  cases h with
  | known h => rfl
  | @joined before after group hnew hgroups hspace hname =>
    have hhead : find? (group.absorb symbol :: after) handle = find? (group :: after) handle := by
      simp only [find?, List.findIdx?_cons, absorb, List.contains_append]
      simp [hne]
    rw [hgroups, find?_append, find?_append, hhead]
  | started hnew hfresh =>
    have hlast : find? [ofSymbol symbol (parentIn groups symbol)
        (program.spaceOf symbol (parentIn groups symbol))] handle = none := by
      rw [find?_eq_none_iff]
      simpa [ofSymbol] using hne
    rw [find?_append, hlast]
    simp

theorem Settling.find?_of_isSome {result : List Group} (h : Settling program groups symbol result)
    (hsome : (find? groups handle).isSome) : find? result handle = find? groups handle := by
  by_cases hhandle : handle = symbol.handle
  · subst hhandle
    cases h with
    | known h => rfl
    | joined hnew hgroups hspace hname => simp [hnew] at hsome
    | started hnew hfresh => simp [hnew] at hsome
  · exact h.find?_of_ne hhandle

theorem Settling.isSome_find? {result : List Group} (h : Settling program groups symbol result) :
    (find? result symbol.handle).isSome := by
  cases h with
  | known h => exact h
  | joined hnew hgroups hspace hname =>
    exact isSome_find?_iff.mpr ⟨_, List.mem_append_right _ List.mem_cons_self, by simp [absorb]⟩
  | started hnew hfresh =>
    exact isSome_find?_iff.mpr ⟨_, List.mem_append_right _ List.mem_cons_self, by simp [ofSymbol]⟩

/-- A handle stays where it was found during a run. -/
theorem find?_foldl_settle {symbols : List Symbol} (h : (find? groups handle).isSome) :
    find? (symbols.foldl (settle program) groups) handle = find? groups handle := by
  induction symbols generalizing groups with
  | nil => rfl
  | cons symbol symbols ih =>
    have hstep : find? (settle program groups symbol) handle = find? groups handle :=
      (settle_settling program groups symbol).find?_of_isSome h
    rw [List.foldl_cons, ih (by rwa [hstep]), hstep]

/-! ### The invariant -/

/-- A group has what a symbol in it has: the name, the parent and the space. -/
structure Holds (program : Program) (groups : List Group) (group : Group) (symbol : Symbol) :
    Prop where
  name : group.name = symbol.name
  parent : group.parent = parentIn groups symbol
  parent_isSome : symbol.parent.isSome → group.parent.isSome
  space : group.space = program.spaceOf symbol group.parent

/-- The space of a group agrees with its parent and its handles. -/
def Rooted (group : Group) : Prop :=
  match group.space with
  | .container id => group.parent = some id
  | .alone handle => handle ∈ group.handles
  | _ => group.parent = none

/-- What holds of the groups whenever a symbol has been settled. -/
structure Settled (program : Program) (groups : List Group) : Prop where
  handles_nodup : (groups.flatMap Group.handles).Nodup
  reported : ∀ group ∈ groups, ∀ handle ∈ group.handles,
    handle ∈ program.symbols.map Symbol.handle
  keys_nodup : (groups.map fun group => (group.space, group.name)).Nodup
  rooted : ∀ group ∈ groups, group.Rooted
  holds : ∀ group ∈ groups, ∀ symbol ∈ program.symbols, symbol.handle ∈ group.handles →
    Holds program groups group symbol

theorem Settled.nil (program : Program) : Settled program [] where
  handles_nodup := by simp
  reported := by simp
  keys_nodup := by simp
  rooted := by simp
  holds := by simp

/-! ### What a step keeps -/

theorem Settling.handles_perm {result : List Group} (h : Settling program groups symbol result) :
    result = groups ∨ symbol.handle ∉ groups.flatMap Group.handles ∧
      (result.flatMap Group.handles).Perm (symbol.handle :: groups.flatMap Group.handles) := by
  have hfresh : find? groups symbol.handle = none →
      symbol.handle ∉ groups.flatMap Group.handles := by
    intro hnew hmem
    obtain ⟨group, hgroup, hhandle⟩ := List.mem_flatMap.mp hmem
    exact find?_eq_none_iff.mp hnew group hgroup hhandle
  cases h with
  | known h => exact Or.inl rfl
  | @joined before after group hnew hgroups hspace hname =>
    refine Or.inr ⟨hfresh hnew, ?_⟩
    rw [hgroups]
    simp only [List.flatMap_append, List.flatMap_cons, absorb, List.append_assoc,
      List.singleton_append]
    have hinner : (group.handles ++ symbol.handle :: after.flatMap Group.handles).Perm
        (symbol.handle :: (group.handles ++ after.flatMap Group.handles)) := List.perm_middle
    exact (hinner.append_left _).trans List.perm_middle
  | started hnew hfresh' =>
    refine Or.inr ⟨hfresh hnew, ?_⟩
    simp only [List.flatMap_append, List.flatMap_cons, List.flatMap_nil, ofSymbol, List.append_nil]
    exact List.perm_append_comm

/-- Taking in a symbol changes neither space nor name of a group. -/
theorem Settling.keys_nodup {result : List Group} (h : Settling program groups symbol result)
    (hkeys : (groups.map fun group => (group.space, group.name)).Nodup) :
    (result.map fun group => (group.space, group.name)).Nodup := by
  cases h with
  | known h => exact hkeys
  | joined hnew hgroups hspace hname =>
    rw [hgroups] at hkeys
    simpa only [List.map_append, List.map_cons, absorb] using hkeys
  | started hnew hfresh =>
    rw [List.map_append, List.nodup_append]
    refine ⟨hkeys, List.nodup_singleton _, ?_⟩
    intro key hkey other hother heq
    obtain ⟨group, hgroup, rfl⟩ := List.mem_map.mp hkey
    rw [List.map_singleton, List.mem_singleton] at hother
    exact hfresh group hgroup (heq.trans hother)

/-- A group that takes in a symbol of its space has the symbol's parent. -/
theorem Rooted.parent_eq {group : Group} {parent : Option Nat} (h : group.Rooted)
    (hspace : group.space = program.spaceOf symbol parent)
    (hnew : symbol.handle ∉ group.handles) : group.parent = parent := by
  unfold Rooted at h
  rw [hspace] at h
  rcases program.spaceOf_cases symbol parent with
    ⟨-, halone⟩ | ⟨-, ⟨id, hparent, hid⟩ | ⟨hparent, htop⟩⟩
  · rw [halone] at h
    exact absurd h hnew
  · rw [hid] at h
    rw [h, hparent]
  · rcases htop with hglobal | ⟨file, hfile⟩
    · rw [hglobal] at h
      rw [h, hparent]
    · rw [hfile] at h
      rw [h, hparent]

theorem rooted_ofSymbol (program : Program) (symbol : Symbol) (parent : Option Nat) :
    (ofSymbol symbol parent (program.spaceOf symbol parent)).Rooted := by
  unfold Rooted
  dsimp only [ofSymbol]
  rcases program.spaceOf_cases symbol parent with
    ⟨-, halone⟩ | ⟨-, ⟨id, hparent, hid⟩ | ⟨hparent, htop⟩⟩
  · rw [halone]
    exact List.mem_singleton.mpr rfl
  · rw [hid]
    exact hparent
  · rcases htop with hglobal | ⟨file, hfile⟩
    · rw [hglobal]
      exact hparent
    · rw [hfile]
      exact hparent

theorem Rooted.absorb {group : Group} (h : group.Rooted) (symbol : Symbol) :
    (group.absorb symbol).Rooted := by
  unfold Rooted at *
  dsimp only [Group.absorb]
  split
  · rename_i hspace
    rwa [hspace] at h
  · rename_i hspace
    rw [hspace] at h
    exact List.mem_append_left _ h
  · rename_i hcontainer halone
    split at h
    · rename_i hspace
      exact absurd hspace (hcontainer _)
    · rename_i hspace
      exact absurd hspace (halone _)
    · exact h

theorem Settling.rooted {result : List Group} (h : Settling program groups symbol result)
    (hrooted : ∀ group ∈ groups, group.Rooted) : ∀ group ∈ result, group.Rooted :=
  h.forall_mem hrooted (fun group hgroup => (hrooted group hgroup).absorb symbol)
    (rooted_ofSymbol program symbol _)

theorem Settling.parentIn_eq {result : List Group} {other : Symbol}
    (h : Settling program groups symbol result)
    (hsettled : other.parent.isSome → (parentIn groups other).isSome) :
    parentIn result other = parentIn groups other := by
  unfold parentIn at *
  cases hparent : other.parent with
  | none => rfl
  | some parent =>
    rw [hparent] at hsettled
    exact h.find?_of_isSome (hsettled rfl)

/-- A step takes nothing from a group that it leaves as it is. -/
theorem Holds.step {result : List Group} {group : Group} {other : Symbol}
    (hstep : Settling program groups symbol result) (h : Holds program groups group other) :
    Holds program result group other where
  name := h.name
  parent := by
    rw [h.parent, hstep.parentIn_eq fun hsome => h.parent ▸ h.parent_isSome hsome]
  parent_isSome := h.parent_isSome
  space := h.space

/-- After a step, every group still has what its symbols have. -/
theorem Settled.holds_step {result : List Group} (hconsistent : program.Consistent)
    (h : Settled program groups) (hsymbol : symbol ∈ program.symbols)
    (hsettled : symbol.parent.isSome → (parentIn groups symbol).isSome)
    (hstep : Settling program groups symbol result) {group : Group} (hgroup : group ∈ result)
    {other : Symbol} (hother : other ∈ program.symbols) (hhandle : other.handle ∈ group.handles) :
    Holds program result group other := by
  have hsame : parentIn result symbol = parentIn groups symbol := hstep.parentIn_eq hsettled
  have hunique : other.handle = symbol.handle → other = symbol :=
    List.inj_on_of_nodup_map hconsistent.handles_nodup hother hsymbol
  have hkeep : ∀ old ∈ groups, other.handle ∈ old.handles → Holds program result old other :=
    fun old hold hmem => (h.holds old hold other hother hmem).step hstep
  cases hstep with
  | known hknown => exact h.holds group hgroup other hother hhandle
  | @joined before after target hnew hgroups hspace hname =>
    have htarget : target ∈ groups := by rw [hgroups]; simp
    rcases List.mem_append.mp hgroup with hmem | hmem
    · exact hkeep group (by rw [hgroups]; simp [hmem]) hhandle
    · rcases List.mem_cons.mp hmem with rfl | hmem
      · -- the group that took the symbol in: `other` is an old member, or the symbol itself
        rcases List.mem_append.mp hhandle with hold | hself
        · obtain ⟨hn, hp, hs, hsp⟩ := hkeep target htarget hold
          exact ⟨hn, hp, hs, hsp⟩
        · rw [hunique (List.mem_singleton.mp hself)]
          have heq : target.parent = parentIn groups symbol :=
            (h.rooted target htarget).parent_eq hspace (find?_eq_none_iff.mp hnew target htarget)
          refine ⟨hname, heq.trans hsame.symm, fun hsome => ?_, ?_⟩
          · exact heq ▸ hsettled hsome
          · exact hspace.trans (by rw [← heq]; rfl)
      · exact hkeep group (by rw [hgroups]; simp [hmem]) hhandle
  | started hnew hfresh =>
    rcases List.mem_append.mp hgroup with hmem | hmem
    · exact hkeep group hmem hhandle
    · rw [List.mem_singleton.mp hmem] at hhandle ⊢
      rw [hunique (List.mem_singleton.mp hhandle)]
      exact ⟨rfl, hsame.symm, hsettled, rfl⟩

/-- Settling a symbol whose parent is settled keeps the invariant. -/
theorem Settled.step {result : List Group} (hconsistent : program.Consistent)
    (h : Settled program groups) (hsymbol : symbol ∈ program.symbols)
    (hparent : ∀ parent, symbol.parent = some parent → (find? groups parent).isSome)
    (hstep : Settling program groups symbol result) : Settled program result := by
  have hsettled : symbol.parent.isSome → (parentIn groups symbol).isSome := by
    intro hsome
    obtain ⟨parent, hp⟩ := Option.isSome_iff_exists.mp hsome
    simp only [parentIn, hp, Option.bind_some]
    exact hparent parent hp
  refine ⟨?_, ?_, hstep.keys_nodup h.keys_nodup, hstep.rooted h.rooted, ?_⟩
  · rcases hstep.handles_perm with rfl | ⟨hnew, hperm⟩
    · exact h.handles_nodup
    · exact hperm.nodup_iff.mpr (List.nodup_cons.mpr ⟨hnew, h.handles_nodup⟩)
  · intro group hgroup handle hhandle
    rcases hstep.handles_perm with rfl | ⟨-, hperm⟩
    · exact h.reported group hgroup handle hhandle
    · have hmem := hperm.mem_iff.mp (List.mem_flatMap.mpr ⟨group, hgroup, hhandle⟩)
      rcases List.mem_cons.mp hmem with rfl | hmem
      · exact List.mem_map.mpr ⟨symbol, hsymbol, rfl⟩
      · obtain ⟨old, hold, hhandle'⟩ := List.mem_flatMap.mp hmem
        exact h.reported old hold handle hhandle'
  · intro group hgroup other hother hhandle
    exact h.holds_step hconsistent hsymbol hsettled hstep hgroup hother hhandle

/-! ### What a run keeps -/

/-- Settling a lineage from the outside in keeps the invariant and settles the symbol. -/
theorem Settled.lineage (hconsistent : program.Consistent) {symbols : List Symbol}
    (hlineage : program.Lineage symbol symbols) (hsymbol : symbol ∈ program.symbols)
    (h : Settled program groups) :
    Settled program (symbols.reverse.foldl (settle program) groups) ∧
      (find? (symbols.reverse.foldl (settle program) groups) symbol.handle).isSome := by
  induction hlineage with
  | @top symbol hparent =>
    have hstep := settle_settling program groups symbol
    refine ⟨h.step hconsistent hsymbol ?_ hstep, hstep.isSome_find?⟩
    intro parent hp
    rw [hparent] at hp
    cases hp
  | @inner symbol outer parent symbols hparent houter hrest ih =>
    obtain ⟨houterMem, houterHandle⟩ := Program.mem_of_symbol? houter
    obtain ⟨hsettled, hfound⟩ := ih houterMem
    rw [List.reverse_cons, List.foldl_append, List.foldl_cons, List.foldl_nil]
    have hstep := settle_settling program (symbols.reverse.foldl (settle program) groups) symbol
    refine ⟨hsettled.step hconsistent hsymbol ?_ hstep, hstep.isSome_find?⟩
    intro parent' hp
    rw [hparent] at hp
    cases hp
    rwa [← houterHandle]

/-- Settling the lineages of some symbols keeps the invariant and settles these symbols. -/
theorem Settled.run (hconsistent : program.Consistent) {symbols : List Symbol}
    {lineages : List (List Symbol)} (hsymbols : ∀ symbol ∈ symbols, symbol ∈ program.symbols)
    (hlineages : List.Forall₂ (fun symbol lineage => program.lineage symbol = .ok lineage)
      symbols lineages) (h : Settled program groups) :
    Settled program (lineages.flatten.foldl (settle program) groups) ∧
      ∀ symbol ∈ symbols,
        (find? (lineages.flatten.foldl (settle program) groups) symbol.handle).isSome := by
  induction hlineages generalizing groups with
  | nil => exact ⟨h, by simp⟩
  | cons hhead _ ih =>
    rw [List.flatten_cons, List.foldl_append]
    have hlineage := Program.lineage_eq_ok hhead
    have hfirst := h.lineage hconsistent hlineage (hsymbols _ List.mem_cons_self)
    rw [List.reverse_reverse] at hfirst
    obtain ⟨hsettled, hfound⟩ := hfirst
    obtain ⟨hsettled', hfound'⟩ :=
      ih (fun symbol hmem => hsymbols symbol (List.mem_cons_of_mem _ hmem)) hsettled
    refine ⟨hsettled', fun symbol hmem => ?_⟩
    rcases List.mem_cons.mp hmem with rfl | hmem
    · rw [find?_foldl_settle hfound]
      exact hfound
    · exact hfound' symbol hmem

end Group

end MonikerIndex
