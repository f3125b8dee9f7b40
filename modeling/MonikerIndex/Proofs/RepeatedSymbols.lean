import MonikerIndex.Proofs.Acceptance
import MonikerIndex.Proofs.Contributions
import MonikerIndex.Proofs.Repeats

/-!
# A symbol that is reported twice

A symbol with a name that is not confined to a body may be reported once more under a new handle.
The copy is merged into the record of the symbol and brings nothing new: its sites are already
there, and a site at the place of an earlier one is dropped. The copy must have the greater handle,
so that the symbol is settled first and a record starts with what it would start with anyway.

Both merges go side by side. Up to the copy they are the same; from then on the groups are the same
but for one handle and repeated sites (`Group.Echoes`), so the tables are the same but for the
handles (`SymbolTable.bare`). Nothing that comes after the merge reads handles, except to resolve
those that references and aliases mention, and the new handle is none of them.

Main statement: `index_of_rereported`.
-/

namespace MonikerIndex

/-! ### Repeated sites -/

namespace Site

variable {p : Place → Bool}

theorem find?_dedupAfter {last : Site} (hlast : p last.place = false) (sites : List Site) :
    (dedupAfter last sites).find? (fun site => p site.place) =
      sites.find? fun site => p site.place := by
  induction sites generalizing last with
  | nil => rfl
  | cons first sites ih =>
    rw [dedupAfter]
    by_cases hsame : last.place = first.place
    · have hfirst : p first.place = false := hsame ▸ hlast
      rw [if_pos hsame, ih hlast, List.find?_cons_of_neg (by simp [hfirst])]
    · rw [if_neg hsame, List.find?_cons, List.find?_cons]
      cases hfirst : p first.place with
      | true => rfl
      | false => exact ih hfirst

theorem find?_dedup (sites : List Site) :
    (dedup sites).find? (fun site => p site.place) = sites.find? fun site => p site.place := by
  cases sites with
  | nil => rfl
  | cons first sites =>
    rw [dedup, List.find?_cons, List.find?_cons]
    cases hfirst : p first.place with
    | true => rfl
    | false => exact find?_dedupAfter hfirst sites

/-- Of the sites at one place, the first is kept. -/
theorem find?_arrange (sites : List Site) (x : Site) :
    (arrange sites).find? (fun site => (compareOn place site x).isEq) =
      sites.find? fun site => (compareOn place site x).isEq := by
  have hdedup : (arrange sites).find? (fun site => (compareOn place site x).isEq) =
      (sortBy (compareOn place) sites).find? fun site => (compareOn place site x).isEq :=
    @find?_dedup (fun other => (compare other x.place).isEq) _
  rw [hdedup, ← List.head?_filter, ← List.head?_filter, filter_sortBy]

/-- Where the places increase, at most one site is at a given place. -/
theorem filter_place_eq {sites : List Site}
    (h : sites.Pairwise fun a b => compare a.place b.place = .lt) (x : Site) :
    sites.filter (fun site => (compareOn place site x).isEq) =
      (sites.find? fun site => (compareOn place site x).isEq).toList := by
  induction sites with
  | nil => rfl
  | cons first sites ih =>
    obtain ⟨hfirst, hsites⟩ := List.pairwise_cons.mp h
    rw [List.filter_cons, List.find?_cons]
    cases heq : (compareOn place first x).isEq with
    | false => exact ih hsites
    | true =>
      have hnone : sites.filter (fun site => (compareOn place site x).isEq) = [] := by
        rw [List.filter_eq_nil_iff]
        intro site hsite heq'
        have hplace : first.place = x.place :=
          Std.compare_eq_iff_eq.mp (Ordering.isEq_iff_eq_eq.mp heq)
        have hplace' : site.place = x.place :=
          Std.compare_eq_iff_eq.mp (Ordering.isEq_iff_eq_eq.mp heq')
        have hlt := hfirst site hsite
        rw [hplace, hplace', Std.ReflOrd.compare_self] at hlt
        cases hlt
      rw [if_pos rfl, hnone]
      rfl

/-- Repeated sites are dropped. -/
theorem arrange_of_repeats {sites sites' : List Site} (h : Repeats [] sites sites') :
    arrange sites' = arrange sites := by
  have hordered : ∀ sites, (arrange sites).Pairwise fun a b => (compareOn place a b).isLE := by
    intro sites
    refine (pairwise_arrange sites).imp ?_
    intro a b hlt
    exact Ordering.isLE_of_eq_lt hlt
  refine eq_of_pairwise_of_filter_eq (hordered sites') (hordered sites) ?_
  intro x
  rw [filter_place_eq (pairwise_arrange sites'), filter_place_eq (pairwise_arrange sites),
    find?_arrange, find?_arrange, h.find?_eq (by simp)]

end Site

/-! ### Groups side by side -/

namespace Group

variable {program : Program} {fresh : Handle} {groups groups' : List Group} {symbol : Symbol}

/-- The second group is the first one with sites repeated. It may have a further handle. -/
def Echoes (fresh : Handle) (group other : Group) : Prop :=
  ∃ sites handles, other = { group with sites := sites, handles := handles } ∧
    Repeats [] group.sites sites ∧
    ∀ handle, handle ≠ fresh → handles.contains handle = group.handles.contains handle

theorem Echoes.refl (fresh : Handle) (group : Group) : Echoes fresh group group :=
  ⟨group.sites, group.handles, rfl, .refl _ _, fun _ _ => rfl⟩

theorem Echoes.absorb {group other : Group} (h : Echoes fresh group other) (symbol : Symbol) :
    Echoes fresh (group.absorb symbol) (other.absorb symbol) := by
  obtain ⟨sites, handles, rfl, hsites, hhandles⟩ := h
  refine ⟨_, _, rfl, hsites.append (.refl _ _), ?_⟩
  intro handle hne
  simp only [Group.absorb, List.contains_append, hhandles handle hne]

theorem find?_of_echoes (h : List.Forall₂ (Echoes fresh) groups groups') {handle : Handle}
    (hne : handle ≠ fresh) : find? groups' handle = find? groups handle := by
  refine (findIdx?_eq_of_forall₂ h ?_).symm
  rintro group _ ⟨sites, handles, rfl, -, hhandles⟩
  exact (hhandles handle hne).symm

/-- A symbol that does not mention the new handle is settled alike. -/
theorem settle_echoes (h : List.Forall₂ (Echoes fresh) groups groups')
    (hhandle : symbol.handle ≠ fresh) (hparent : symbol.parent ≠ some fresh) :
    List.Forall₂ (Echoes fresh) (settle program groups symbol)
      (settle program groups' symbol) := by
  have hsame : symbol.parent.bind (find? groups') = symbol.parent.bind (find? groups) := by
    cases hsome : symbol.parent with
    | none => rfl
    | some parent =>
      apply find?_of_echoes h
      rintro rfl
      exact hparent hsome
  have hkey : ∀ space, groups'.findIdx? (fun group =>
        group.space == space && group.name == symbol.name) =
      groups.findIdx? fun group => group.space == space && group.name == symbol.name := by
    intro space
    refine (findIdx?_eq_of_forall₂ h ?_).symm
    rintro group _ ⟨sites, handles, rfl, -, -⟩
    rfl
  unfold settle
  simp only [find?_of_echoes h hhandle, hsame, hkey]
  split
  · exact h
  · split
    · exact forall₂_modify h (fun _ _ hgroup => hgroup.absorb symbol) _
    · exact List.rel_append h (.cons (.refl _ _) .nil)

theorem foldl_settle_echoes {symbols : List Symbol}
    (hsymbols : ∀ symbol ∈ symbols, symbol.handle ≠ fresh ∧ symbol.parent ≠ some fresh)
    (h : List.Forall₂ (Echoes fresh) groups groups') :
    List.Forall₂ (Echoes fresh) (symbols.foldl (settle program) groups)
      (symbols.foldl (settle program) groups') := by
  induction symbols generalizing groups groups' with
  | nil => exact h
  | cons symbol symbols ih =>
    obtain ⟨⟨hhandle, hparent⟩, hrest⟩ := List.forall_mem_cons.mp hsymbols
    exact ih hrest (settle_echoes h hhandle hparent)

/-! ### The copy -/

theorem isSome_find?_foldl_settle {symbols : List Symbol} (hsymbol : symbol ∈ symbols) :
    (find? (symbols.foldl (settle program) groups) symbol.handle).isSome := by
  induction symbols generalizing groups with
  | nil => cases hsymbol
  | cons first symbols ih =>
    rcases List.mem_cons.mp hsymbol with rfl | hsymbol
    · have hfirst := (settle_settling program groups symbol).isSome_find?
      rw [List.foldl_cons, find?_foldl_settle hfirst]
      exact hfirst
    · exact ih hsymbol

/-- Symbols that are settled already change nothing. -/
theorem foldl_settle_of_known {symbols : List Symbol}
    (h : ∀ symbol ∈ symbols, (find? groups symbol.handle).isSome) :
    symbols.foldl (settle program) groups = groups := by
  induction symbols with
  | nil => rfl
  | cons symbol symbols ih =>
    obtain ⟨hsymbol, hrest⟩ := List.forall_mem_cons.mp h
    rw [List.foldl_cons, settle, if_pos hsymbol]
    exact ih hrest

end Group

/-- The symbol under another handle. -/
def Symbol.under (symbol : Symbol) (handle : Handle) : Symbol :=
  { symbol with handle := handle }

namespace Group

variable {program : Program} {fresh : Handle} {groups : List Group} {symbol : Symbol}

/-- A group that has taken in a symbol learns nothing from a copy of it. -/
theorem Comprises.echoes_absorb {group : Group} {symbols : List Symbol}
    (h : group.Comprises symbols) (hsymbol : symbol ∈ symbols) :
    Echoes fresh group (group.absorb (symbol.under fresh)) := by
  have hexported : (group.exported || symbol.exported) = group.exported := by
    rw [h.exported]
    cases hsome : symbol.exported with
    | false => exact Bool.or_false _
    | true => rw [List.any_eq_true.mpr ⟨symbol, hsymbol, hsome⟩, Bool.or_true]
  have hform : group.exportForm.or symbol.exportForm = group.exportForm := by
    cases hsome : symbol.exportForm with
    | none => exact Option.or_none
    | some form =>
      have hfound : group.exportForm.isSome := by
        rw [h.exportForm, List.findSome?_isSome_iff]
        exact ⟨symbol, hsymbol, by rw [hsome]; rfl⟩
      exact Option.or_of_isSome hfound
  have hsites : symbol.declarations.map (Site.ofDeclaration symbol) ⊆ group.sites := by
    rw [h.sites]
    intro site hsite
    exact List.mem_flatMap.mpr ⟨symbol, hsymbol, hsite⟩
  refine ⟨group.sites ++ symbol.declarations.map (Site.ofDeclaration symbol),
    group.handles ++ [fresh], ?_, ?_, ?_⟩
  · change Group.mk group.name group.kind group.parent group.scope group.space
      (group.exported || symbol.exported) (group.exportForm.or symbol.exportForm) _ _ = _
    rw [hexported, hform]
    rfl
  · have hrepeats : Repeats [] (group.sites ++ []) _ :=
      (Repeats.refl [] group.sites).append (.of_subset (by simpa using hsites))
    rwa [List.append_nil] at hrepeats
  · intro handle hne
    simp [hne]

/-- A copy of a settled symbol is taken in by the group of the symbol. -/
theorem Settled.settle_under (hconsistent : program.Consistent) (hsettled : Settled program groups)
    (hreached : Reached program groups) (hsymbol : symbol ∈ program.symbols)
    (hnamed : symbol.name.isSome) (hfree : symbol.scope ≠ .confined)
    (hunused : fresh ∉ program.symbols.map Symbol.handle)
    (hfound : (find? groups symbol.handle).isSome) :
    List.Forall₂ (Echoes fresh) groups (settle program groups (symbol.under fresh)) := by
  obtain ⟨own, hown, hmem⟩ := isSome_find?_iff.mp hfound
  have hholds := hsettled.holds own hown symbol hsymbol hmem
  have hspace : program.spaceOf (symbol.under fresh) (parentIn groups (symbol.under fresh)) =
      own.space := by
    rw [hholds.space, hholds.parent]
    have halone : ¬(symbol.scope = .confined ∨ symbol.name.isNone) := by
      simp [hfree, Option.isSome_iff_ne_none.mp hnamed]
    unfold Program.spaceOf
    rw [if_neg halone]
    exact if_neg halone
  have hstep := settle_settling program groups (symbol.under fresh)
  generalize settle program groups (symbol.under fresh) = result at hstep ⊢
  cases hstep with
  | known hknown =>
    obtain ⟨group, hgroup, hhandle⟩ := isSome_find?_iff.mp hknown
    exact absurd (hsettled.reported group hgroup fresh hhandle) hunused
  | started _ hnone =>
    refine absurd ?_ (hnone own hown)
    rw [hspace, hholds.name]
    rfl
  | @joined before after group _ hgroups hspace' hname =>
    -- the group of the symbol is the only one with its space and name
    have hgroup : group ∈ groups := by
      rw [hgroups]
      exact List.mem_append_right _ List.mem_cons_self
    have hsame : group = own := by
      refine List.inj_on_of_nodup_map hsettled.keys_nodup hgroup hown ?_
      rw [hspace', hspace, hname, hholds.name]
      rfl
    subst hsame
    obtain ⟨symbols, hsymbols, hcomprises⟩ := hreached.exists_comprises group hgroup
    have hsymbol' : symbol ∈ symbols := by
      rw [hcomprises.handles] at hmem
      obtain ⟨other, hother, hhandle⟩ := List.mem_map.mp hmem
      rwa [← List.inj_on_of_nodup_map hconsistent.handles_nodup (hsymbols other hother) hsymbol
        hhandle]
    subst hgroups
    exact List.rel_append (List.forall₂_same.mpr fun _ _ => .refl _ _)
      (.cons (hcomprises.echoes_absorb hsymbol') (List.forall₂_same.mpr fun _ _ => .refl _ _))

end Group

/-! ### Merging with the copy -/

namespace Program

variable {program : Program} {symbols : List Symbol} {symbol : Symbol} {fresh : Handle}

/-- The program with other symbols. -/
def withSymbols (program : Program) (symbols : List Symbol) : Program :=
  { program with symbols := symbols }

/-- The symbols are those of the program and a copy of one of them, in any order. The symbol is one
    that can be merged, and the handle of the copy is a new one above its own. -/
structure Rereports (program : Program) (symbols : List Symbol) (symbol : Symbol)
    (fresh : Handle) : Prop where
  perm : symbols.Perm (symbol.under fresh :: program.symbols)
  reported : symbol ∈ program.symbols
  named : symbol.name.isSome
  free : symbol.scope ≠ .confined
  unused : fresh ∉ program.symbols.map Symbol.handle
  above : symbol.handle < fresh

theorem Lineage.unique {lineage lineage' : List Symbol} (h : program.Lineage symbol lineage)
    (h' : program.Lineage symbol lineage') : lineage = lineage' := by
  induction h generalizing lineage' with
  | top hparent =>
    cases h' with
    | top _ => rfl
    | inner hparent' _ _ =>
      rw [hparent] at hparent'
      cases hparent'
  | inner hparent houter _ ih =>
    cases h' with
    | top hparent' =>
      rw [hparent] at hparent'
      cases hparent'
    | inner hparent' houter' hrest' =>
      rw [hparent] at hparent'
      cases hparent'
      rw [houter] at houter'
      cases houter'
      rw [ih hrest']

/-- Where all lineages exist, they are found. -/
theorem lineage_eq_ok_of_lineage (hconsistent : program.Consistent)
    (hall : ∀ symbol ∈ program.symbols, ∃ lineage, program.Lineage symbol lineage)
    (hsymbol : symbol ∈ program.symbols) {lineage : List Symbol}
    (h : program.Lineage symbol lineage) : program.lineage symbol = .ok lineage.reverse := by
  obtain ⟨found, hfound⟩ :=
    exists_lineage hconsistent (acyclic_of_lineages hconsistent hall) hsymbol
  rw [hfound, h.unique (lineage_eq_ok hfound), List.reverse_reverse]

namespace Rereports

variable (h : program.Rereports symbols symbol fresh)

include h

theorem mem_iff {other : Symbol} :
    other ∈ symbols ↔ other = symbol.under fresh ∨ other ∈ program.symbols := by
  rw [h.perm.mem_iff, List.mem_cons]

theorem consistent (hconsistent : program.Consistent) :
    (program.withSymbols symbols).Consistent where
  handles_nodup := by
    refine (h.perm.map Symbol.handle).nodup_iff.mpr ?_
    exact List.nodup_cons.mpr ⟨h.unused, hconsistent.handles_nodup⟩
  declared := by
    intro other hother
    rcases h.mem_iff.mp hother with rfl | hother
    · exact hconsistent.declared symbol h.reported
    · exact hconsistent.declared other hother
  inDocuments := by
    intro other hother
    rcases h.mem_iff.mp hother with rfl | hother
    · exact hconsistent.inDocuments symbol h.reported
    · exact hconsistent.inDocuments other hother
  parents := by
    have hparents : ∀ other ∈ program.symbols, ∀ parent, other.parent = some parent →
        ((program.withSymbols symbols).symbol? parent).isSome := by
      intro other hother parent hparent
      obtain ⟨outer, houter, hhandle⟩ :=
        isSome_symbol?_iff.mp (hconsistent.parents other hother parent hparent)
      exact isSome_symbol?_iff.mpr ⟨outer, h.mem_iff.mpr (.inr houter), hhandle⟩
    intro other hother
    rcases h.mem_iff.mp hother with rfl | hother
    · exact hparents symbol h.reported
    · exact hparents other hother

theorem handle_ne {other : Symbol} (hother : other ∈ program.symbols) : other.handle ≠ fresh := by
  rintro rfl
  exact h.unused (List.mem_map_of_mem hother)

theorem parent_ne (hconsistent : program.Consistent) {other : Symbol}
    (hother : other ∈ program.symbols) : other.parent ≠ some fresh := by
  intro hparent
  obtain ⟨outer, houter, rfl⟩ :=
    isSome_symbol?_iff.mp (hconsistent.parents other hother fresh hparent)
  exact h.handle_ne houter rfl

theorem lineage_of_lineage (hconsistent : program.Consistent) {other : Symbol}
    {lineage : List Symbol} (hlineage : program.Lineage other lineage) :
    (program.withSymbols symbols).Lineage other lineage := by
  induction hlineage with
  | top hparent => exact .top hparent
  | inner hparent houter _ ih =>
    refine .inner hparent ?_ ih
    obtain ⟨hmem, rfl⟩ := mem_of_symbol? houter
    exact (h.consistent hconsistent).symbol?_handle (h.mem_iff.mpr (.inr hmem))

/-- The copy lies in what the symbol lies in. -/
theorem exists_lineage_under (hconsistent : program.Consistent) {lineage : List Symbol}
    (hlineage : program.Lineage symbol lineage) : ∃ outer, lineage = symbol :: outer ∧
      (program.withSymbols symbols).Lineage (symbol.under fresh) (symbol.under fresh :: outer) := by
  cases h.lineage_of_lineage hconsistent hlineage with
  | top hparent => exact ⟨[], rfl, .top hparent⟩
  | inner hparent houter hrest => exact ⟨_, rfl, .inner hparent houter hrest⟩

/-- The copy is sorted in behind the symbol. -/
theorem exists_sortedSymbols (hconsistent : program.Consistent) : ∃ low high,
    program.sortedSymbols = low ++ high ∧ symbol ∈ low ∧
      (program.withSymbols symbols).sortedSymbols = low ++ symbol.under fresh :: high := by
  obtain ⟨low, high, hsplit, hsplit', -, hhigh⟩ := @exists_sortBy_append _
    (compareLex (compareOn Symbol.leastPlace?) (compareOn Symbol.handle)) _ program.symbols
    (symbol.under fresh)
  refine ⟨low, high, hsplit, ?_, ?_⟩
  · have hmem : symbol ∈ low ++ high := by
      rw [← hsplit]
      exact mem_sortBy.mpr h.reported
    rcases List.mem_append.mp hmem with hlow | hmem
    · exact hlow
    · -- at one place with the copy, the symbol has the smaller handle
      have hlt : (compare symbol.leastPlace? symbol.leastPlace?).then
          (compare fresh symbol.handle) = .lt := hhigh symbol hmem
      rw [Std.ReflOrd.compare_self, Ordering.eq_then, Std.compare_eq_lt] at hlt
      exact absurd hlt (UInt32.lt_asymm h.above)
  · rw [← hsplit']
    refine sortBy_eq_of_perm (h.perm.trans (List.perm_append_singleton _ _).symm) ?_
    intro a ha b hb heq
    obtain ⟨-, hhandle⟩ := Ordering.then_eq_eq.mp heq
    exact List.inj_on_of_nodup_map (h.consistent hconsistent).handles_nodup ha hb
      (Std.compare_eq_iff_eq.mp hhandle)

theorem mapM_lineage (hconsistent : program.Consistent)
    (hall : ∀ other ∈ program.symbols, ∃ lineage, program.Lineage other lineage)
    {others : List Symbol} {lineages : List (List Symbol)}
    (hothers : ∀ other ∈ others, other ∈ symbols)
    (hlineages : List.Forall₂ (fun other lineage =>
      (program.withSymbols symbols).Lineage other lineage.reverse) others lineages) :
    others.mapM (program.withSymbols symbols).lineage = .ok lineages := by
  have hall' : ∀ other ∈ symbols, ∃ lineage, (program.withSymbols symbols).Lineage other lineage := by
    intro other hother
    rcases h.mem_iff.mp hother with rfl | hother
    · obtain ⟨lineage, hlineage⟩ := hall symbol h.reported
      obtain ⟨outer, -, hunder⟩ := h.exists_lineage_under hconsistent hlineage
      exact ⟨_, hunder⟩
    · obtain ⟨lineage, hlineage⟩ := hall other hother
      exact ⟨lineage, h.lineage_of_lineage hconsistent hlineage⟩
  refine mapM_eq_ok_iff.mpr (forall₂_imp_mem hlineages ?_)
  intro other hother lineage _ hlineage
  rw [lineage_eq_ok_of_lineage (h.consistent hconsistent) hall' (hothers other hother) hlineage,
    List.reverse_reverse]

/-- The lineages of both programs are the same, but for that of the copy. It comes after that of the
    symbol and has no other member that does not. -/
theorem exists_lineages (hconsistent : program.Consistent) {lineages : List (List Symbol)}
    (hlineages : program.sortedSymbols.mapM program.lineage = .ok lineages) :
    ∃ (low : List Symbol) (lows highs : List (List Symbol)) (outer : List Symbol),
      lineages = lows ++ highs ∧ symbol ∈ low ∧
      (∀ other ∈ low, other ∈ program.symbols) ∧ low.mapM program.lineage = .ok lows ∧
      (∀ other ∈ outer, other ∈ lows.flatten) ∧
      (program.withSymbols symbols).sortedSymbols.mapM (program.withSymbols symbols).lineage =
        .ok (lows ++ (outer ++ [symbol.under fresh]) :: highs) := by
  have hall : ∀ other ∈ program.symbols, ∃ lineage, program.Lineage other lineage := by
    intro other hother
    obtain ⟨lineage, -, hlineage⟩ := exists_mem_right_of_forall₂ (mapM_eq_ok_iff.mp hlineages)
      (mem_sortBy.mpr hother)
    exact ⟨_, lineage_eq_ok hlineage⟩
  obtain ⟨low, high, hsorted, hlow, hsorted'⟩ := h.exists_sortedSymbols hconsistent
  have hreported : ∀ other ∈ low ++ high, other ∈ program.symbols := by
    intro other hother
    rw [← hsorted] at hother
    exact mem_sortBy.mp hother
  rw [hsorted, List.mapM_append] at hlineages
  obtain ⟨lows, hlows, hlineages⟩ := bind_eq_ok_iff.mp hlineages
  obtain ⟨highs, hhighs, hlineages⟩ := bind_eq_ok_iff.mp hlineages
  cases hlineages
  obtain ⟨lineage, hlineage, hsymbol⟩ :=
    exists_mem_right_of_forall₂ (mapM_eq_ok_iff.mp hlows) hlow
  obtain ⟨outer, houter, hunder⟩ := h.exists_lineage_under hconsistent (lineage_eq_ok hsymbol)
  have hkept : ∀ {others : List Symbol} {lineages : List (List Symbol)},
      others.mapM program.lineage = .ok lineages → List.Forall₂ (fun other lineage =>
        (program.withSymbols symbols).Lineage other lineage.reverse) others lineages := by
    intro others lineages hlineages
    exact (mapM_eq_ok_iff.mp hlineages).imp fun _ _ hok =>
      h.lineage_of_lineage hconsistent (lineage_eq_ok hok)
  refine ⟨low, lows, highs, outer.reverse, rfl, hlow, ?_, hlows, ?_, ?_⟩
  · intro other hother
    exact hreported other (List.mem_append_left _ hother)
  · intro other hother
    refine List.mem_flatten.mpr ⟨lineage, hlineage, List.mem_reverse.mp ?_⟩
    rw [houter]
    exact List.mem_cons_of_mem _ (List.mem_reverse.mp hother)
  · rw [hsorted']
    refine h.mapM_lineage hconsistent hall ?_ (List.rel_append (hkept hlows) (.cons ?_
      (hkept hhighs)))
    · intro other hother
      rw [h.mem_iff]
      simp only [List.mem_append, List.mem_cons] at hother hreported
      rcases hother with hother | rfl | hother
      · exact .inr (hreported other (.inl hother))
      · exact .inl rfl
      · exact .inr (hreported other (.inr hother))
    · rw [List.reverse_append, List.reverse_reverse]
      exact hunder

/-- The groups of both merges are the same but for one handle and repeated sites. -/
theorem exists_echoes {table : SymbolTable} (hmerge : program.merge = .ok table) :
    ∃ groups groups', table = SymbolTable.ofGroups groups ∧
      (program.withSymbols symbols).merge = .ok (SymbolTable.ofGroups groups') ∧
      List.Forall₂ (Group.Echoes fresh) groups groups' := by
  obtain ⟨hconsistent, lineages, hlineages, rfl⟩ := merge_eq_ok_iff.mp hmerge
  have hsorted : ∀ other ∈ program.sortedSymbols, other ∈ program.symbols :=
    fun other => mem_sortBy.mp
  have hmentioned := mem_symbols_of_mem_lineages hsorted hlineages
  obtain ⟨low, lows, highs, outer, rfl, hlow, hreported, hlows, houter, hlineages'⟩ :=
    h.exists_lineages hconsistent hlineages
  let settled := lows.flatten.foldl (Group.settle program) []
  obtain ⟨hsettled, hfound⟩ :=
    (Group.Settled.nil program).run hconsistent hreported (mapM_eq_ok_iff.mp hlows)
  have hreached : Group.Reached program settled :=
    Group.Reached.nil.foldl_settle (mem_symbols_of_mem_lineages hreported hlows)
  -- what the copy lies in is settled, and then the copy itself
  have hknown : outer.foldl (Group.settle program) settled = settled := by
    refine Group.foldl_settle_of_known fun other hother => ?_
    exact Group.isSome_find?_foldl_settle (houter other hother)
  have hcopy : List.Forall₂ (Group.Echoes fresh) settled
      (Group.settle program settled (symbol.under fresh)) :=
    hsettled.settle_under hconsistent hreached h.reported h.named h.free h.unused
      (hfound symbol hlow)
  have hrest : ∀ other ∈ highs.flatten, other.handle ≠ fresh ∧ other.parent ≠ some fresh := by
    intro other hother
    have hmem : other ∈ program.symbols := by
      apply hmentioned
      rw [List.flatten_append]
      exact List.mem_append_right _ hother
    exact ⟨h.handle_ne hmem, h.parent_ne hconsistent hmem⟩
  refine ⟨_, highs.flatten.foldl (Group.settle program)
    (Group.settle program settled (symbol.under fresh)), rfl, ?_, ?_⟩
  · refine merge_eq_ok_iff.mpr ⟨h.consistent hconsistent, _, hlineages', ?_⟩
    change _ = SymbolTable.ofGroups (List.foldl (Group.settle program) [] _)
    rw [List.flatten_append, List.flatten_cons, List.foldl_append, List.foldl_append,
      List.foldl_append]
    change _ = SymbolTable.ofGroups (highs.flatten.foldl (Group.settle program)
      (Group.settle program (outer.foldl (Group.settle program) settled) (symbol.under fresh)))
    rw [hknown]
  · rw [List.flatten_append, List.foldl_append]
    exact Group.foldl_settle_echoes hrest hcopy

end Rereports

end Program

/-! ### What is read of a table

Apart from the resolving of handles, a table is read through its records without their handles. -/

/-- The record without its handles. -/
def Record.bare (record : Record) : Record :=
  { record with handles := [] }

namespace SymbolTable

/-- The table without handles. -/
def bare (table : SymbolTable) : SymbolTable :=
  ⟨table.records.map Record.bare⟩

variable (table : SymbolTable)

theorem records_bare : table.bare.records = table.records.map Record.bare := rfl

theorem record?_bare (id : Nat) : table.bare.record? id = (table.record? id).map Record.bare :=
  List.getElem?_map

theorem chain_bare (id : Nat) : table.bare.chain id = (table.chain id).map Record.bare := by
  have hascend : ∀ steps id, table.bare.ascend steps id =
      (table.ascend steps id).map Record.bare := by
    intro steps
    induction steps with
    | zero => exact fun _ => rfl
    | succ steps ih =>
      intro id
      simp only [ascend, table.record?_bare]
      cases table.record? id with
      | none => rfl
      | some record =>
        simp only [Option.map_some, List.map_cons, Record.bare]
        cases record.parent with
        | none => rfl
        | some parent => simp only [ih]
  exact hascend (id + 1) id

theorem visibility_bare (id : Nat) : table.bare.visibility id = table.visibility id := by
  simp only [visibility, chain_bare, ← List.map_reverse]
  cases (table.chain id).reverse with
  | nil => rfl
  | cons top members =>
    simp only [List.map_cons, Visibility.ofNested, List.foldl_map]
    rfl

theorem visits_bare (links : List Link) : table.bare.visits links = table.visits links := by
  have hmembers : table.bare.memberStep? = table.memberStep? := by
    funext id
    simp only [memberStep?, record?_bare, visibility_bare]
    cases table.record? id with
    | none => rfl
    | some record => rfl
  have hsteps : table.bare.steps links = table.steps links := by
    simp only [steps, Record.steps, hmembers, records_bare, List.map_map]
    rfl
  simp only [visits, hsteps, records_bare, List.length_map]

theorem identifiers_bare (canonical : Nat → Option Canonical) :
    table.bare.identifiers canonical = table.identifiers canonical := by
  simp only [identifiers, records_bare, List.filterMap_map]
  rfl

theorem definitions_bare : table.bare.definitions = table.definitions := by
  simp only [definitions, records_bare, List.flatMap_map]
  rfl

theorem nestedPath_bare (naming : Naming) (records : List Record) :
    naming.nestedPath (records.map Record.bare) = naming.nestedPath records := by
  induction records with
  | nil => rfl
  | cons record outer ih =>
    cases outer with
    | nil => rfl
    | cons container outer =>
      rw [List.map_cons, Naming.nestedPath, Naming.nestedPath, ih]
      rfl

theorem memberPath_bare (naming : Naming) (id : Nat) :
    naming.memberPath table.bare id = naming.memberPath table id := by
  rw [Naming.memberPath, Naming.memberPath, chain_bare]
  have hpath := nestedPath_bare naming (table.chain id)
  cases hchain : table.chain id with
  | nil => rfl
  | cons record outer =>
    rw [hchain] at hpath
    simp only [List.map_cons] at hpath ⊢
    simp only [Naming.nestedMemberPath, hpath]
    rfl

theorem identity?_bare (naming : Naming) (id : Nat) :
    table.bare.identity? naming id = table.identity? naming id := by
  have hlocal : ∀ record : Record, Naming.localText table.bare record.bare =
      Naming.localText table record := by
    intro record
    simp only [Naming.localText, chain_bare, ← List.map_reverse, List.map_map, Record.bare]
    rfl
  simp only [identity?, record?_bare, visibility_bare]
  cases table.record? id with
  | none => rfl
  | some record =>
    have hpath : naming.exportPath table.bare record.id = naming.exportPath table record.id := by
      rw [Naming.exportPath, chain_bare, nestedPath_bare]
      rfl
    simp only [Option.map_some, Option.bind_eq_bind, Option.bind_some, Naming.identity?,
      Naming.localIdentifier, hlocal]
    change (if record.name.isNone then none else if _ then
      (naming.exportPath table.bare record.id).map _ else _) = _
    rw [hpath]

end SymbolTable

theorem SymbolTable.childrenOf_bare (records : List Record) (id : Nat) :
    childrenOf (records.map Record.bare) id = childrenOf records id := by
  have hfilter : (records.map Record.bare).filter (fun record => record.parent == some id) =
      (records.filter fun record => record.parent == some id).map Record.bare := List.filter_map
  have hsorted : sortBy (compareOn fun record : Record => record.canonical?.map Site.place)
        ((records.filter fun record => record.parent == some id).map Record.bare) =
      (sortBy (compareOn fun record : Record => record.canonical?.map Site.place)
        (records.filter fun record => record.parent == some id)).map Record.bare :=
    sortBy_map fun _ _ _ _ => rfl
  unfold childrenOf
  rw [hfilter, hsorted, List.map_map]
  rfl

/-- Groups that are the same but for handles and repeated sites become the same records, but for the
    handles. -/
theorem Group.bare_ofGroups {fresh : Handle} {groups groups' : List Group}
    (h : List.Forall₂ (Echoes fresh) groups groups') :
    (SymbolTable.ofGroups groups').bare = (SymbolTable.ofGroups groups).bare := by
  have hrecord : ∀ id group other, Echoes fresh group other →
      (SymbolTable.recordOf id other).bare = (SymbolTable.recordOf id group).bare := by
    rintro id group _ ⟨sites, handles, rfl, hsites, -⟩
    simp only [SymbolTable.recordOf, Record.bare, Site.arrange_of_repeats hsites]
  have hrecords : (groups'.mapIdx SymbolTable.recordOf).map Record.bare =
      (groups.mapIdx SymbolTable.recordOf).map Record.bare := by
    have hself : groups'.mapIdx (fun id group => (SymbolTable.recordOf id group).bare) =
        (groups'.mapIdx SymbolTable.recordOf).map Record.bare :=
      mapIdx_eq_map_of_forall₂ (List.forall₂_same.mpr fun _ _ => rfl) fun id _ _ heq => heq ▸ rfl
    rw [← hself]
    exact mapIdx_eq_map_of_forall₂ h hrecord
  have hbare : ∀ groups, (SymbolTable.ofGroups groups).bare =
      let records := (groups.mapIdx SymbolTable.recordOf).map Record.bare
      ⟨records.map fun record =>
        { record with children := SymbolTable.childrenOf records record.id }⟩ := by
    intro groups
    simp only [SymbolTable.ofGroups, SymbolTable.bare, List.map_map, SymbolTable.childrenOf_bare]
    rfl
  rw [hbare, hbare, hrecords]

/-! ### Runs -/

namespace Program

variable {program : Program} {symbols : List Symbol} {table table' : SymbolTable}

/-- Tables with the same records, but for the handles, that resolve the reported handles alike. -/
structure SameRecords (program : Program) (table table' : SymbolTable) : Prop where
  bare : table'.bare = table.bare
  resolve : ∀ handle ∈ program.symbols.map Symbol.handle,
    table'.resolve handle = table.resolve handle

namespace SameRecords

variable (h : program.SameRecords table table')

include h

theorem findReference_eq_ok {reference : Reference} {occurrence : Occurrence}
    (htarget : reference.target ∈ program.symbols.map Symbol.handle)
    (hok : program.findReference table reference = .ok occurrence) :
    (program.withSymbols symbols).findReference table' reference = .ok occurrence := by
  obtain ⟨hfile, record, hrecord, rfl⟩ := findReference_eq_ok_iff.mp hok
  obtain ⟨id, hid, hrecord⟩ := Option.bind_eq_some_iff.mp hrecord
  have hbare : (table'.record? id).map Record.bare = some record.bare := by
    rw [← table'.record?_bare, h.bare, table.record?_bare, hrecord]
    rfl
  obtain ⟨record', hrecord', heq⟩ := Option.map_eq_some_iff.mp hbare
  refine findReference_eq_ok_iff.mpr ⟨hfile, record', Option.bind_eq_some_iff.mpr
    ⟨id, (h.resolve _ htarget).trans hid, hrecord'⟩, ?_⟩
  change Occurrence.ofReference reference record.bare = .ofReference reference record'.bare
  rw [heq]

theorem occurrences_eq_ok {occurrences : List Occurrence} (hmerge : program.merge = .ok table)
    (hok : program.occurrences table = .ok occurrences) :
    (program.withSymbols symbols).occurrences table' = .ok occurrences := by
  obtain ⟨found, hfound, rfl⟩ := occurrences_eq_ok_iff.mp hok
  have hdefinitions : table'.definitions = table.definitions := by
    rw [← table'.definitions_bare, h.bare, table.definitions_bare]
  refine occurrences_eq_ok_iff.mpr ⟨found, forall₂_imp_mem hfound ?_, by rw [hdefinitions]⟩
  intro reference _ occurrence _ hone
  have haccepts := findReference_accepts hmerge reference
  rw [hone] at haccepts
  cases haccepts with
  | ok hthere _ => exact h.findReference_eq_ok hthere.2 hone

theorem link_eq (naming : Naming) {aliasFact : Alias} (hfound : program.AliasFound aliasFact) :
    aliasFact.link (program.withSymbols symbols) naming table' =
      aliasFact.link program naming table := by
  have htarget : aliasFact.findTarget table' = aliasFact.findTarget table := by
    rw [Alias.findTarget, h.resolve _ hfound.target]
    rfl
  have hcontainer : aliasFact.findContainer table' = aliasFact.findContainer table := by
    unfold Alias.findContainer
    cases hsome : aliasFact.container with
    | none => rfl
    | some handle =>
      dsimp only
      rw [h.resolve _ (hfound.container handle hsome)]
  have hbase : aliasFact.findBase (program.withSymbols symbols) naming table' =
      aliasFact.findBase program naming table := by
    funext container
    cases container with
    | none => rfl
    | some id =>
      have hvisibility : table'.visibility id = table.visibility id := by
        rw [← table'.visibility_bare, h.bare, table.visibility_bare]
      have hpath : naming.memberPath table' id = naming.memberPath table id := by
        rw [← table'.memberPath_bare, h.bare, table.memberPath_bare]
      simp only [Alias.findBase, hvisibility, hpath]
  simp only [Alias.link, htarget, hcontainer, hbase]

theorem publishAliases_eq_ok {naming : Naming} {canonical : Nat → Option Canonical}
    {scheme : String} {graph : Graph} {result : Graph × AliasStats}
    (hmerge : program.merge = .ok table)
    (hok : program.publishAliases naming table canonical scheme graph = .ok result) :
    (program.withSymbols symbols).publishAliases naming table' canonical scheme graph =
      .ok result := by
  obtain ⟨links, hlinks, hrest⟩ := bind_eq_ok_iff.mp hok
  have haccepts := links_accepts naming hmerge
  rw [hlinks] at haccepts
  cases haccepts with
  | ok hfound _ =>
    have hlinks' : (program.withSymbols symbols).links naming table' = .ok links := by
      refine mapM_eq_ok_iff.mpr (forall₂_imp_mem (mapM_eq_ok_iff.mp hlinks) ?_)
      intro aliasFact halias link _ hlink
      rw [h.link_eq naming (hfound aliasFact (mem_sortBy.mp halias)), hlink]
    have hvisits : table'.visits links = table.visits links := by
      rw [← table'.visits_bare, h.bare, table.visits_bare]
    have hidentifiers : table'.identifiers canonical = table.identifiers canonical := by
      rw [← table'.identifiers_bare, h.bare, table.identifiers_bare]
    refine bind_eq_ok_iff.mpr ⟨links, hlinks', ?_⟩
    rw [hvisits, hidentifiers]
    exact hrest

theorem identity?_eq (naming : Naming) : table'.identity? naming = table.identity? naming := by
  funext id
  rw [← table'.identity?_bare, h.bare, table.identity?_bare]

end SameRecords

theorem Rereports.exists_sameRecords {symbol : Symbol} {fresh : Handle}
    (h : program.Rereports symbols symbol fresh) (hmerge : program.merge = .ok table) :
    ∃ table', (program.withSymbols symbols).merge = .ok table' ∧
      program.SameRecords table table' := by
  obtain ⟨groups, groups', rfl, hmerge', hechoes⟩ := h.exists_echoes hmerge
  refine ⟨_, hmerge', Group.bare_ofGroups hechoes, ?_⟩
  intro handle hhandle
  rw [SymbolTable.resolve_ofGroups, SymbolTable.resolve_ofGroups]
  apply Group.find?_of_echoes hechoes
  rintro rfl
  exact h.unused hhandle

/-- A run gives the same if a symbol is reported once more. The symbol has a name and is not
    confined to a body; the copy has a new handle, greater than that of the symbol, and may stand
    anywhere among the symbols. -/
theorem index_of_rereported {symbol : Symbol} {fresh : Handle} {options : IndexOptions}
    {index : Index} (h : program.Rereports symbols symbol fresh)
    (hindex : program.index options = .ok index) :
    (program.withSymbols symbols).index options = .ok index := by
  obtain ⟨_, hdocuments, hindex⟩ := bind_eq_ok_iff.mp hindex
  obtain ⟨table, hmerge, hindex⟩ := bind_eq_ok_iff.mp hindex
  obtain ⟨occurrences, hoccurrences, hindex⟩ := bind_eq_ok_iff.mp hindex
  obtain ⟨emission, hemission, hindex⟩ := bind_eq_ok_iff.mp hindex
  obtain ⟨labelling, hlabelling, hindex⟩ := bind_eq_ok_iff.mp hindex
  obtain ⟨result, hpublish, hindex⟩ := bind_eq_ok_iff.mp hindex
  obtain ⟨table', hmerge', hsame⟩ := h.exists_sameRecords hmerge
  have hlabelling' : emission.label (program.naming options) table' options.scheme =
      .ok labelling := by
    rw [Emission.label, hsame.identity?_eq]
    exact hlabelling
  refine bind_eq_ok_iff.mpr ⟨_, hdocuments, bind_eq_ok_iff.mpr ⟨table', hmerge', ?_⟩⟩
  refine bind_eq_ok_iff.mpr ⟨occurrences, hsame.occurrences_eq_ok hmerge hoccurrences, ?_⟩
  refine bind_eq_ok_iff.mpr ⟨emission, hemission, bind_eq_ok_iff.mpr ⟨labelling, hlabelling', ?_⟩⟩
  exact bind_eq_ok_iff.mpr ⟨result, hsame.publishAliases_eq_ok hmerge hpublish, hindex⟩

/-- The interface of `reopened`. -/
def reopenedBox : Symbol :=
  { handle := 2, name := some "Box", kind := .interface, exportForm := some .defaultExport
    declarations := [{ file := "/p/b.d.ts", span := .onLine 3 10 13 },
      { file := "/p/a.d.ts", span := .onLine 0 10 13, exported := true }] }

/-- One place of the interface is that of the namespace of the same name, which has it first. Reported
    once more, the interface does not take it over, and its own place is not listed twice. -/
theorem index_reopened_rereported : ∃ index, reopened.index {} = .ok index ∧
    index.graph.monikers.map (·.2.identifier) = [":default"] ∧ index.graph.lastId = 11 ∧
    reopened.Rereports [reopenedBox.under 7, reopenedBox, reopened.symbols[1]] reopenedBox 7 ∧
    (reopened.withSymbols [reopenedBox.under 7, reopenedBox, reopened.symbols[1]]).index {} =
      .ok index := by
  have hfacts : (reopened.index {}).toOption.map (fun index =>
      (index.graph.monikers.map (·.2.identifier), index.graph.lastId)) =
        some ([":default"], 11) := by
    decide +kernel
  obtain ⟨index, hindex, hfacts⟩ := Option.map_eq_some_iff.mp hfacts
  rw [toOption_eq_some_iff] at hindex
  rw [Prod.mk.injEq] at hfacts
  have hagain : reopened.Rereports [reopenedBox.under 7, reopenedBox, reopened.symbols[1]]
      reopenedBox 7 :=
    ⟨.refl _, List.mem_cons_self, rfl, by decide, by decide, by decide⟩
  exact ⟨index, hindex, hfacts.1, hfacts.2, hagain, index_of_rereported hagain hindex⟩

end Program

end MonikerIndex
