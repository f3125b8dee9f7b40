import MonikerIndex.Proofs.Retelling.Emission

/-!
# What a run does not depend on

The outcome of a run does not depend on how the analyser went about its work: not on the order in
which it lists documents, symbols, declarations, references and aliases (`index_of_reordered`), and
not on the numbers that it gives to symbols (`index_rename`). Both are retellings that change
handles only, so both follow from one comparison of two runs (`index_alike`).

There are limits to both. Of declarations or references at one place, and of aliases with one start,
the first wins, so their order has to be kept; and where two symbols have the same least place, the
one with the smaller handle is settled first.
-/

namespace MonikerIndex

/-! ### New handles -/

namespace Translation

/-- The translation that changes handles only. -/
def ofHandles (rename : Handle → Handle) : Translation where
  handle := rename
  file := id
  span := fun _ => id

variable (rename : Handle → Handle)

@[simp] theorem ofHandles_document (document : Document) :
    (ofHandles rename).document document = document := rfl

@[simp] theorem ofHandles_declaration (declaration : Declaration) :
    (ofHandles rename).declaration declaration = declaration := by
  simp only [Translation.declaration, ofHandles, id_eq, Option.map_id]

@[simp] theorem ofHandles_site (site : Site) : (ofHandles rename).site site = site := by
  simp only [Translation.site, ofHandles, id_eq, Option.map_id]

theorem canonical?_ofHandles (record : Record) :
    ((ofHandles rename).record record).canonical? = record.canonical? := by
  have hsite : (ofHandles rename).site = id := funext (ofHandles_site rename)
  rw [Record.canonical?, Translation.record, hsite, List.map_id]
  rfl

theorem localText_ofHandles (table : SymbolTable) (record : Record) :
    Naming.localText ((ofHandles rename).table table) ((ofHandles rename).record record) =
      Naming.localText table record := by
  have hchain : ((ofHandles rename).table table).chain ((ofHandles rename).record record).id =
      (table.chain record.id).map (ofHandles rename).record := chain_table _ _ _
  simp only [Naming.localText, hchain, canonical?_ofHandles, ← List.map_reverse, List.map_map]
  rfl

variable {rename}

theorem payload_eq_of_retold {payload told : Payload}
    (h : Payload.Retold (ofHandles rename) Eq payload told) : payload = told := by
  cases h with
  | document path languageId kind => rfl
  | range file span tag => simp [ofHandles, Option.map_id]
  | resultSet => rfl
  | moniker h scheme =>
    cases h with
    | exported identifier => rfl
    | internal h => rw [h]
  | edge connection => rfl

theorem graph_eq_of_retold {graph told : Graph}
    (h : Graph.Retold (ofHandles rename) Eq graph told) : graph = told := by
  have hsame : List.Forall₂ Eq graph.elements.toList told.elements.toList := by
    refine h.imp fun element element' hretold => ?_
    obtain ⟨id, payload, payload', rfl, rfl, hpayload⟩ := hretold.exists_payloads
    rw [payload_eq_of_retold hpayload]
  rw [List.forall₂_eq_eq_eq] at hsame
  obtain ⟨elements⟩ := graph
  obtain ⟨elements'⟩ := told
  exact congrArg Graph.mk (Array.toList_inj.mp hsame)

end Translation

/-- A run on a program with new handles and its facts in another order ends as the run on the
    program does. -/
theorem Retells.index_alike {rename : Handle → Handle} {program other : Program}
    (h : Retells (.ofHandles rename) program other) (hroot : other.root = program.root)
    (options : IndexOptions) : Alike Eq (program.index options) (other.index options) := by
  have hkeeps : (Translation.ofHandles rename).Keeps program other := by
    refine ⟨fun _ _ _ _ _ => rfl, fun _ _ _ _ _ => rfl, fun _ _ => rfl, fun file _ => ?_⟩
    rw [hroot]
    rfl
  have hapart : ApartFromPaths Eq := by
    rintro identifier _ rfl path
    rfl
  refine (h.index_retold hkeeps options hapart fun table record => ?_).imp ?_
  · rw [Translation.localText_ofHandles]
  · rintro ⟨graph, stats⟩ ⟨graph', stats'⟩ ⟨hgraph, hstats⟩
    simp only at hgraph hstats
    rw [Translation.graph_eq_of_retold hgraph, hstats]

/-! ### Another order -/

/-- Whether a list is another one in some order. Only where all keys are distinct may the order
    have changed. -/
def Rearranged {α κ : Type} (key : α → κ) (xs ys : List α) : Prop :=
  xs = ys ∨ xs.Perm ys ∧ (xs.map key).Nodup

theorem Rearranged.agreeBy {α κ : Type} [DecidableEq κ] {key : α → κ} {xs ys : List α}
    (h : Rearranged key xs ys) : AgreeBy key xs ys := by
  rcases h with rfl | ⟨hperm, hnodup⟩
  · exact AgreeBy.refl key xs
  · exact AgreeBy.of_perm hperm hnodup

/-- A symbol with its declarations in some order. -/
def Symbol.Reordered (symbol other : Symbol) : Prop :=
  ∃ declarations, Rearranged Declaration.place symbol.declarations declarations ∧
    other = { symbol with declarations := declarations }

/-- A program with its facts in some order. -/
structure Program.Reordered (program other : Program) : Prop where
  root : other.root = program.root
  documents : program.documents.Perm other.documents
  symbols : ∃ symbols, List.Forall₂ Symbol.Reordered program.symbols symbols ∧
    symbols.Perm other.symbols
  references : Rearranged Reference.place program.references other.references
  aliases : Rearranged Alias.start program.aliases other.aliases

theorem Symbol.Reordered.matches {symbol other : Symbol} (h : symbol.Reordered other) :
    (Translation.ofHandles id).Matches symbol other := by
  obtain ⟨declarations, hdeclarations, rfl⟩ := h
  refine ⟨rfl, rfl, rfl, (congrFun Option.map_id symbol.parent).symm, rfl, rfl, ?_⟩
  rw [List.map_id'' (Translation.ofHandles_declaration id)]
  exact hdeclarations.agreeBy

/-- A program in another order is the program told again. -/
theorem Program.Reordered.retells {program other : Program} (h : program.Reordered other) :
    Retells (.ofHandles id) program other where
  documents := by
    rw [List.map_id'' (Translation.ofHandles_document id)]
    exact h.documents
  symbols := by
    obtain ⟨symbols, hreordered, hperm⟩ := h.symbols
    exact ⟨symbols, hreordered.imp fun _ _ => Symbol.Reordered.matches, hperm⟩
  references := by
    have hreference : ∀ reference, (Translation.ofHandles id).reference reference = reference :=
      fun _ => rfl
    rw [List.map_id'' hreference]
    exact h.references.agreeBy
  aliases := by
    have halias : ∀ aliasFact, (Translation.ofHandles id).aliasFact aliasFact = aliasFact := by
      intro aliasFact
      simp only [Translation.aliasFact, Translation.ofHandles, Option.map_id, id_eq]
    rw [List.map_id'' halias]
    exact h.aliases.agreeBy
  handle_inj := fun _ _ _ _ heq => heq
  compare_file := fun _ _ _ _ => rfl
  compare_span := fun _ _ _ _ _ => rfl
  compare_handle := fun _ _ _ _ _ _ _ => rfl

/-- The order in which facts are reported does not matter: a run gives the same graph, number by
    number, or fails with the same kind of error. -/
theorem Program.index_of_reordered {program other : Program} (h : program.Reordered other)
    (options : IndexOptions) :
    (program.index options).mapError Error.kind = (other.index options).mapError Error.kind :=
  (h.retells.index_alike h.root options).mapError_eq

/-- A class with a parameter property, which declares a property and a parameter at one place. An
    interface in another file belongs to the class. -/
def Program.person : Program where
  root := "/p"
  documents := [.script "/p/person.ts", .script "/p/extra.d.ts"]
  symbols := [
    { handle := 1, name := some "Person", kind := .classType
      declarations := [
        { file := "/p/person.ts", span := .onLine 0 6 12 },
        { file := "/p/extra.d.ts", span := .onLine 0 10 16, kind := some .interface }] },
    { handle := 2, name := some "name", kind := .property, parent := some 1
      declarations := [{ file := "/p/person.ts", span := .onLine 1 21 25, exported := true }] },
    { handle := 3, name := some "name", kind := .parameter, parent := some 1, scope := .confined
      declarations := [{ file := "/p/person.ts", span := .onLine 1 21 25 }] }]
  references := [
    ⟨"/p/person.ts", .onLine 2 30 34, "name", 3⟩,
    ⟨"/p/person.ts", .onLine 4 17 23, "Person", 1⟩]
  aliases := [
    ⟨"/p/person.ts", .onLine 6 19 24, none, "Human", 1⟩,
    ⟨"/p/person.ts", .onLine 5 19 24, some 1, "title", 2⟩]

/-- The class with all its facts in reverse. -/
def Program.personReversed : Program where
  root := "/p"
  documents := person.documents.reverse
  symbols := (person.symbols.map fun symbol =>
    { symbol with declarations := symbol.declarations.reverse }).reverse
  references := person.references.reverse
  aliases := person.aliases.reverse

theorem Program.index_personReversed :
    person.Reordered personReversed ∧ (person.index { digest := id }).isOk = true ∧
      (person.index { digest := id }).mapError Error.kind =
        (personReversed.index { digest := id }).mapError Error.kind := by
  have hreordered : person.Reordered personReversed := by
    refine ⟨rfl, (List.reverse_perm _).symm, ?_, ?_, ?_⟩
    · refine ⟨_, ?_, (List.reverse_perm _).symm⟩
      rw [List.forall₂_map_right_iff, List.forall₂_same]
      intro symbol hsymbol
      refine ⟨_, Or.inr ⟨(List.reverse_perm _).symm, ?_⟩, rfl⟩
      revert symbol
      decide +kernel
    · exact Or.inr ⟨(List.reverse_perm _).symm, by decide +kernel⟩
    · exact Or.inr ⟨(List.reverse_perm _).symm, by decide +kernel⟩
  exact ⟨hreordered, by decide +kernel, index_of_reordered hreordered _⟩

/-! ### Other handles -/

/-- The program with other handles for its symbols, wherever it mentions them. -/
def Program.rename (rename : Handle → Handle) (program : Program) : Program :=
  { program with
    symbols := program.symbols.map fun symbol =>
      { symbol with handle := rename symbol.handle, parent := symbol.parent.map rename }
    references := program.references.map fun reference =>
      { reference with target := rename reference.target }
    aliases := program.aliases.map fun aliasFact =>
      { aliasFact with
        container := aliasFact.container.map rename
        target := rename aliasFact.target } }

/-- Handles that keep their order compare alike. -/
theorem compare_rename {rename : Handle → Handle} {a b : Handle}
    (hlt : a < b → rename a < rename b) (hgt : b < a → rename b < rename a) :
    compare (rename a) (rename b) = compare a b := by
  cases hcompare : compare a b with
  | lt => exact Std.compare_eq_lt.mpr (hlt (Std.compare_eq_lt.mp hcompare))
  | gt => exact Std.compare_eq_gt.mpr (hgt (Std.compare_eq_gt.mp hcompare))
  | eq =>
    rw [Std.compare_eq_iff_eq.mp hcompare]
    exact Std.ReflOrd.compare_self

/-- A program with other handles is the program told again. -/
theorem Program.retells_rename {program : Program} {rename : Handle → Handle}
    (hinj : ∀ a ∈ program.handles, ∀ b ∈ program.handles, rename a = rename b → a = b)
    (hties : ∀ a ∈ program.symbols, ∀ b ∈ program.symbols, a.leastPlace?.isSome →
      a.leastPlace? = b.leastPlace? → a.handle < b.handle → rename a.handle < rename b.handle) :
    Retells (.ofHandles rename) program (program.rename rename) where
  documents := by
    rw [List.map_id'' (Translation.ofHandles_document rename)]
    exact List.Perm.refl _
  symbols := by
    refine ⟨_, ?_, List.Perm.refl _⟩
    rw [Program.rename, List.forall₂_map_right_iff, List.forall₂_same]
    intro symbol _
    refine ⟨rfl, rfl, rfl, rfl, rfl, rfl, ?_⟩
    rw [List.map_id'' (Translation.ofHandles_declaration rename)]
    exact AgreeBy.refl _ _
  references := AgreeBy.refl _ _
  aliases := AgreeBy.refl _ _
  handle_inj := hinj
  compare_file := fun _ _ _ _ => rfl
  compare_span := fun _ _ _ _ _ => rfl
  compare_handle := by
    intro a ha b hb place hplace hplace'
    exact compare_rename
      (hties a ha b hb (by rw [hplace]; rfl) (hplace.trans hplace'.symm))
      (hties b hb a ha (by rw [hplace']; rfl) (hplace'.trans hplace.symm))

/-- The handles of symbols do not matter: whatever numbers they are given, a run gives the same
    graph or fails with the same kind of error, as long as different symbols get different numbers
    and symbols with the same least place keep the order of theirs. -/
theorem Program.index_rename {program : Program} {rename : Handle → Handle}
    (hinj : ∀ a ∈ program.handles, ∀ b ∈ program.handles, rename a = rename b → a = b)
    (hties : ∀ a ∈ program.symbols, ∀ b ∈ program.symbols, a.leastPlace?.isSome →
      a.leastPlace? = b.leastPlace? → a.handle < b.handle → rename a.handle < rename b.handle)
    (options : IndexOptions) :
    ((program.rename rename).index options).mapError Error.kind =
      (program.index options).mapError Error.kind :=
  ((retells_rename hinj hties).index_alike rfl options).mapError_eq.symm

/-- Puts the handle of the class above those of its members. -/
def Program.personHandle (handle : Handle) : Handle :=
  if handle = 1 then 9 else 2 * handle

/-- The class is told apart from its members by any other handle. The property and the parameter
    keep the order of theirs, as they are declared at one place. -/
theorem Program.index_rename_person :
    (person.index { digest := id }).isOk = true ∧
      ((person.rename personHandle).index { digest := id }).mapError Error.kind =
        (person.index { digest := id }).mapError Error.kind := by
  have hall : (person.handles.all fun a => person.handles.all fun b =>
      decide (personHandle a = personHandle b → a = b)) = true := by decide +kernel
  have hinj : ∀ a ∈ person.handles, ∀ b ∈ person.handles,
      personHandle a = personHandle b → a = b := by
    simpa only [List.all_eq_true, decide_eq_true_eq] using hall
  exact ⟨by decide +kernel, index_rename hinj (by decide +kernel) _⟩

end MonikerIndex
