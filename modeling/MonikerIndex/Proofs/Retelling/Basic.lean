import MonikerIndex.Proofs.Consistency

/-!
# Telling a program again

An analyser that is run twice may number its symbols differently and list its facts in another
order; files may have moved, and text within them. A translation says how handles, files and spans
change. A program retells another one if it has the translated facts in some order, as long as the
order cannot matter: of declarations or references at one place and of aliases with one start, the
order is kept (`Retells`).

A translation must be faithful where the program uses it: it tells handles apart and keeps the order
of files, and of the spans in one file at which something stands. Where two symbols have the same
least place, handles decide which is settled first, so there it must keep their order too.

This module has what follows for single facts: which files are documents, where a symbol is least
declared, and under which handle it is found.
-/

namespace MonikerIndex

/-- How handles, files and spans change when a program is told again. -/
structure Translation where
  handle : Handle → Handle
  file : String → String
  /-- The new span of what stands at a span of the given file. -/
  span : String → Span → Span

namespace Translation

/-! ### Translated facts -/

def place (T : Translation) (place : Place) : Place :=
  ⟨T.file place.file, T.span place.file place.span⟩

def document (T : Translation) (document : Document) : Document :=
  { document with path := T.file document.path }

def declaration (T : Translation) (declaration : Declaration) : Declaration :=
  { declaration with
    file := T.file declaration.file
    span := T.span declaration.file declaration.span
    fullSpan := declaration.fullSpan.map (T.span declaration.file) }

def reference (T : Translation) (reference : Reference) : Reference :=
  { reference with
    file := T.file reference.file
    span := T.span reference.file reference.span
    target := T.handle reference.target }

def aliasFact (T : Translation) (aliasFact : Alias) : Alias :=
  { aliasFact with
    file := T.file aliasFact.file
    span := T.span aliasFact.file aliasFact.span
    container := aliasFact.container.map T.handle
    target := T.handle aliasFact.target }

/-- A symbol told again: all is translated, and declarations at different places may have changed
    their order. -/
structure Matches (T : Translation) (symbol other : Symbol) : Prop where
  handle : other.handle = T.handle symbol.handle
  name : other.name = symbol.name
  kind : other.kind = symbol.kind
  parent : other.parent = symbol.parent.map T.handle
  scope : other.scope = symbol.scope
  exportForm : other.exportForm = symbol.exportForm
  declarations : AgreeBy Declaration.place (symbol.declarations.map T.declaration)
    other.declarations

/-- A symbol of the given program, and the same symbol told again. -/
def Tells (T : Translation) (program : Program) (symbol told : Symbol) : Prop :=
  symbol ∈ program.symbols ∧ T.Matches symbol told

end Translation

/-! ### Retelling -/

/-- Where a reference stands. -/
def Reference.place (reference : Reference) : Place :=
  ⟨reference.file, reference.span⟩

/-- Where an alias stands. -/
def Alias.place (aliasFact : Alias) : Place :=
  ⟨aliasFact.file, aliasFact.span⟩

/-- Where an alias starts. -/
def Alias.start (aliasFact : Alias) : String × Position :=
  (aliasFact.file, aliasFact.span.start)

namespace Program

/-- All handles that a program mentions. -/
def handles (program : Program) : List Handle :=
  program.symbols.flatMap (fun symbol => symbol.handle :: symbol.parent.toList) ++
    program.references.map Reference.target ++
    program.aliases.flatMap fun aliasFact => aliasFact.target :: aliasFact.container.toList

/-- All files that a program mentions. -/
def files (program : Program) : List String :=
  program.documents.map Document.path ++
    program.symbols.flatMap (fun symbol => symbol.declarations.map Declaration.file) ++
    program.references.map Reference.file ++ program.aliases.map Alias.file

/-- All places at which a program has something. -/
def places (program : Program) : List Place :=
  program.symbols.flatMap (fun symbol => symbol.declarations.map Declaration.place) ++
    program.references.map Reference.place ++ program.aliases.map Alias.place

end Program

/-- Whether `other` is `program` told again. -/
structure Retells (T : Translation) (program other : Program) : Prop where
  documents : (program.documents.map T.document).Perm other.documents
  symbols : ∃ symbols, List.Forall₂ T.Matches program.symbols symbols ∧ symbols.Perm other.symbols
  references : AgreeBy Reference.place (program.references.map T.reference) other.references
  aliases : AgreeBy Alias.start (program.aliases.map T.aliasFact) other.aliases
  handle_inj : ∀ a ∈ program.handles, ∀ b ∈ program.handles, T.handle a = T.handle b → a = b
  compare_file : ∀ a ∈ program.files, ∀ b ∈ program.files,
    compare (T.file a) (T.file b) = compare a b
  compare_span : ∀ a ∈ program.places, ∀ b ∈ program.places, a.file = b.file →
    compare (T.place a).span (T.place b).span = compare a.span b.span
  compare_handle : ∀ a ∈ program.symbols, ∀ b ∈ program.symbols, ∀ place,
    a.leastPlace? = some place → b.leastPlace? = some place →
      compare (T.handle a.handle) (T.handle b.handle) = compare a.handle b.handle

namespace Program

variable {program : Program} {symbol : Symbol}

theorem handle_mem_handles (h : symbol ∈ program.symbols) : symbol.handle ∈ program.handles :=
  List.mem_append_left _ (List.mem_append_left _
    (List.mem_flatMap.mpr ⟨symbol, h, List.mem_cons_self⟩))

theorem parent_mem_handles (h : symbol ∈ program.symbols) {parent : Handle}
    (hparent : symbol.parent = some parent) : parent ∈ program.handles :=
  List.mem_append_left _ (List.mem_append_left _
    (List.mem_flatMap.mpr ⟨symbol, h, by simp [hparent]⟩))

theorem path_mem_files {document : Document} (h : document ∈ program.documents) :
    document.path ∈ program.files := by
  simp only [files, List.mem_append, List.mem_map]
  exact Or.inl (Or.inl (Or.inl ⟨document, h, rfl⟩))

theorem file_mem_files (h : symbol ∈ program.symbols) {declaration : Declaration}
    (hmem : declaration ∈ symbol.declarations) : declaration.file ∈ program.files := by
  simp only [files, List.mem_append, List.mem_flatMap, List.mem_map]
  exact Or.inl (Or.inl (Or.inr ⟨symbol, h, declaration, hmem, rfl⟩))

theorem place_mem_places (h : symbol ∈ program.symbols) {declaration : Declaration}
    (hmem : declaration ∈ symbol.declarations) : declaration.place ∈ program.places := by
  simp only [places, List.mem_append, List.mem_flatMap, List.mem_map]
  exact Or.inl (Or.inl ⟨symbol, h, declaration, hmem, rfl⟩)

theorem place_mem_places_of_reference {reference : Reference}
    (h : reference ∈ program.references) : reference.place ∈ program.places := by
  simp only [places, List.mem_append, List.mem_map]
  exact Or.inl (Or.inr ⟨reference, h, rfl⟩)

theorem place_mem_places_of_alias {aliasFact : Alias} (h : aliasFact ∈ program.aliases) :
    aliasFact.place ∈ program.places :=
  List.mem_append_right _ (List.mem_map_of_mem h)

theorem file_mem_files_of_place {place : Place} (h : place ∈ program.places) :
    place.file ∈ program.files := by
  simp only [places, List.mem_append, List.mem_flatMap, List.mem_map] at h
  simp only [files, List.mem_append, List.mem_flatMap, List.mem_map]
  rcases h with (⟨symbol, hsymbol, declaration, hdeclaration, rfl⟩ | ⟨reference, hreference, rfl⟩) |
    ⟨aliasFact, halias, rfl⟩
  · exact Or.inl (Or.inl (Or.inr ⟨symbol, hsymbol, declaration, hdeclaration, rfl⟩))
  · exact Or.inl (Or.inr ⟨reference, hreference, rfl⟩)
  · exact Or.inr ⟨aliasFact, halias, rfl⟩

/-- The least place of a symbol is one of the program's places. -/
theorem Consistent.exists_leastPlace (h : program.Consistent) (hsymbol : symbol ∈ program.symbols) :
    ∃ place, symbol.leastPlace? = some place ∧ place ∈ program.places := by
  cases hleast : symbol.leastPlace? with
  | none => exact absurd (Symbol.leastPlace?_eq_none_iff.mp hleast) (h.declared symbol hsymbol)
  | some place =>
    obtain ⟨hmem, -⟩ := Symbol.leastPlace?_eq_some_iff.mp hleast
    obtain ⟨declaration, hdeclaration, rfl⟩ := List.mem_map.mp hmem
    exact ⟨_, rfl, place_mem_places hsymbol hdeclaration⟩

end Program

namespace Retells

variable {T : Translation} {program other : Program} (h : Retells T program other)

include h

theorem exists_matches {symbol : Symbol} (hmem : symbol ∈ program.symbols) :
    ∃ told ∈ other.symbols, T.Matches symbol told := by
  obtain ⟨symbols, hmatches, hperm⟩ := h.symbols
  obtain ⟨told, htold, hmatch⟩ := exists_mem_right_of_forall₂ hmatches hmem
  exact ⟨told, hperm.mem_iff.mp htold, hmatch⟩

theorem exists_matched {told : Symbol} (hmem : told ∈ other.symbols) :
    ∃ symbol ∈ program.symbols, T.Matches symbol told := by
  obtain ⟨symbols, hmatches, hperm⟩ := h.symbols
  exact exists_mem_left_of_forall₂ hmatches (hperm.mem_iff.mpr hmem)

/-! ### Files and places -/

theorem file_inj {a b : String} (ha : a ∈ program.files) (hb : b ∈ program.files)
    (heq : T.file a = T.file b) : a = b := by
  rw [← Std.compare_eq_iff_eq, ← h.compare_file a ha b hb, heq]
  exact Std.ReflOrd.compare_self

theorem compare_place {a b : Place} (ha : a ∈ program.places) (hb : b ∈ program.places) :
    compare (T.place a) (T.place b) = compare a b := by
  change (compare (T.file a.file) (T.file b.file)).then
      (compare (T.place a).span (T.place b).span) =
    (compare a.file b.file).then (compare a.span b.span)
  rw [h.compare_file a.file (Program.file_mem_files_of_place ha) b.file
    (Program.file_mem_files_of_place hb)]
  cases hfile : compare a.file b.file with
  | lt => rfl
  | gt => rfl
  | eq => exact h.compare_span a ha b hb (Std.compare_eq_iff_eq.mp hfile)

theorem place_inj {a b : Place} (ha : a ∈ program.places) (hb : b ∈ program.places)
    (heq : T.place a = T.place b) : a = b := by
  rw [← Std.compare_eq_iff_eq, ← h.compare_place ha hb, heq]
  exact Std.ReflOrd.compare_self

/-- A property of documents that their paths do not decide holds of a file in both programs. -/
theorem exists_document_iff {P : Document → Prop}
    (hP : ∀ document, P (T.document document) ↔ P document) {file : String}
    (hfile : file ∈ program.files) :
    (∃ document ∈ other.documents, P document ∧ document.path = T.file file) ↔
      ∃ document ∈ program.documents, P document ∧ document.path = file := by
  constructor
  · rintro ⟨told, htold, hprop, hpath⟩
    obtain ⟨document, hdocument, rfl⟩ := List.mem_map.mp (h.documents.mem_iff.mpr htold)
    exact ⟨document, hdocument, (hP document).mp hprop,
      h.file_inj (Program.path_mem_files hdocument) hfile hpath⟩
  · rintro ⟨document, hdocument, hprop, rfl⟩
    exact ⟨T.document document, h.documents.mem_iff.mp (List.mem_map_of_mem hdocument),
      (hP document).mpr hprop, rfl⟩

theorem hasDocument_file {file : String} (hfile : file ∈ program.files) :
    other.hasDocument (T.file file) = program.hasDocument file := by
  have hiff := h.exists_document_iff (P := fun _ => True) (fun _ => Iff.rfl) hfile
  simp only [true_and] at hiff
  rw [Bool.eq_iff_iff, Program.hasDocument_iff, Program.hasDocument_iff, hiff]

theorem isModuleFile_file {file : String} (hfile : file ∈ program.files) :
    other.isModuleFile (T.file file) = program.isModuleFile file := by
  rw [Bool.eq_iff_iff, Program.isModuleFile_iff, Program.isModuleFile_iff]
  exact h.exists_document_iff (P := fun document => document.isModule = true) (fun _ => Iff.rfl)
    hfile

end Retells

/-! ### Symbols -/

namespace Translation.Matches

variable {T : Translation} {symbol told : Symbol} (h : T.Matches symbol told)

include h

theorem mem_declarations_iff {declaration : Declaration} :
    declaration ∈ told.declarations ↔ ∃ d ∈ symbol.declarations, T.declaration d = declaration := by
  rw [← h.declarations.mem_iff, List.mem_map]

theorem exported_eq : told.exported = symbol.exported := by
  rw [Bool.eq_iff_iff]
  simp only [Symbol.exported, List.any_eq_true, h.mem_declarations_iff]
  constructor
  · rintro ⟨_, ⟨d, hd, rfl⟩, hexported⟩
    exact ⟨d, hd, hexported⟩
  · rintro ⟨d, hd, hexported⟩
    exact ⟨T.declaration d, ⟨d, hd, rfl⟩, hexported⟩

theorem declarations_eq_nil_iff : told.declarations = [] ↔ symbol.declarations = [] := by
  simp only [List.eq_nil_iff_forall_not_mem, h.mem_declarations_iff]
  constructor
  · intro hnone d hd
    exact hnone (T.declaration d) ⟨d, hd, rfl⟩
  · rintro hnone _ ⟨d, hd, -⟩
    exact hnone d hd

end Translation.Matches

namespace Retells

variable {T : Translation} {program other : Program} {symbol told : Symbol}
  (h : Retells T program other)

include h

theorem leastPlace?_matches (hsymbol : symbol ∈ program.symbols) (hmatch : T.Matches symbol told) :
    told.leastPlace? = symbol.leastPlace?.map T.place := by
  cases hleast : symbol.leastPlace? with
  | none =>
    rw [Symbol.leastPlace?_eq_none_iff, ← hmatch.declarations_eq_nil_iff] at hleast
    exact Symbol.leastPlace?_eq_none_iff.mpr hleast
  | some place =>
    obtain ⟨hmem, hle⟩ := Symbol.leastPlace?_eq_some_iff.mp hleast
    refine Symbol.leastPlace?_eq_some_iff.mpr ⟨?_, ?_⟩
    · obtain ⟨d, hd, rfl⟩ := List.mem_map.mp hmem
      exact List.mem_map.mpr ⟨T.declaration d, hmatch.mem_declarations_iff.mpr ⟨d, hd, rfl⟩, rfl⟩
    · intro place' hplace'
      obtain ⟨_, hd', rfl⟩ := List.mem_map.mp hplace'
      obtain ⟨d, hd, rfl⟩ := hmatch.mem_declarations_iff.mp hd'
      obtain ⟨d₀, hd₀, rfl⟩ := List.mem_map.mp hmem
      have hcompare := h.compare_place (a := d₀.place) (b := d.place)
        (Program.place_mem_places hsymbol hd₀) (Program.place_mem_places hsymbol hd)
      exact hcompare ▸ hle d.place (List.mem_map_of_mem hd)

theorem leastFile_matches (hsymbol : symbol ∈ program.symbols) (hmatch : T.Matches symbol told)
    (hdeclared : symbol.declarations ≠ []) :
    Program.leastFile told = T.file (Program.leastFile symbol) := by
  obtain ⟨hmem, hle⟩ := Program.leastFile_spec hdeclared
  obtain ⟨hmem', hle'⟩ := Program.leastFile_spec (mt hmatch.declarations_eq_nil_iff.mp hdeclared)
  obtain ⟨d, hd, hfile⟩ := List.mem_map.mp hmem
  obtain ⟨told', htold', hfile'⟩ := List.mem_map.mp hmem'
  obtain ⟨d', hd', rfl⟩ := hmatch.mem_declarations_iff.mp htold'
  refine le_antisymm ?_ ?_
  · refine hle' _ (List.mem_map.mpr ⟨T.declaration d, ?_, congrArg T.file hfile⟩)
    exact hmatch.mem_declarations_iff.mpr ⟨d, hd, rfl⟩
  · have hcompare := h.compare_file d.file (Program.file_mem_files hsymbol hd) d'.file
      (Program.file_mem_files hsymbol hd')
    have hle'' : d.file ≤ d'.file := hfile ▸ hle d'.file (List.mem_map_of_mem hd')
    rw [← compare_le_iff_le, ← hcompare, compare_le_iff_le] at hle''
    rw [← hfile', ← hfile]
    exact hle''

/-! ### Handles -/

theorem isSome_symbol?_iff {handle : Handle} (hhandle : handle ∈ program.handles) :
    (other.symbol? (T.handle handle)).isSome ↔ (program.symbol? handle).isSome := by
  rw [Program.isSome_symbol?_iff, Program.isSome_symbol?_iff]
  constructor
  · rintro ⟨told, htold, hhandle'⟩
    obtain ⟨symbol, hsymbol, hmatch⟩ := h.exists_matched htold
    refine ⟨symbol, hsymbol, h.handle_inj _ (Program.handle_mem_handles hsymbol) _ hhandle ?_⟩
    rw [← hmatch.handle, hhandle']
  · rintro ⟨symbol, hsymbol, rfl⟩
    obtain ⟨told, htold, hmatch⟩ := h.exists_matches hsymbol
    exact ⟨told, htold, hmatch.handle⟩

/-- What holds of every symbol holds of every symbol told again. -/
theorem forall_symbols_iff {P Q : Symbol → Prop}
    (hPQ : ∀ symbol ∈ program.symbols, ∀ told, T.Matches symbol told → (Q told ↔ P symbol)) :
    (∀ told ∈ other.symbols, Q told) ↔ ∀ symbol ∈ program.symbols, P symbol := by
  constructor
  · intro hall symbol hsymbol
    obtain ⟨told, htold, hmatch⟩ := h.exists_matches hsymbol
    exact (hPQ symbol hsymbol told hmatch).mp (hall told htold)
  · intro hall told htold
    obtain ⟨symbol, hsymbol, hmatch⟩ := h.exists_matched htold
    exact (hPQ symbol hsymbol told hmatch).mpr (hall symbol hsymbol)

theorem nodup_handles_iff :
    (other.symbols.map Symbol.handle).Nodup ↔ (program.symbols.map Symbol.handle).Nodup := by
  obtain ⟨symbols, hmatches, hperm⟩ := h.symbols
  have hhandles : symbols.map Symbol.handle = (program.symbols.map Symbol.handle).map T.handle := by
    rw [List.map_map, ← List.forall₂_eq_eq_eq, List.forall₂_map_left_iff,
      List.forall₂_map_right_iff]
    exact hmatches.flip.imp fun _ _ hmatch => hmatch.handle
  rw [← (hperm.map Symbol.handle).nodup_iff, hhandles]
  refine ⟨List.Nodup.of_map _, fun hnodup => hnodup.map_on ?_⟩
  intro a ha b hb heq
  obtain ⟨symbol, hsymbol, rfl⟩ := List.mem_map.mp ha
  obtain ⟨symbol', hsymbol', rfl⟩ := List.mem_map.mp hb
  exact h.handle_inj _ (Program.handle_mem_handles hsymbol) _
    (Program.handle_mem_handles hsymbol') heq

/-- A program told again is consistent exactly if it was. -/
theorem consistent_iff : other.Consistent ↔ program.Consistent := by
  have hdeclared := h.forall_symbols_iff
    (P := fun symbol => symbol.declarations ≠ []) (Q := fun told => told.declarations ≠ [])
    fun symbol _ told hmatch => not_congr hmatch.declarations_eq_nil_iff
  have hdocuments := h.forall_symbols_iff
    (P := fun symbol => ∀ d ∈ symbol.declarations, program.hasDocument d.file = true)
    (Q := fun told => ∀ d ∈ told.declarations, other.hasDocument d.file = true) (by
      intro symbol hsymbol told hmatch
      simp only [hmatch.mem_declarations_iff, forall_exists_index, and_imp,
        forall_apply_eq_imp_iff₂]
      refine forall₂_congr fun d hd => ?_
      rw [← h.hasDocument_file (Program.file_mem_files hsymbol hd)]
      rfl)
  have hparents := h.forall_symbols_iff
    (P := fun symbol => ∀ parent, symbol.parent = some parent →
      (program.symbol? parent).isSome)
    (Q := fun told => ∀ parent, told.parent = some parent → (other.symbol? parent).isSome) (by
      intro symbol hsymbol told hmatch
      rw [hmatch.parent]
      cases hparent : symbol.parent with
      | none => simp
      | some parent =>
        have hiff := h.isSome_symbol?_iff (Program.parent_mem_handles hsymbol hparent)
        simpa using hiff)
  constructor
  · intro hother
    exact ⟨h.nodup_handles_iff.mp hother.handles_nodup, hdeclared.mp hother.declared,
      hdocuments.mp hother.inDocuments, hparents.mp hother.parents⟩
  · intro hprogram
    exact ⟨h.nodup_handles_iff.mpr hprogram.handles_nodup, hdeclared.mpr hprogram.declared,
      hdocuments.mpr hprogram.inDocuments, hparents.mpr hprogram.parents⟩

/-- Under a handle and its translation, both programs have matching symbols or none. -/
theorem symbol?_matches (hconsistent : program.Consistent) {handle : Handle}
    (hhandle : handle ∈ program.handles) :
    (program.symbol? handle = none ∧ other.symbol? (T.handle handle) = none) ∨
      ∃ symbol told, program.symbol? handle = some symbol ∧
        other.symbol? (T.handle handle) = some told ∧ T.Matches symbol told := by
  have hsome := h.isSome_symbol?_iff hhandle
  cases hsymbol : program.symbol? handle with
  | none =>
    refine Or.inl ⟨rfl, ?_⟩
    simpa [hsymbol] using hsome
  | some symbol =>
    obtain ⟨hmem, rfl⟩ := Program.mem_of_symbol? hsymbol
    obtain ⟨told, htold, hmatch⟩ := h.exists_matches hmem
    refine Or.inr ⟨symbol, told, rfl, ?_, hmatch⟩
    rw [← hmatch.handle]
    exact (h.consistent_iff.mpr hconsistent).symbol?_handle htold

end Retells

end MonikerIndex
