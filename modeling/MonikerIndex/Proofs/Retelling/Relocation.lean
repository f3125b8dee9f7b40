import MonikerIndex.Proofs.Emission.Run
import MonikerIndex.Proofs.ModuleNames
import MonikerIndex.Proofs.Retelling.Emission
import Mathlib.Order.Compare

/-!
# Checking a project out elsewhere

The directory of a project is in every path that is reported of it. Paths are compared, looked up,
cut down to module names and searched for extensions. None of this can tell one directory from
another, as long as every path continues the root with a separator: the order of such paths is that
of what follows (`compare_join`), what is below the root is found again whatever separators the root
ends with (`moduleName_join`), and no extension reaches back over the separator (`ofPath_join`).

Main statement: a project in another directory is indexed as before, but for the URIs of its
documents and the identifiers that are digests of places (`index_relocate`).
-/

namespace MonikerIndex

namespace Path

/-! ### Paths below a root -/

/-- The path below a root. -/
def join (root rel : String) : String :=
  root ++ "/" ++ rel

/-- The path with another root in place of its first characters. -/
def rebase (root root' path : String) : String :=
  String.ofList (root'.toList ++ path.toList.drop root.toList.length)

theorem toList_join (root rel : String) :
    (join root rel).toList = root.toList ++ '/' :: rel.toList := by
  simp [join, String.toList_append]

theorem rebase_join (root root' rel : String) :
    rebase root root' (join root rel) = join root' rel := by
  rw [← String.toList_inj, rebase, String.toList_ofList, toList_join, toList_join, List.drop_left]

theorem compare_join (root a b : String) :
    compare (join root a) (join root b) = compare a b := by
  have hmono : StrictMono (join root) := by
    intro a b hlt
    rw [String.lt_iff_toList_lt] at hlt ⊢
    rw [toList_join, toList_join]
    exact List.append_left_lt (List.cons_lt_cons_iff.mpr (Or.inr ⟨rfl, hlt⟩))
  rw [← cmp_eq_compare, ← cmp_eq_compare]
  exact hmono.cmp_map_eq a b

/-! ### Module names -/

theorem relative_append (root rel : List Char) :
    relative root (root ++ '/' :: rel) = rel.dropWhile (· == '/') := by
  obtain ⟨separators, hroot, hseparators, -⟩ : WithoutEnd root (trimEnd root) :=
    withoutEnd_iff.mpr rfl
  obtain ⟨front, hrel, hfront, hhead⟩ : WithoutFront rel (rel.dropWhile (· == '/')) :=
    withoutFront_iff.mpr rfl
  have hpath : root ++ '/' :: rel = trimEnd root ++ (separators ++ '/' :: rel) := by
    rw [← List.append_assoc, ← hroot]
  rw [eq_comm, ← relativeTo_iff, hpath]
  refine ⟨trimEnd root, separators ++ '/' :: rel, withoutEnd_iff.mpr rfl,
    ⟨separators ++ '/' :: front, ?_, ?_, hhead⟩, ?_⟩
  · rw [List.append_assoc, List.cons_append, ← hrel]
  · simp only [List.mem_append, List.mem_cons]
    rintro c (hc | rfl | hc)
    · exact hseparators c hc
    · rfl
    · exact hfront c hc
  · -- what follows the trimmed root starts with a separator, be it the last one of the root
    have hslash : ['/'] <+: separators ++ '/' :: rel := by
      cases separators with
      | nil => exact List.prefix_append ['/'] rel
      | cons c separators =>
        rw [hseparators c List.mem_cons_self]
        exact List.prefix_append ['/'] _
    rw [if_pos (Or.inr ((List.prefix_append_right_inj _).mpr hslash))]

theorem moduleName_join (root rel : String) :
    moduleName root (join root rel) =
      String.ofList (stem ((slashes rel.toList).dropWhile (· == '/'))) := by
  have hslashes : slashes (join root rel).toList =
      slashes root.toList ++ '/' :: slashes rel.toList := by
    rw [toList_join, slashes, List.map_append, List.map_cons]
    rfl
  rw [moduleName, hslashes, relative_append]

end Path

/-! ### Kinds of documents -/

theorem DocumentKind.ofPath_join (root rel : String) :
    ofPath (Path.join root rel) = ofPath rel := by
  have hlower : Text.asciiLower (Path.join root rel).toList =
      Text.asciiLower root.toList ++ '/' :: Text.asciiLower rel.toList := by
    rw [Path.toList_join, Text.asciiLower, List.map_append, List.map_cons]
    rfl
  have hseparator : ∀ suffix ∈ declarationExtensions, '/' ∉ suffix := by decide
  have hany : declarationExtensions.any
      (·.isSuffixOf (Text.asciiLower (Path.join root rel).toList)) =
        declarationExtensions.any (·.isSuffixOf (Text.asciiLower rel.toList)) := by
    rw [hlower, Bool.eq_iff_iff, List.any_eq_true, List.any_eq_true]
    refine exists_congr fun suffix => and_congr_right fun hsuffix => ?_
    rw [List.isSuffixOf_iff_suffix, List.isSuffixOf_iff_suffix,
      suffix_append_cons_iff (hseparator suffix hsuffix)]
  rw [ofPath, ofPath, hany]

/-! ### Moved programs -/

/-- The program with another root, there and at the front of every path. -/
def Program.relocate (root : String) (program : Program) : Program where
  root := root
  documents := program.documents.map fun document =>
    { document with path := Path.rebase program.root root document.path }
  symbols := program.symbols.map fun symbol =>
    { symbol with
      declarations := symbol.declarations.map fun declaration =>
        { declaration with file := Path.rebase program.root root declaration.file } }
  references := program.references.map fun reference =>
    { reference with file := Path.rebase program.root root reference.file }
  aliases := program.aliases.map fun aliasFact =>
    { aliasFact with file := Path.rebase program.root root aliasFact.file }

namespace Translation

/-- The translation that changes the front of paths only. -/
def ofRoot (root root' : String) : Translation where
  handle := id
  file := Path.rebase root root'
  span := fun _ => id

theorem ofRoot_declaration (root root' : String) :
    (ofRoot root root').declaration = fun declaration =>
      { declaration with file := Path.rebase root root' declaration.file } := by
  funext declaration
  simp [Translation.declaration, ofRoot]

theorem ofRoot_aliasFact (root root' : String) :
    (ofRoot root root').aliasFact = fun aliasFact =>
      { aliasFact with file := Path.rebase root root' aliasFact.file } := by
  funext aliasFact
  simp [Translation.aliasFact, ofRoot]

end Translation

namespace Program

variable {program : Program} (root : String)

/-- Whether all paths of a program are below its root. -/
def BelowRoot (program : Program) : Prop :=
  ∀ file ∈ program.files, ∃ rel, file = Path.join program.root rel

theorem retells_relocate (h : program.BelowRoot) :
    Retells (.ofRoot program.root root) program (program.relocate root) where
  documents := List.Perm.refl _
  symbols := by
    refine ⟨_, ?_, List.Perm.refl _⟩
    rw [relocate, List.forall₂_map_right_iff, List.forall₂_same]
    intro symbol _
    refine ⟨rfl, rfl, rfl, ?_, rfl, rfl, ?_⟩
    · exact (congrFun Option.map_id symbol.parent).symm
    · rw [Translation.ofRoot_declaration]
      exact AgreeBy.refl _ _
  references := AgreeBy.refl _ _
  aliases := by
    rw [Translation.ofRoot_aliasFact]
    exact AgreeBy.refl _ _
  handle_inj := fun _ _ _ _ heq => heq
  compare_file := by
    intro a ha b hb
    obtain ⟨rel, rfl⟩ := h a ha
    obtain ⟨rel', rfl⟩ := h b hb
    simp only [Translation.ofRoot, Path.rebase_join, Path.compare_join]
  compare_span := fun _ _ _ _ _ => rfl
  compare_handle := fun _ _ _ _ _ _ _ => rfl

theorem keeps_relocate (h : program.BelowRoot) :
    (Translation.ofRoot program.root root).Keeps program (program.relocate root) where
  start := fun _ _ _ _ _ => rfl
  stop := fun _ _ _ _ _ => rfl
  kind := by
    intro document hdocument
    obtain ⟨rel, hpath⟩ := h _ (path_mem_files hdocument)
    simp only [Document.actualKind, Translation.document, Translation.ofRoot, hpath,
      Path.rebase_join, DocumentKind.ofPath_join]
  moduleName := by
    intro file hfile
    obtain ⟨rel, rfl⟩ := h file hfile
    simp only [relocate, Translation.ofRoot, Path.rebase_join, Path.moduleName_join]

end Program

/-- Whether two elements are the same but for what tells where the project is: the URI of a document
    and the identifier of a moniker that is unique in its document. -/
inductive Element.SameElsewhere : Element → Element → Prop where
  | same (element : Element) : SameElsewhere element element
  | document (id : Nat) (uri uri' : DocumentUri) (languageId : String) (kind : DocumentKind) :
      SameElsewhere ⟨id, .vertex (.document uri languageId kind)⟩
        ⟨id, .vertex (.document uri' languageId kind)⟩
  | moniker (id : Nat) (scheme identifier identifier' : String) :
      SameElsewhere ⟨id, .vertex (.moniker ((Identity.internal identifier).under scheme))⟩
        ⟨id, .vertex (.moniker ((Identity.internal identifier').under scheme))⟩

theorem Element.sameElsewhere_of_retold {root root' : String} {S : String → String → Prop}
    {element told : Element} (h : Element.Retold (.ofRoot root root') S element told) :
    SameElsewhere element told := by
  obtain ⟨id, payload, payload', rfl, rfl, hpayload⟩ := h.exists_payloads
  cases hpayload with
  | document path languageId kind => exact .document _ _ _ _ _
  | range file span tag =>
    simp only [Translation.ofRoot, id_eq, Option.map_id]
    exact .same _
  | resultSet => exact .same _
  | moniker hidentity scheme =>
    cases hidentity with
    | exported identifier => exact .same _
    | internal h => exact .moniker _ _ _ _
  | edge connection => exact .same _

/-- Where a project is does not matter: with another root, a run succeeds exactly if it did before,
    and gives the same elements under the same numbers, but for the URIs of documents and the
    identifiers of monikers that are unique in their documents. -/
theorem Program.index_relocate {program : Program} (h : program.BelowRoot)
    (root scheme languageId : String) :
    Alike (fun index moved =>
        List.Forall₂ Element.SameElsewhere index.graph.elements.toList
          moved.graph.elements.toList ∧ moved.aliasStats = index.aliasStats)
      (program.index { scheme := scheme, languageId := languageId })
      ((program.relocate root).index { scheme := scheme, languageId := languageId }) := by
  have hrun := (retells_relocate root h).index_retold (keeps_relocate root h)
    { scheme := scheme, languageId := languageId } apartFromPaths_of_colon
    fun table record => ⟨colon_notMem_digest _, colon_notMem_digest _⟩
  refine hrun.imp ?_
  rintro index moved ⟨hgraph, hstats⟩
  exact ⟨hgraph.imp fun _ _ => Element.sameElsewhere_of_retold, hstats⟩

/-- The shop in a directory that is written with the other separator, and with one at its end. Only
    the constant that is not exported gets another name. -/
theorem Program.index_relocate_shop : shop.BelowRoot ∧
    ∃ index moved, shop.index {} = .ok index ∧
      (shop.relocate "C:\\work\\").index {} = .ok moved ∧
      index.graph.names = shopNames "Rpu7jjQ+Qs39IuafeoDCAQ==" ∧
      moved.graph.names = shopNames "zDwRjFyIGl3aPEiKpVjxdw==" ∧
      List.Forall₂ Element.SameElsewhere index.graph.elements.toList
        moved.graph.elements.toList := by
  have hbelow : shop.BelowRoot := by
    have hall : ∀ file ∈ shop.files,
        file = Path.join "/p" (String.ofList (file.toList.drop 3)) := by decide +kernel
    exact fun file hfile => ⟨_, hall file hfile⟩
  have hmoved : ((shop.relocate "C:\\work\\").index {}).toOption.map (·.graph.names) =
      some (shopNames "zDwRjFyIGl3aPEiKpVjxdw==") := by
    decide +kernel
  obtain ⟨index, hindex, hnames⟩ := exists_index_shop
  obtain ⟨moved, hmoved, hnames'⟩ := Option.map_eq_some_iff.mp hmoved
  rw [toOption_eq_some_iff] at hmoved
  have hrun := index_relocate hbelow "C:\\work\\" "tsc" "typescript"
  rw [hindex, hmoved] at hrun
  cases hrun with
  | ok h => exact ⟨hbelow, index, moved, hindex, hmoved, hnames, hnames', h.1⟩

end MonikerIndex
