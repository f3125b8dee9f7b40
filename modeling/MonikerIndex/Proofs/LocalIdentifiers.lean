import MonikerIndex.Proofs.Forest
import MonikerIndex.Proofs.Identities
import Mathlib.Data.Set.Function

/-!
# Identifiers of internal records

The identifier of a record that is not public is the digest of a text in which file, names, line and
character stand between bars and a colon. Nothing is escaped there, so a file or a name may hold
bars, colons and digits as well. The text is read from its end, where the position has neither a bar
nor a second colon (`Naming.localText_eq_iff`); and once the file is known, so are the names, dots
included.

Main statement: `merge_localIdentifier_eq_iff`.
-/

namespace MonikerIndex

/-! ### Scope paths -/

theorem dotted_concat {names : List String} (h : names ≠ []) (name : String) :
    dotted (names ++ [name]) = dotted names ++ '.' :: name.toList := by
  induction names with
  | nil => exact absurd rfl h
  | cons first names ih =>
    cases names with
    | nil => rfl
    | cons second names =>
      have hrest := ih (List.cons_ne_nil _ _)
      simp only [List.cons_append, dotted] at hrest ⊢
      rw [hrest, List.append_assoc, List.cons_append]

namespace SymbolTable

variable {table : SymbolTable} {record other : Record}

/-- The scope path of a record: its name, behind a dot and the scope path of what it lies in. -/
inductive ScopePath (table : SymbolTable) : Record → String → Prop where
  | top {record : Record} (hparent : record.parent = none) :
      ScopePath table record (record.name.getD "<anonymous>")
  | inner {record container : Record} {parent : Nat} {path : String}
      (hparent : record.parent = some parent) (hcontainer : table.record? parent = some container)
      (hpath : ScopePath table container path) :
      ScopePath table record (path ++ "." ++ record.name.getD "<anonymous>")

/-- The names of the records on the way up, from the outside in, with dots between them. -/
def scopePath (table : SymbolTable) (record : Record) : String :=
  String.ofList
    (dotted ((table.chain record.id).reverse.map fun outer => outer.name.getD "<anonymous>"))

theorem Forest.scopePath_scopePath (h : table.Forest)
    (hids : ∀ id record, table.record? id = some record → record.id = id) :
    ∀ id record, table.record? id = some record →
      table.ScopePath record (table.scopePath record) := by
  refine h.induct ?_ ?_
  · intro id record hrecord hparent
    have hpath : table.scopePath record = record.name.getD "<anonymous>" := by
      rw [scopePath, hids id record hrecord, chain_of_top hrecord hparent]
      simp [dotted]
    rw [hpath]
    exact .top hparent
  · intro id record parent container hrecord hparent hcontainer ih
    have hpath : table.scopePath record =
        table.scopePath container ++ "." ++ record.name.getD "<anonymous>" := by
      have hne : (table.chain parent).reverse.map (fun outer => outer.name.getD "<anonymous>") ≠
          [] := by
        simpa using chain_ne_nil hcontainer
      rw [scopePath, scopePath, hids id record hrecord, hids parent container hcontainer,
        h.chain_of_parent hrecord hparent, List.reverse_cons, List.map_append, List.map_singleton,
        dotted_concat hne]
      simp [← String.toList_inj]
    rw [hpath]
    exact .inner hparent hcontainer ih

/-- The texts that stand for the records of a table. -/
def localTexts (table : SymbolTable) : Set String :=
  {text | ∃ record ∈ table.records, Naming.localText table record = text}

/-- Where the file is the same, the names decide. -/
theorem scopeChars_eq_iff {site site' : Site} (hsite : record.canonical? = some site)
    (hsite' : other.canonical? = some site') (hfile : site.file = site'.file) :
    table.scopeChars record = table.scopeChars other ↔
      table.scopePath record = table.scopePath other := by
  rw [scopeChars, scopeChars, hsite, hsite', Option.getD_some, Option.getD_some, hfile,
    List.append_cancel_left_eq, List.cons.injEq, scopePath, scopePath, String.ofList_inj]
  exact and_iff_right rfl

end SymbolTable

/-! ### Merged tables -/

namespace Program

variable {program : Program} {table : SymbolTable}

theorem Grounded.exists_canonical (h : program.Grounded table) {record : Record}
    (hrecord : record ∈ table.records) : ∃ site, record.canonical? = some site :=
  Option.isSome_iff_exists.mp (List.isSome_head?.mpr (h.sited record hrecord))

/-- Records of one file have the same internal identifier exactly if they start at the same position
    and have the same scope path. The digest may not mix up texts of the table, which an injective
    one does not. -/
theorem merge_localIdentifier_eq_iff {naming : Naming} (h : program.merge = .ok table)
    (hdigest : Set.InjOn naming.digest table.localTexts) {record other : Record}
    (hrecord : record ∈ table.records) (hother : other ∈ table.records) :
    table.ScopePath record (table.scopePath record) ∧
      table.ScopePath other (table.scopePath other) ∧
      ∃ site site', record.canonical? = some site ∧ other.canonical? = some site' ∧
        (site.file = site'.file →
          (naming.localIdentifier table record = naming.localIdentifier table other ↔
            (site.span.start.line = site'.span.start.line ∧
              site.span.start.character = site'.span.start.character) ∧
            table.scopePath record = table.scopePath other)) := by
  have hgrounded := merge_grounded h
  have hpath := (merge_forest h).scopePath_scopePath hgrounded.id_eq
  obtain ⟨site, hsite⟩ := hgrounded.exists_canonical hrecord
  obtain ⟨site', hsite'⟩ := hgrounded.exists_canonical hother
  refine ⟨hpath _ _ (hgrounded.record?_id hrecord), hpath _ _ (hgrounded.record?_id hother),
    site, site', hsite, hsite', fun hfile => ?_⟩
  have htexts : naming.localIdentifier table record = naming.localIdentifier table other ↔
      Naming.localText table record = Naming.localText table other :=
    hdigest.eq_iff ⟨record, hrecord, rfl⟩ ⟨other, hother, rfl⟩
  have hstart : record.start = other.start ↔ site.span.start = site'.span.start := by
    rw [Record.start, Record.start, hsite, hsite', Option.getD_some, Option.getD_some]
  rw [htexts, Naming.localText_eq_iff, SymbolTable.scopeChars_eq_iff hsite hsite' hfile, hstart,
    Position.mk.injEq, and_comm]

/-- A function with bars, colons and digits in its name and in that of its file. Two of its
    variables have one name, and the first of them is reported once more. -/
def delimited : Program where
  root := "/p"
  documents := [.moduleFile "/p/a|1:6.ts"]
  symbols := [
    { handle := 1, name := some "f|1:6", kind := .function
      declarations := [{ file := "/p/a|1:6.ts", span := .onLine 0 9 14 }] },
    { handle := 2, name := some "i", kind := .var, parent := some 1, scope := .confined
      declarations := [{ file := "/p/a|1:6.ts", span := .onLine 1 6 7 }] },
    { handle := 3, name := some "i", kind := .var, parent := some 1, scope := .confined
      declarations := [{ file := "/p/a|1:6.ts", span := .onLine 2 6 7 }] },
    { handle := 4, name := some "i", kind := .var, parent := some 1, scope := .confined
      declarations := [{ file := "/p/a|1:6.ts", span := .onLine 1 6 7 }] }]

/-- What is reported twice gets one identifier, and the other variable one of its own. -/
theorem merge_delimited_localIdentifiers : ∃ table first again second,
    delimited.merge = .ok table ∧ table.record? 1 = some first ∧ table.record? 2 = some again ∧
    table.record? 3 = some second ∧
    table.records.map (Naming.localText table) =
      ["/p/a|1:6.ts|f|1:6|0:9", "/p/a|1:6.ts|f|1:6.i|1:6", "/p/a|1:6.ts|f|1:6.i|1:6",
        "/p/a|1:6.ts|f|1:6.i|2:6"] ∧
    Set.InjOn digest table.localTexts ∧ table.ScopePath first "f|1:6.i" ∧
    Naming.localIdentifier ⟨"/p", digest⟩ table first =
      Naming.localIdentifier ⟨"/p", digest⟩ table again ∧
    Naming.localIdentifier ⟨"/p", digest⟩ table first ≠
      Naming.localIdentifier ⟨"/p", digest⟩ table second := by
  have hmerge : delimited.merge.toOption.any (fun table =>
      (table.record? 1).any fun first => (table.record? 2).any fun again =>
      (table.record? 3).any fun second =>
        table.records.map (Naming.localText table) =
          ["/p/a|1:6.ts|f|1:6|0:9", "/p/a|1:6.ts|f|1:6.i|1:6", "/p/a|1:6.ts|f|1:6.i|1:6",
            "/p/a|1:6.ts|f|1:6.i|2:6"] ∧
        [first, again, second].map (fun record => record.canonical?.map Site.place) =
          [some ⟨"/p/a|1:6.ts", .onLine 1 6 7⟩, some ⟨"/p/a|1:6.ts", .onLine 1 6 7⟩,
            some ⟨"/p/a|1:6.ts", .onLine 2 6 7⟩] ∧
        [first, again].map table.scopePath = ["f|1:6.i", "f|1:6.i"]) = true := by
    decide +kernel
  simp only [Option.any_eq_true, toOption_eq_some_iff, decide_eq_true_eq, List.map_cons,
    List.map_nil, List.cons.injEq, and_true, Option.map_eq_some_iff] at hmerge
  obtain ⟨table, hmerge, first, hfirst, again, hagain, second, hsecond, htexts,
    ⟨⟨site, hsite, hplace⟩, ⟨siteAgain, hsiteAgain, hplaceAgain⟩, siteSecond, hsiteSecond,
      hplaceSecond⟩, hpath, hpathAgain⟩ := hmerge
  have hdigest : Set.InjOn digest table.localTexts := by
    have hdigests : (["/p/a|1:6.ts|f|1:6|0:9", "/p/a|1:6.ts|f|1:6.i|1:6",
        "/p/a|1:6.ts|f|1:6.i|2:6"].map digest).Nodup := by
      decide +kernel
    have htext : ∀ text ∈ table.localTexts, text ∈ ["/p/a|1:6.ts|f|1:6|0:9",
        "/p/a|1:6.ts|f|1:6.i|1:6", "/p/a|1:6.ts|f|1:6.i|2:6"] := by
      rintro text ⟨record, hrecord, rfl⟩
      have hmem := List.mem_map_of_mem (f := Naming.localText table) hrecord
      rw [htexts] at hmem
      simpa using hmem
    intro text hmem text' hmem'
    exact List.inj_on_of_nodup_map hdigests (htext text hmem) (htext text' hmem')
  obtain ⟨hscope, -, _, _, hfound, hfound', hsame⟩ :=
    @merge_localIdentifier_eq_iff _ _ ⟨"/p", digest⟩ hmerge hdigest _ _
      (List.mem_of_getElem? hfirst) (List.mem_of_getElem? hagain)
  rw [hsite] at hfound
  rw [hsiteAgain] at hfound'
  cases hfound
  cases hfound'
  obtain ⟨-, -, _, _, hfound, hfound', hother⟩ :=
    @merge_localIdentifier_eq_iff _ _ ⟨"/p", digest⟩ hmerge hdigest _ _
      (List.mem_of_getElem? hfirst) (List.mem_of_getElem? hsecond)
  rw [hsite] at hfound
  rw [hsiteSecond] at hfound'
  cases hfound
  cases hfound'
  simp only [Site.place, Place.mk.injEq] at hplace hplaceAgain hplaceSecond
  refine ⟨table, first, again, second, hmerge, hfirst, hagain, hsecond, htexts, hdigest,
    hpath ▸ hscope, ?_, ?_⟩
  · exact (hsame (hplace.1.trans hplaceAgain.1.symm)).mpr
      ⟨by rw [hplace.2, hplaceAgain.2]; exact ⟨rfl, rfl⟩, hpath.trans hpathAgain.symm⟩
  · intro heq
    have hline := ((hother (hplace.1.trans hplaceSecond.1.symm)).mp heq).1.1
    rw [hplace.2, hplaceSecond.2] at hline
    exact absurd hline (by decide)

end Program

end MonikerIndex
