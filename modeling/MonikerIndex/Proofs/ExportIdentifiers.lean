import MonikerIndex.Proofs.Identities
import Mathlib.Data.List.Induction

/-!
# Identifiers of export paths

The identifier of an export path is the text of its base, a colon, and the segments with dots
between them. Nothing is escaped there, and a base may hold colons and dots of its own, as the path
of a file or a module name like `node:path` does. So the identifier is read from its end: as long as
no segment holds a colon, the last colon ends the base (`identifier_eq_iff_dotted`), and as long as
none holds a dot, the dots behind that colon end the segments (`dotted_inj`). A segment must not be
empty either, since a single empty segment is written like no segment at all.

Main statement: `identifier_eq_iff`.
-/

namespace MonikerIndex

/-! ### Names with dots between them -/

theorem dotted_eq_intercalate (names : List String) :
    dotted names = ['.'].intercalate (names.map String.toList) := by
  fun_induction dotted names with
  | case1 => rfl
  | case2 name => simp
  | case3 name names hne ih =>
    obtain ⟨second, rest, rfl⟩ := List.exists_cons_of_ne_nil hne
    rw [ih]
    simp only [List.map_cons, List.intercalate_cons_cons, List.append_assoc, List.singleton_append]

theorem splitOn_dotted {names : List String} (hne : names ≠ [])
    (hdot : ∀ name ∈ names, '.' ∉ name.toList) :
    (dotted names).splitOn '.' = names.map String.toList := by
  rw [dotted_eq_intercalate]
  apply List.splitOn_intercalate
  · intro chars hchars
    obtain ⟨name, hname, rfl⟩ := List.mem_map.mp hchars
    exact hdot name hname
  · simpa using hne

theorem dotted_eq_nil_iff {names : List String} (hnames : ∀ name ∈ names, name ≠ "") :
    dotted names = [] ↔ names = [] := by
  fun_induction dotted names with
  | case1 => simp
  | case2 name => simpa using hnames name List.mem_cons_self
  | case3 name names hne ih => simp

theorem notMem_dotted {c : Char} (hc : c ≠ '.') {names : List String}
    (h : ∀ name ∈ names, c ∉ name.toList) : c ∉ dotted names := by
  fun_induction dotted names with
  | case1 => exact List.not_mem_nil
  | case2 name => exact h name List.mem_cons_self
  | case3 name names hne ih =>
    rw [List.forall_mem_cons] at h
    simp [h.1, hc, ih h.2]

/-- Names are read back from the text with dots between them. Where there are none, splitting would
    give one empty name, so this case is told apart by the text being empty. -/
theorem dotted_inj {names others : List String}
    (hnames : ∀ name ∈ names, name ≠ "" ∧ '.' ∉ name.toList)
    (hothers : ∀ name ∈ others, name ≠ "" ∧ '.' ∉ name.toList) :
    dotted names = dotted others ↔ names = others := by
  have hnil := dotted_eq_nil_iff fun name hname => (hnames name hname).1
  have hnil' := dotted_eq_nil_iff fun name hname => (hothers name hname).1
  constructor
  · intro h
    by_cases hempty : names = []
    · rw [hempty, hnil'.mp (h ▸ hnil.mpr hempty)]
    · have hempty' : others ≠ [] := by
        intro hothers
        exact hempty (hnil.mp (h ▸ hnil'.mpr hothers))
      have hsplit : names.map String.toList = others.map String.toList := by
        rw [← splitOn_dotted hempty fun name hname => (hnames name hname).2, h,
          splitOn_dotted hempty' fun name hname => (hothers name hname).2]
      exact List.map_injective_iff.mpr (fun _ _ => String.toList_inj.mp) hsplit
  · exact congrArg dotted

namespace ExportPath

variable {path other : ExportPath}

/-! ### Clear paths -/

/-- A segment that shows where it starts and ends in an identifier: it is not empty and holds none
    of the separators. -/
def ClearSegment (segment : String) : Prop :=
  segment ≠ "" ∧ '.' ∉ segment.toList ∧ ':' ∉ segment.toList

instance (segment : String) : Decidable (ClearSegment segment) :=
  inferInstanceAs (Decidable (_ ∧ _))

/-- A path that is built up from any base by clear segments. -/
inductive Clear : ExportPath → Prop where
  | bare (base : PathBase) : Clear (.bare base)
  | child {path : ExportPath} {segment : String} (hpath : Clear path)
      (hsegment : ClearSegment segment) : Clear (path.child segment)

theorem clear_iff : path.Clear ↔ ∀ segment ∈ path.segments, ClearSegment segment := by
  constructor
  · intro h
    induction h with
    | bare base => exact List.forall_mem_nil _
    | child hpath hsegment ih =>
      rw [child, List.forall_mem_append, List.forall_mem_singleton]
      exact ⟨ih, hsegment⟩
  · intro h
    obtain ⟨base, segments⟩ := path
    induction segments using List.reverseRecOn with
    | nil => exact .bare base
    | append_singleton segments segment ih =>
      rw [List.forall_mem_append, List.forall_mem_singleton] at h
      exact .child (ih h.1) h.2

/-! ### Reading an identifier from its end -/

theorem Clear.dot_notMem (h : path.Clear) :
    ∀ segment ∈ path.segments, segment ≠ "" ∧ '.' ∉ segment.toList := by
  intro segment hsegment
  obtain ⟨hne, hdot, -⟩ := clear_iff.mp h segment hsegment
  exact ⟨hne, hdot⟩

theorem Clear.colon_notMem_dotted (h : path.Clear) : ':' ∉ dotted path.segments := by
  apply notMem_dotted (by decide)
  intro segment hsegment
  exact (clear_iff.mp h segment hsegment).2.2

/-- The last colon ends the base. -/
theorem identifier_eq_iff_dotted (hpath : ':' ∉ dotted path.segments)
    (hother : ':' ∉ dotted other.segments) :
    path.identifier = other.identifier ↔
      path.base.text = other.base.text ∧ dotted path.segments = dotted other.segments := by
  rw [identifier, identifier, String.ofList_inj, append_separator_inj hpath hother,
    String.toList_inj]

/-- Clear paths have one identifier exactly if their bases have one text and their segments are the
    same. Whether that text names a module block or a module file is not told. -/
theorem identifier_eq_iff (hpath : path.Clear) (hother : other.Clear) :
    path.identifier = other.identifier ↔
      path.base.text = other.base.text ∧ path.segments = other.segments := by
  rw [identifier_eq_iff_dotted hpath.colon_notMem_dotted hother.colon_notMem_dotted,
    dotted_inj hpath.dot_notMem hother.dot_notMem]

/-- A base with a colon of its own: the same segments are found behind it whatever kind of base it
    is, and the base alone is not mistaken for a segment under a shorter base. -/
theorem identifier_eq_iff_node :
    ((bare (.ambient "node:fs")).child "promises").Clear ∧
      ((bare (.moduleFile "node:fs")).child "promises").Clear ∧
      ((bare (.ambient "node:fs")).child "promises").identifier =
        ((bare (.moduleFile "node:fs")).child "promises").identifier ∧
      (bare (.ambient "node:fs")).Clear ∧ ((bare (.ambient "node")).child "fs").Clear ∧
      (bare (.ambient "node:fs")).identifier ≠
        ((bare (.ambient "node")).child "fs").identifier := by
  have hpromises : ClearSegment "promises" := by decide +kernel
  have hfs : ClearSegment "fs" := by decide +kernel
  refine ⟨.child (.bare _) hpromises, .child (.bare _) hpromises, ?_, .bare _,
    .child (.bare _) hfs, ?_⟩
  · exact (identifier_eq_iff (.child (.bare _) hpromises) (.child (.bare _) hpromises)).mpr
      ⟨rfl, rfl⟩
  · intro heq
    have hsame := (identifier_eq_iff (.bare _) (.child (.bare _) hfs)).mp heq
    exact absurd hsame.2 (by decide)

-- each condition on the segments is needed
example : (ExportPath.mk .global ["a.b"]).identifier =
      (ExportPath.mk .global ["a", "b"]).identifier ∧
    (ExportPath.mk (.ambient "a") ["b:c"]).identifier =
      (ExportPath.mk (.ambient "a:b") ["c"]).identifier ∧
    (ExportPath.mk .global []).identifier = (ExportPath.mk .global [""]).identifier := by
  decide +kernel

end ExportPath

end MonikerIndex
