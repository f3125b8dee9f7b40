import Mathlib.Data.List.Basic
import MonikerIndex.DocumentUri

/-!
# Document URIs read back

Reading a URI undoes the escapes in four passes. `decodeWith` does it in one pass for any table of
escapes, and passes with tables that do not interfere can be put together into one. No pass but
the last produces a percent sign, and none produces a digit of an escape, so the four passes are
one; and one pass over an escaped path gives the path.

What one pass comes to is also said without the tables (`Scans`): the written form of a reserved
character is replaced, anything else is copied, and the scan goes on behind what it has read.

Main statements: a path is read by a single scan of its text (`parse_scans_once`); URIs of absolute
paths are read back from their texts, and no two URIs have one text (`roundTrip`).
-/

namespace MonikerIndex

namespace DocumentUri

/-! ### One pass -/

/-- What the two characters behind a percent sign stand for. -/
abbrev Table := Char → Char → Option Char

/-- A single scan from left to right, which does not look at its own output again. -/
def decodeWith (table : Table) : List Char → List Char
  | '%' :: a :: b :: rest =>
      match table a b with
      | some c => c :: decodeWith table rest
      | none => '%' :: decodeWith table (a :: b :: rest)
  | c :: rest => c :: decodeWith table rest
  | [] => []

namespace Table

/-- The table of one escape. -/
def single (high low c : Char) : Table := fun a b => if a = high ∧ b = low then some c else none

/-- The escapes of two tables. -/
def or (first second : Table) : Table := fun a b => (first a b).or (second a b)

/-- No escape of a table has a percent sign behind its first. -/
def Plain (table : Table) : Prop := ∀ a b c, table a b = some c → a ≠ '%' ∧ b ≠ '%'

/-- What the first table puts for an escape plays no part in an escape of the second. -/
def Apart (first second : Table) : Prop :=
  ∀ a b c, first a b = some c → c ≠ '%' ∧ ∀ d, second c d = none ∧ second d c = none

end Table

variable {table first second : Table}

theorem decodeWith_cons {c : Char} (hc : c ≠ '%') (table : Table) (rest : List Char) :
    decodeWith table (c :: rest) = c :: decodeWith table rest := by
  rw [decodeWith.eq_def]
  split
  · next heq => exact absurd (List.cons.inj heq).1 hc
  · next heq =>
    cases heq
    rfl
  · next heq => cases heq

/-- The first character of the outcome is the first one of the text, or what an escape stands
    for. -/
theorem exists_decodeWith_cons (table : Table) (c : Char) (rest : List Char) :
    ∃ d rest', decodeWith table (c :: rest) = d :: rest' ∧ (d = c ∨ ∃ a b, table a b = some d) := by
  rw [decodeWith.eq_def]
  split
  · next a b rest heq =>
    cases heq
    split
    · next d hd => exact ⟨d, _, rfl, .inr ⟨a, b, hd⟩⟩
    · exact ⟨'%', _, rfl, .inl rfl⟩
  · next heq =>
    cases heq
    exact ⟨_, _, rfl, .inl rfl⟩
  · next heq => cases heq

/-- A percent sign stays where the next two characters are no escape. -/
theorem decodeWith_percent {chars : List Char}
    (h : ∀ a b rest, chars = a :: b :: rest → table a b = none) :
    decodeWith table ('%' :: chars) = '%' :: decodeWith table chars := by
  rw [decodeWith.eq_def]
  split
  · next a b rest heq =>
    cases heq
    rw [h a b rest rfl]
  · next heq =>
    cases heq
    rfl
  · next heq => cases heq

theorem decodeWith_escape {a b c : Char} (h : table a b = some c) (rest : List Char) :
    decodeWith table (['%', a, b] ++ rest) = c :: decodeWith table rest := by
  change decodeWith table ('%' :: a :: b :: rest) = _
  rw [decodeWith, h]

theorem replaceEscape_eq (high low c : Char) (chars : List Char) :
    replaceEscape high low c chars = decodeWith (.single high low c) chars := by
  fun_induction replaceEscape high low c chars with
  | case1 a b rest h ih => simp [decodeWith, Table.single, h, ih]
  | case2 a b rest h ih => simp [decodeWith, Table.single, h, ih]
  | case3 other rest h ih =>
    rw [decodeWith, ih]
    exact h
  | case4 => rfl

/-- Behind a percent sign that the first pass leaves, it makes up no escape of the second. -/
theorem Table.Apart.eq_none (hplain : second.Plain) (hapart : first.Apart second)
    {a b x y : Char} {rest rest' : List Char} (h : second a b = none)
    (heq : decodeWith first (a :: b :: rest) = x :: y :: rest') : second x y = none := by
  obtain ⟨d, tail, hd, horigin⟩ := exists_decodeWith_cons first a (b :: rest)
  rw [hd] at heq
  cases heq
  rcases horigin with rfl | ⟨a', b', hout⟩
  · by_cases hx : x = '%'
    · rw [Option.eq_none_iff_forall_ne_some]
      intro c hc
      exact (hplain x y c hc).1 hx
    · rw [decodeWith_cons hx] at hd
      obtain ⟨e, tail, he, horigin⟩ := exists_decodeWith_cons first b rest
      rw [he] at hd
      cases hd
      rcases horigin with rfl | ⟨a', b', hout⟩
      · exact h
      · exact ((hapart a' b' y hout).2 x).2
  · exact ((hapart a' b' x hout).2 y).1

/-- Two passes are one, unless the first makes up an escape of the second. -/
theorem decodeWith_decodeWith (hplain : second.Plain) (hapart : first.Apart second)
    (chars : List Char) :
    decodeWith second (decodeWith first chars) = decodeWith (first.or second) chars := by
  fun_induction decodeWith first chars with
  | case1 a b rest c hc ih =>
    rw [decodeWith_cons (hapart a b c hc).1, ih, decodeWith, Table.or, hc]
    rfl
  | case2 a b rest hnone ih =>
    cases hsecond : second a b with
    | some c =>
      -- Neither digit is a percent sign, so the first pass leaves both as they are.
      have hne := hplain a b c hsecond
      rw [decodeWith_cons hne.1, decodeWith_cons hne.2] at ih ⊢
      rw [decodeWith_cons hne.1, decodeWith_cons hne.2, decodeWith_cons hne.1,
        decodeWith_cons hne.2] at ih
      have hrest := (List.cons.inj (List.cons.inj ih).2).2
      rw [decodeWith, hsecond, decodeWith, Table.or, hnone, hsecond, hrest]
      rfl
    | none =>
      have hkept : decodeWith second ('%' :: decodeWith first (a :: b :: rest)) =
          '%' :: decodeWith second (decodeWith first (a :: b :: rest)) := by
        apply decodeWith_percent
        intro x y rest' heq
        exact hapart.eq_none hplain hsecond heq
      have hor : first.or second a b = none := by simp [Table.or, hnone, hsecond]
      rw [hkept, ih, decodeWith_percent]
      intro x y rest' heq
      cases heq
      exact hor
  | case3 c rest h ih =>
    -- A percent sign here is one of the last two characters.
    by_cases hc : c = '%'
    · match rest with
      | [] => simp [hc, decodeWith]
      | [d] => simp [hc, decodeWith]
      | a :: b :: rest => exact (h a b rest hc rfl).elim
    · rw [decodeWith_cons hc, decodeWith_cons hc, ih]
  | case4 => rfl

/-! ### The four escapes -/

theorem Table.plain_single {high low : Char} (hhigh : high ≠ '%') (hlow : low ≠ '%') (c : Char) :
    (single high low c).Plain := by
  intro a b d h
  simp only [single, Option.ite_none_right_eq_some] at h
  obtain ⟨⟨rfl, rfl⟩, -⟩ := h
  exact ⟨hhigh, hlow⟩

theorem Table.Plain.or (hfirst : first.Plain) (hsecond : second.Plain) :
    (first.or second).Plain := by
  intro a b c h
  rcases Option.or_eq_some_iff.mp h with h | ⟨-, h⟩
  · exact hfirst a b c h
  · exact hsecond a b c h

theorem Table.apart_single {c : Char} (hc : c ≠ '%')
    (h : ∀ d, second c d = none ∧ second d c = none) (high low : Char) :
    (single high low c).Apart second := by
  intro a b d hd
  simp only [single, Option.ite_none_right_eq_some, Option.some.injEq] at hd
  obtain ⟨-, rfl⟩ := hd
  exact ⟨hc, h⟩

/-- The escapes of a path. -/
def escapes : Table :=
  (Table.single '3' 'F' '?').or ((Table.single '2' '3' '#').or
    ((Table.single '2' '0' ' ').or (.single '2' '5' '%')))

theorem unescape_eq (chars : List Char) : unescape chars = decodeWith escapes chars := by
  have hpercent : (Table.single '2' '5' '%').Plain :=
    Table.plain_single (by decide) (by decide) '%'
  have hblank : ((Table.single '2' '0' ' ').or (.single '2' '5' '%')).Plain :=
    (Table.plain_single (by decide) (by decide) ' ').or hpercent
  have hnumber : ((Table.single '2' '3' '#').or
      ((Table.single '2' '0' ' ').or (.single '2' '5' '%'))).Plain :=
    (Table.plain_single (by decide) (by decide) '#').or hblank
  rw [unescape, replaceEscape_eq, replaceEscape_eq, replaceEscape_eq, replaceEscape_eq,
    decodeWith_decodeWith hpercent
      (Table.apart_single (by decide) (by simp [Table.single]) '2' '0'),
    decodeWith_decodeWith hblank
      (Table.apart_single (by decide) (by simp [Table.or, Table.single]) '2' '3'),
    decodeWith_decodeWith hnumber
      (Table.apart_single (by decide) (by simp [Table.or, Table.single]) '3' 'F')]
  rfl

theorem unescape_escape (path : List Char) : unescape (path.flatMap escape) = path := by
  rw [unescape_eq]
  induction path with
  | nil => rfl
  | cons c rest ih =>
    rw [List.flatMap_cons, escape]
    split_ifs with hpercent hblank hnumber hquestion
    · rw [decodeWith_escape (c := '%') rfl, ih, hpercent]
    · rw [decodeWith_escape (c := ' ') rfl, ih, hblank]
    · rw [decodeWith_escape (c := '#') rfl, ih, hnumber]
    · rw [decodeWith_escape (c := '?') rfl, ih, hquestion]
    · rw [List.singleton_append, decodeWith_cons hpercent, ih]

/-! ### What a scan reads -/

/-- The characters that are not written as they are. -/
def reserved : List Char := ['%', ' ', '#', '?']

/-- What a single scan from left to right makes of a text. It replaces the written form of a
    reserved character wherever it comes to one, and copies a character that no written form starts
    with. -/
inductive Scans : List Char → List Char → Prop where
  | done : Scans [] []
  | replaced {c : Char} {rest out : List Char} (hc : c ∈ reserved) (h : Scans rest out) :
      Scans (escape c ++ rest) (c :: out)
  | copied {c : Char} {rest out : List Char} (hc : ∀ d ∈ reserved, ¬escape d <+: c :: rest)
      (h : Scans rest out) : Scans (c :: rest) (c :: out)

theorem exists_escape_eq {c : Char} (hc : c ∈ reserved) : ∃ a b, escape c = ['%', a, b] := by
  simp only [reserved, List.mem_cons, List.not_mem_nil, or_false] at hc
  rcases hc with rfl | rfl | rfl | rfl
  · exact ⟨'2', '5', rfl⟩
  · exact ⟨'2', '0', rfl⟩
  · exact ⟨'2', '3', rfl⟩
  · exact ⟨'3', 'F', rfl⟩

/-- The table has the written forms of the reserved characters and no others. -/
theorem escapes_eq_some_iff {a b c : Char} :
    escapes a b = some c ↔ c ∈ reserved ∧ escape c = ['%', a, b] := by
  constructor
  · intro h
    simp only [escapes, Table.or, Table.single, Option.or_eq_some_iff,
      Option.ite_none_right_eq_some, Option.some.injEq] at h
    rcases h with ⟨⟨rfl, rfl⟩, rfl⟩ | ⟨-, ⟨⟨rfl, rfl⟩, rfl⟩ | ⟨-, ⟨⟨rfl, rfl⟩, rfl⟩ |
      ⟨-, ⟨rfl, rfl⟩, rfl⟩⟩⟩
    · decide
    · decide
    · decide
    · decide
  · rintro ⟨hc, h⟩
    simp only [reserved, List.mem_cons, List.not_mem_nil, or_false] at hc
    rcases hc with rfl | rfl | rfl | rfl
    · cases h
      rfl
    · cases h
      rfl
    · cases h
      rfl
    · cases h
      rfl

theorem escape_prefix_iff {d : Char} (hd : d ∈ reserved) {chars : List Char} :
    escape d <+: chars ↔ ∃ a b rest, chars = '%' :: a :: b :: rest ∧ escapes a b = some d := by
  constructor
  · rintro ⟨rest, rfl⟩
    obtain ⟨a, b, hescape⟩ := exists_escape_eq hd
    exact ⟨a, b, rest, by rw [hescape]; rfl, escapes_eq_some_iff.mpr ⟨hd, hescape⟩⟩
  · rintro ⟨a, b, rest, rfl, hescapes⟩
    rw [(escapes_eq_some_iff.mp hescapes).2]
    exact ⟨rest, rfl⟩

theorem scans_decodeWith (chars : List Char) : Scans chars (decodeWith escapes chars) := by
  fun_induction decodeWith escapes chars with
  | case1 a b rest c hc ih =>
    obtain ⟨hmem, hescape⟩ := escapes_eq_some_iff.mp hc
    have hscans := Scans.replaced hmem ih
    rwa [hescape] at hscans
  | case2 a b rest hnone ih =>
    -- a written form that starts here would be in the table
    refine .copied ?_ ih
    intro d hd hprefix
    obtain ⟨a', b', rest', heq, hsome⟩ := (escape_prefix_iff hd).mp hprefix
    cases heq
    rw [hnone] at hsome
    cases hsome
  | case3 c rest hshort ih =>
    -- here it would need a percent sign with two more characters behind it
    refine .copied ?_ ih
    intro d hd hprefix
    obtain ⟨a, b, rest', heq, -⟩ := (escape_prefix_iff hd).mp hprefix
    cases heq
    exact hshort a b rest' rfl rfl
  | case4 => exact .done

/-- A scan has one outcome: at each point it can go on in one way only. -/
theorem Scans.eq_decodeWith {chars out : List Char} (h : Scans chars out) :
    out = decodeWith escapes chars := by
  induction h with
  | done => rfl
  | @replaced c rest out hc _ ih =>
    obtain ⟨a, b, hescape⟩ := exists_escape_eq hc
    rw [hescape, decodeWith_escape (escapes_eq_some_iff.mpr ⟨hc, hescape⟩), ih]
  | @copied c rest out hcopied _ ih =>
    by_cases hc : c = '%'
    · subst hc
      rw [ih, decodeWith_percent]
      intro a b rest' heq
      rw [Option.eq_none_iff_forall_ne_some]
      intro d hd
      have hmem := (escapes_eq_some_iff.mp hd).1
      exact hcopied d hmem ((escape_prefix_iff hmem).mpr ⟨a, b, rest', by rw [heq], hd⟩)
    · rw [decodeWith_cons hc, ih]

/-! ### Texts -/

theorem parse_scheme_append {rest : List Char} (h : rest.head? = some '/') :
    parse (String.ofList (scheme ++ rest)) = .ok ⟨String.ofList (unescape rest)⟩ := by
  have hscheme : scheme.isPrefixOf (scheme ++ rest) = true := by
    rw [List.isPrefixOf_iff_prefix]
    exact List.prefix_append scheme rest
  simp only [parse, String.toList_ofList, hscheme, if_true, List.drop_left, h]

/-- Undoing one kind of escape after the other comes to a single scan: the path that is read from a
    text is the outcome of the scan of what is written behind the scheme, and the scan has no other
    outcome. In particular no escape is read that only came about by undoing another one. -/
theorem parse_scans_once {written : String} (h : written.toList.head? = some '/') :
    parse ("file://" ++ written) = .ok ⟨String.ofList (decodeWith escapes written.toList)⟩ ∧
      ∀ out, Scans written.toList out ↔ out = decodeWith escapes written.toList := by
  constructor
  · have htext : "file://" ++ written = String.ofList (scheme ++ written.toList) := by
      change _ = String.ofList ("file://".toList ++ written.toList)
      rw [String.ofList_append, String.ofList_toList, String.ofList_toList]
    rw [htext, parse_scheme_append h, unescape_eq]
  · intro out
    constructor
    · exact Scans.eq_decodeWith
    · rintro rfl
      exact scans_decodeWith written.toList

/-- Escapes that are written with an escape, or broken off by another one, are read once. -/
theorem parse_scans_nested :
    parse "file:///%253F%%2523%2%2520%3%3F" = .ok ⟨"/%3F%%23%2%20%3?"⟩ ∧
      Scans "/%253F%%2523%2%2520%3%3F".toList "/%3F%%23%2%20%3?".toList := by
  obtain ⟨hparse, hscans⟩ :=
    @parse_scans_once "/%253F%%2523%2%2520%3%3F" (by decide +kernel)
  have hout : decodeWith escapes "/%253F%%2523%2%2520%3%3F".toList =
      "/%3F%%23%2%20%3?".toList := by
    decide +kernel
  exact ⟨by rw [hout] at hparse; exact hparse, (hscans _).mpr hout.symm⟩

-- with the percent sign first, the outcome of one pass would be an escape for the next one
example : replaceEscape '2' '0' ' ' (replaceEscape '2' '5' '%' "/%2520".toList) = "/ ".toList ∧
    decodeWith escapes "/%2520".toList = "/%20".toList := by
  decide +kernel

theorem head?_ofPath (path : String) : (ofPath path).path.toList.head? = some '/' := by
  simp only [ofPath, String.toList_ofList]
  split_ifs with hslash
  · exact hslash
  · rfl

theorem parse_text {uri : DocumentUri} (h : uri.path.toList.head? = some '/') :
    parse uri.text = .ok uri := by
  obtain ⟨rest, hrest⟩ := List.head?_eq_some_iff.mp h
  have hhead : (uri.path.toList.flatMap escape).head? = some '/' := by
    rw [hrest]
    rfl
  rw [text, parse_scheme_append hhead, unescape_escape, String.ofList_toList]

theorem head?_path_of_parse {text : String} {uri : DocumentUri} (h : parse text = .ok uri) :
    uri.path.toList.head? = some '/' := by
  unfold parse at h
  simp only at h
  split_ifs at h with hscheme hslash
  cases h
  obtain ⟨rest, hrest⟩ := List.head?_eq_some_iff.mp hslash
  rw [String.toList_ofList, hrest, unescape_eq, decodeWith_cons (by decide)]
  rfl

theorem text_injective : Function.Injective text := by
  intro uri other htext
  have hescaped : uri.path.toList.flatMap escape = other.path.toList.flatMap escape := by
    rw [text, text, String.ofList_inj] at htext
    exact List.append_cancel_left htext
  have hpath : uri.path.toList = other.path.toList := by
    rw [← unescape_escape uri.path.toList, hescaped, unescape_escape]
  exact congrArg DocumentUri.mk (String.toList_inj.mp hpath)

theorem notMem_escape {c : Char} (hc : c ∈ [' ', '#', '?']) (d : Char) : c ∉ escape d := by
  have hplain : c ≠ '%' ∧ c ≠ '0' ∧ c ≠ '2' ∧ c ≠ '3' ∧ c ≠ '5' ∧ c ≠ 'F' := by
    simp only [List.mem_cons, List.not_mem_nil, or_false] at hc
    rcases hc with rfl | rfl | rfl
    · decide
    · decide
    · decide
  rw [escape]
  split_ifs with hpercent hblank hnumber hquestion
  · simp [hplain]
  · simp [hplain]
  · simp [hplain]
  · simp [hplain]
  · rw [List.mem_singleton]
    rintro rfl
    simp [hblank, hnumber, hquestion] at hc

/-- The URI of any path is read back from its text; URIs with one text are equal; and what is read
    from any text is absolute and can be written and read again. No text holds a blank, a number
    sign or a question mark. -/
theorem roundTrip :
    (∀ path, parse (ofPath path).text = .ok (ofPath path)) ∧ Function.Injective text ∧
      (∀ written uri, parse written = .ok uri →
        uri.path.toList.head? = some '/' ∧ parse uri.text = .ok uri) ∧
      ∀ uri : DocumentUri, ∀ c ∈ [' ', '#', '?'], c ∉ uri.text.toList := by
  refine ⟨fun path => parse_text (head?_ofPath path), text_injective, ?_, ?_⟩
  · intro written uri h
    have hhead := head?_path_of_parse h
    exact ⟨hhead, parse_text hhead⟩
  · intro uri c hc hmem
    rw [text, String.toList_ofList] at hmem
    rcases List.mem_append.mp hmem with hmem | hmem
    · simp only [List.mem_cons, List.not_mem_nil, or_false] at hc
      rcases hc with rfl | rfl | rfl
      · exact absurd hmem (by decide)
      · exact absurd hmem (by decide)
      · exact absurd hmem (by decide)
    · obtain ⟨d, -, hmem⟩ := List.mem_flatMap.mp hmem
      exact notMem_escape hc d hmem

/-- Escapes of escapes, parts of escapes and escapes with small letters are kept apart. -/
theorem roundTrip_awkward :
    parse "file:///%2520%25%32%3F%3f%2" = .ok ⟨"/%20%%32?%3f%2"⟩ ∧
      (⟨"/%20%%32?%3f%2"⟩ : DocumentUri).text = "file:///%2520%25%2532%3F%253f%252" ∧
      parse (⟨"/%20%%32?%3f%2"⟩ : DocumentUri).text = .ok ⟨"/%20%%32?%3f%2"⟩ ∧
      (ofPath "C:\\my dir\\a#1.ts").text = "file:///C:/my%20dir/a%231.ts" ∧
      parse (ofPath "C:\\my dir\\a#1.ts").text = .ok ⟨"/C:/my dir/a#1.ts"⟩ := by
  have hparse : parse "file:///%2520%25%32%3F%3f%2" = .ok ⟨"/%20%%32?%3f%2"⟩ := by decide +kernel
  have hpath : ofPath "C:\\my dir\\a#1.ts" = ⟨"/C:/my dir/a#1.ts"⟩ := by decide +kernel
  exact ⟨hparse, by decide +kernel, (roundTrip.2.2.1 _ _ hparse).2, by decide +kernel,
    (roundTrip.1 _).trans (congrArg _ hpath)⟩

end DocumentUri

end MonikerIndex
