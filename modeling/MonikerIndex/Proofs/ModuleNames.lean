import Mathlib.Data.List.Basic
import Mathlib.Data.List.TakeWhile
import MonikerIndex.Path

/-!
# Module names

The module name of a file is cut out of its path twice: the root is taken off at the front, and the
extension of a module file at the end. What is relative to a root is said without the functions that
find it (`RelativeTo`), and so is the extension: it is the longest suffix that is one, in any letter
case (`IsExtension`). The table of extensions is searched for the first one that fits, and this is
the longest one, because none stands before another that it is a suffix of.

No extension holds a separator. So whether a file holds declarations only is seen in its whole path,
with separators of either kind, as well as in the extension that is cut off
(`IsExtension.ofPath_eq_declaration_iff`).

Main statement: `moduleName_decomposes`.
-/

namespace MonikerIndex

/-! ### Bytes of a text -/

namespace Text

/-- The first bytes of a text, as many as given. There are none if they end inside a character. -/
def firstBytes? (text : String) (size : Nat) : Option String :=
  if h : String.Pos.Raw.IsValid text ⟨size⟩ then some (text.sliceTo ⟨⟨size⟩, h⟩).copy else none

theorem firstBytes?_append (first second : String) :
    firstBytes? (first ++ second) first.utf8ByteSize = some first := by
  have hvalid : String.Pos.Raw.IsValid (first ++ second) ⟨first.utf8ByteSize⟩ :=
    String.Pos.Raw.isValid_iff_exists_append.mpr ⟨first, second, rfl, rfl⟩
  have hsplits : String.Pos.Splits ⟨⟨first.utf8ByteSize⟩, hvalid⟩ first second := ⟨rfl, rfl⟩
  rw [firstBytes?, dif_pos hvalid, hsplits.copy_sliceTo_eq]

theorem toLower_cases (c : Char) :
    c.toLower = c ∨ 65 ≤ c.toNat ∧ c.toNat ≤ 90 ∧ c.toLower.toNat = c.toNat + 32 := by
  by_cases hupper : c.val ≥ 'A'.val ∧ c.val ≤ 'Z'.val
  · have hlow : 65 ≤ c.val.toNat := UInt32.le_iff_toNat_le.mp hupper.1
    have hhigh : c.val.toNat ≤ 90 := UInt32.le_iff_toNat_le.mp hupper.2
    have hval : c.toLower.val = c.val + 32 := congrArg Char.val (dif_pos hupper)
    refine Or.inr ⟨hlow, hhigh, ?_⟩
    change c.toLower.val.toNat = c.val.toNat + 32
    rw [hval, UInt32.toNat_add, Nat.mod_eq_of_lt]
    · rfl
    · change c.val.toNat + 32 < 2 ^ 32
      omega
  · exact Or.inl (dif_neg hupper)

theorem utf8Size_toLower (c : Char) : c.toLower.utf8Size = c.utf8Size := by
  rcases toLower_cases c with heq | ⟨-, hhigh, heq⟩
  · rw [heq]
  · have hascii : ∀ {d : Char}, d.toNat ≤ 127 → d.utf8Size = 1 :=
      fun hle => Char.utf8Size_eq_one_iff.mpr (UInt32.le_iff_toNat_le.mpr hle)
    rw [hascii (by omega), hascii (by omega)]

/-- Lower case takes as many bytes, so an extension is as long as it is in the table. -/
theorem utf8ByteSize_asciiLower (chars : List Char) :
    (String.ofList (asciiLower chars)).utf8ByteSize = (String.ofList chars).utf8ByteSize := by
  induction chars with
  | nil => rfl
  | cons c chars ih =>
    rw [asciiLower] at ih ⊢
    simp [utf8Size_toLower, ih]

end Text

/-! ### Suffixes -/

/-- A suffix without separators does not reach over one. -/
theorem suffix_append_cons_iff {α : Type} {sep : α} {suffix xs ys : List α} (h : sep ∉ suffix) :
    suffix <:+ xs ++ sep :: ys ↔ suffix <:+ ys := by
  constructor
  · rintro ⟨rest, heq⟩
    rcases List.append_eq_append_iff.mp heq with ⟨as, -, has⟩ | ⟨bs, -, hbs⟩
    · exact absurd (has ▸ List.mem_append_right as List.mem_cons_self) h
    · cases bs with
      | nil =>
        have heq : sep :: ys = suffix := hbs
        exact absurd (heq ▸ List.mem_cons_self) h
      | cons b bs => exact ⟨bs, (List.cons.inj hbs).2.symm⟩
  · intro hsuffix
    exact (hsuffix.trans (List.suffix_cons sep ys)).trans (List.suffix_append xs _)

theorem DocumentKind.ofPath_eq_declaration_iff {path : String} :
    ofPath path = .declaration ↔
      ∃ known ∈ declarationExtensions, known <:+ Text.asciiLower path.toList := by
  rw [ofPath]
  split_ifs with hany
  · simpa only [List.any_eq_true, List.isSuffixOf_iff_suffix, true_iff] using hany
  · simpa only [List.any_eq_true, List.isSuffixOf_iff_suffix, reduceCtorEq, false_iff] using hany

namespace Path

variable {chars inner root path rel extension : List Char}

/-! ### Separators at the ends -/

/-- What is left of some characters without the separators at their front. -/
def WithoutFront (chars inner : List Char) : Prop :=
  ∃ separators, chars = separators ++ inner ∧ (∀ c ∈ separators, c = '/') ∧
    inner.head? ≠ some '/'

/-- What is left of some characters without the separators at their end. -/
def WithoutEnd (chars inner : List Char) : Prop :=
  ∃ separators, chars = inner ++ separators ∧ (∀ c ∈ separators, c = '/') ∧
    inner.getLast? ≠ some '/'

theorem withoutFront_iff : WithoutFront chars inner ↔ inner = chars.dropWhile (· == '/') := by
  constructor
  · rintro ⟨separators, rfl, hseparators, hhead⟩
    rw [List.dropWhile_append_of_pos (by simpa using hseparators)]
    cases inner with
    | nil => rfl
    | cons c rest =>
      rw [List.dropWhile_cons_of_neg]
      simpa using hhead
  · rintro rfl
    refine ⟨chars.takeWhile (· == '/'), List.takeWhile_append_dropWhile.symm, ?_, ?_⟩
    · intro c hc
      simpa using List.mem_takeWhile_imp hc
    · intro hhead
      have hnot := List.head?_dropWhile_not (· == '/') chars
      simp [hhead] at hnot

theorem withoutEnd_iff : WithoutEnd chars inner ↔ inner = trimEnd chars := by
  have hreverse : WithoutEnd chars inner ↔ WithoutFront chars.reverse inner.reverse := by
    constructor
    · rintro ⟨separators, rfl, hseparators, hlast⟩
      exact ⟨separators.reverse, by simp, by simpa using hseparators, by simpa using hlast⟩
    · rintro ⟨separators, heq, hseparators, hhead⟩
      refine ⟨separators.reverse, ?_, by simpa using hseparators, by simpa using hhead⟩
      rw [← List.reverse_inj, heq]
      simp
  rw [hreverse, withoutFront_iff, trimEnd, List.reverse_eq_iff]

/-! ### Relative paths -/

/-- What a path is relative to a root. Separators at the end of the root and at the front of the
    outcome do not count. A root that is left is taken off if a separator follows it. -/
def RelativeTo (root path rel : List Char) : Prop :=
  ∃ base rest, WithoutEnd root base ∧ WithoutFront rest rel ∧
    if base = [] ∨ base ++ ['/'] <+: path then path = base ++ rest else path = rest

theorem prefix_of_below {base : List Char} (h : base = [] ∨ base ++ ['/'] <+: path) :
    base <+: path := by
  rcases h with rfl | hslash
  · exact List.nil_prefix
  · exact (List.prefix_append base ['/']).trans hslash

theorem below?_eq (base path : List Char) :
    below? base path =
      if base = [] ∨ base ++ ['/'] <+: path then some (path.drop base.length) else none := by
  simp only [below?, List.isPrefixOf_iff_prefix]
  by_cases hprefix : base <+: path
  · obtain ⟨rest, rfl⟩ := hprefix
    have hslash : base ++ ['/'] <+: base ++ rest ↔ rest.head? = some '/' := by
      rw [List.prefix_append_right_inj]
      cases rest with
      | nil => simp
      | cons c rest => simp [eq_comm]
    simp [hslash]
  · rw [if_neg hprefix, if_neg fun hbelow => hprefix (prefix_of_below hbelow)]

theorem relativeTo_iff : RelativeTo root path rel ↔ rel = relative root path := by
  rw [relative, below?_eq]
  constructor
  · rintro ⟨base, rest, hbase, hrel, hpath⟩
    rw [withoutEnd_iff] at hbase
    rw [withoutFront_iff] at hrel
    subst hbase
    split_ifs at hpath with hbelow
    · have hrest : path.drop (trimEnd root).length = rest := by rw [hpath, List.drop_left]
      rw [if_pos hbelow, hrest]
      exact hrel
    · rw [if_neg hbelow, hpath]
      exact hrel
  · rintro rfl
    refine ⟨trimEnd root, _, withoutEnd_iff.mpr rfl, withoutFront_iff.mpr rfl, ?_⟩
    split_ifs with hbelow
    · exact (List.prefix_iff_eq_append.mp (prefix_of_below hbelow)).symm
    · rfl

/-- What is cut off from a path ends with a separator. -/
theorem RelativeTo.eq_append (h : RelativeTo root path rel) :
    path = rel ∨ ∃ front, path = front ++ '/' :: rel := by
  obtain ⟨base, rest, -, ⟨separators, rfl, hseparators, hhead⟩, hpath⟩ := h
  rcases List.eq_nil_or_concat separators with rfl | ⟨front, c, rfl⟩
  · -- a root that was taken off would have left a separator
    split_ifs at hpath with hbelow
    · rcases hbelow with rfl | ⟨tail, htail⟩
      · exact Or.inl hpath
      · rw [List.append_assoc, hpath, List.append_cancel_left_eq] at htail
        exact absurd (by rw [← List.nil_append rel, ← htail]; rfl) hhead
    · exact Or.inl hpath
  · have hc : c = '/' := hseparators c (by simp)
    split_ifs at hpath with hbelow
    · exact Or.inr ⟨base ++ front, by rw [hpath, hc]; simp⟩
    · exact Or.inr ⟨front, by rw [hpath, hc]; simp⟩

/-! ### Extensions -/

/-- The extension of a module file: the longest suffix that is one, in any letter case. It is empty
    if there is none. -/
structure IsExtension (path extension : List Char) : Prop where
  suffix : extension <:+ path
  known : extension = [] ∨ Text.asciiLower extension ∈ moduleExtensions
  longest : ∀ other, other <:+ path → Text.asciiLower other ∈ moduleExtensions →
    other.length ≤ extension.length

/-- The first extension in the table that fits is the longest one. -/
theorem length_le_of_moduleExtension? (h : moduleExtension? path = some extension)
    {other : List Char} (hother : other ∈ moduleExtensions)
    (hsuffix : other <:+ Text.asciiLower path) : other.length ≤ extension.length := by
  have hsorted : moduleExtensions.Pairwise fun earlier later =>
      earlier <:+ later → earlier = later := by decide
  obtain ⟨hfits, before, after, htable, hbefore⟩ := List.find?_eq_some_iff_append.mp h
  rw [List.isSuffixOf_iff_suffix] at hfits
  by_contra hlonger
  rw [Nat.not_le] at hlonger
  have hinner := List.suffix_of_suffix_length_le hfits hsuffix hlonger.le
  rw [htable] at hother hsorted
  rcases List.mem_append.mp hother with hmem | hmem
  · have hno := hbefore other hmem
    rw [List.isSuffixOf_iff_suffix.mpr hsuffix] at hno
    cases hno
  · rcases List.mem_cons.mp hmem with rfl | hmem
    · exact absurd hlonger (Nat.lt_irrefl _)
    · have heq := (List.pairwise_cons.mp (List.pairwise_append.mp hsorted).2.1).1 other hmem hinner
      rw [heq] at hlonger
      exact absurd hlonger (Nat.lt_irrefl _)

theorem exists_isExtension (path : List Char) :
    ∃ extension, path = stem path ++ extension ∧ IsExtension path extension := by
  rw [stem]
  cases h : moduleExtension? path with
  | none =>
    refine ⟨[], (List.append_nil path).symm, List.nil_suffix, Or.inl rfl, ?_⟩
    intro other hsuffix hknown
    exact absurd (List.isSuffixOf_iff_suffix.mpr (hsuffix.map _)) (List.find?_eq_none.mp h _ hknown)
  | some found =>
    have hfits : found <:+ Text.asciiLower path := by
      have hfits := List.find?_some (show moduleExtensions.find? _ = some found from h)
      exact List.isSuffixOf_iff_suffix.mp hfits
    obtain ⟨extension, hsuffix, rfl⟩ := List.suffix_map_iff.mp hfits
    have hlength : (extension.map Char.toLower).length = extension.length := List.length_map ..
    refine ⟨extension, ?_, hsuffix, Or.inr (List.mem_of_find?_eq_some h), ?_⟩
    · obtain ⟨front, rfl⟩ := hsuffix
      simp
    · intro other hother hknown
      have hle := length_le_of_moduleExtension? h hknown (hother.map _)
      rwa [hlength, Text.asciiLower, List.length_map] at hle

/-! ### Extensions and separators -/

theorem slashes_eq_self (h : '\\' ∉ chars) : slashes chars = chars := by
  have hid : chars.map (fun c => if c = '\\' then '/' else c) = chars.map id := by
    refine List.map_congr_left fun c hc => if_neg ?_
    rintro rfl
    exact h hc
  rw [slashes, hid, List.map_id]

/-- A suffix without separators is the same under either kind of them. -/
theorem suffix_slashes_iff (hslash : '/' ∉ extension) (hback : '\\' ∉ extension) :
    extension <:+ slashes chars ↔ extension <:+ chars := by
  constructor
  · intro hsuffix
    obtain ⟨other, hother, rfl⟩ := List.suffix_map_iff.mp hsuffix
    have hkept : '\\' ∉ other := fun hmem => hslash (List.mem_map_of_mem hmem)
    have hsame := slashes_eq_self hkept
    rw [slashes] at hsame
    rwa [hsame]
  · intro hsuffix
    rw [← slashes_eq_self hback]
    exact hsuffix.map _

theorem toLower_ne_backslash {c : Char} (h : c ≠ '\\') : c.toLower ≠ '\\' := by
  rcases Text.toLower_cases c with heq | ⟨hlow, -, heq⟩
  · rw [heq]
    exact h
  · intro hback
    have hcode : '\\'.toNat = 92 := rfl
    rw [hback, hcode] at heq
    omega

theorem asciiLower_slashes (chars : List Char) :
    Text.asciiLower (slashes chars) = slashes (Text.asciiLower chars) := by
  have hchar : ∀ c : Char, (if c = '\\' then '/' else c).toLower =
      if c.toLower = '\\' then '/' else c.toLower := by
    intro c
    by_cases hc : c = '\\'
    · subst hc
      decide
    · rw [if_neg hc, if_neg (toLower_ne_backslash hc)]
  simp [Text.asciiLower, slashes, hchar]

/-- No extension reaches beyond what is relative to the root. -/
theorem RelativeTo.suffix_asciiLower_iff (h : RelativeTo root (slashes chars) rel)
    (hslash : '/' ∉ extension) (hback : '\\' ∉ extension) :
    extension <:+ Text.asciiLower chars ↔ extension <:+ Text.asciiLower rel := by
  rw [← suffix_slashes_iff hslash hback, ← asciiLower_slashes]
  rcases h.eq_append with heq | ⟨front, heq⟩
  · rw [heq]
  · have hlower : Text.asciiLower (slashes chars) =
        Text.asciiLower front ++ '/' :: Text.asciiLower rel := by
      rw [heq, Text.asciiLower, List.map_append, List.map_cons]
      rfl
    rw [hlower, suffix_append_cons_iff hslash]

/-- Whether a file holds declarations only is seen in the extension that its module name lacks. -/
theorem IsExtension.ofPath_eq_declaration_iff {path : String} (h : IsExtension rel extension)
    (hrel : RelativeTo root (slashes path.toList) rel) :
    DocumentKind.ofPath path = .declaration ↔
      Text.asciiLower extension ∈ DocumentKind.declarationExtensions := by
  have hplain : ∀ known ∈ DocumentKind.declarationExtensions,
      known ≠ [] ∧ '/' ∉ known ∧ '\\' ∉ known ∧ known ∈ moduleExtensions := by decide
  have hlast : ∀ known ∈ DocumentKind.declarationExtensions, ∀ other ∈ moduleExtensions,
      known <:+ other → other ∈ DocumentKind.declarationExtensions := by decide
  rw [DocumentKind.ofPath_eq_declaration_iff]
  constructor
  · rintro ⟨known, hknown, hsuffix⟩
    obtain ⟨hne, hslash, hback, hmodule⟩ := hplain known hknown
    rw [hrel.suffix_asciiLower_iff hslash hback] at hsuffix
    obtain ⟨other, hother, rfl⟩ := List.suffix_map_iff.mp hsuffix
    have hinner : other <:+ extension :=
      List.suffix_of_suffix_length_le hother h.suffix (h.longest other hother hmodule)
    rcases h.known with rfl | hextension
    · rw [List.suffix_nil] at hinner
      rw [hinner] at hne
      exact absurd rfl hne
    · exact hlast _ hknown _ hextension (hinner.map Char.toLower)
  · intro hknown
    obtain ⟨-, hslash, hback, -⟩ := hplain _ hknown
    exact ⟨_, hknown, (hrel.suffix_asciiLower_iff hslash hback).mpr (h.suffix.map _)⟩

/-! ### Module names -/

/-- The module name of a file and the extension of the file make up its path relative to the root,
    whatever characters there are. The name can be cut out by counting bytes. And a file holds
    declarations only if its extension says so. -/
theorem moduleName_decomposes (root path : String) :
    ∃ rel extension : List Char,
      (∀ other, RelativeTo (slashes root.toList) (slashes path.toList) other ↔ other = rel) ∧
      IsExtension rel extension ∧
      rel = (moduleName root path).toList ++ extension ∧
      Text.firstBytes? (String.ofList rel) ((String.ofList rel).utf8ByteSize -
        (String.ofList (Text.asciiLower extension)).utf8ByteSize) =
          some (moduleName root path) ∧
      (DocumentKind.ofPath path = .declaration ↔
        Text.asciiLower extension ∈ DocumentKind.declarationExtensions) := by
  obtain ⟨extension, hstem, hextension⟩ :=
    exists_isExtension (relative (slashes root.toList) (slashes path.toList))
  have hname : relative (slashes root.toList) (slashes path.toList) =
      (moduleName root path).toList ++ extension := by
    rw [moduleName, String.toList_ofList]
    exact hstem
  refine ⟨_, extension, fun other => relativeTo_iff, hextension, hname, ?_,
    hextension.ofPath_eq_declaration_iff (relativeTo_iff.mpr rfl)⟩
  rw [Text.utf8ByteSize_asciiLower, hname, String.ofList_append, String.ofList_toList,
    String.utf8ByteSize_append, Nat.add_sub_cancel, Text.firstBytes?_append]

example : moduleName "C:\\work\\" "C:\\work\\src\\Größe.D.mTS" = "src/Größe" := by decide +kernel

end Path

end MonikerIndex
