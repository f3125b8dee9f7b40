import MonikerIndex.Index.Emission
import Mathlib.Data.List.Basic

/-!
# Identities of records

Which records of a table have an identity, and what their identifiers look like.

A record without a name has none. What is seen everywhere is named by its export path, which exists
if each record on the way up can be written as a segment (`isSome_nestedPath_iff`), and which has a
colon as an identifier. Everything else is named by a digest, and a digest in base64 has no colon
(`colon_notMem_digest`). Two digested texts are equal if the records start at the same position and
their files and names come to the same characters (`localText_eq_iff`).
-/

namespace MonikerIndex

/-! ### Colons -/

theorem Base64.symbol_ne_colon (n : Nat) : symbol n ≠ ':' := by
  unfold symbol
  cases hchar : alphabet[n]? with
  | none => decide
  | some char =>
    have halphabet : ':' ∉ alphabet := by decide
    intro hcolon
    rw [Option.getD_some] at hcolon
    exact halphabet (hcolon ▸ List.mem_of_getElem? hchar)

theorem Base64.colon_notMem_encode (bytes : List UInt8) : ':' ∉ encode bytes := by
  -- by groups of three bytes, as they are written
  fun_induction encode bytes with
  | case1 => exact List.not_mem_nil
  | case2 a n => simp [Ne.symm (symbol_ne_colon _)]
  | case3 a b n => simp [Ne.symm (symbol_ne_colon _)]
  | case4 a b c rest n ih => simp [Ne.symm (symbol_ne_colon _), ih]

theorem colon_notMem_digest (text : String) : ':' ∉ (digest text).toList := by
  rw [digest, String.toList_ofList]
  exact Base64.colon_notMem_encode _

theorem ExportPath.colon_mem_identifier (path : ExportPath) : ':' ∈ path.identifier.toList := by
  rw [identifier, String.toList_ofList]
  exact List.mem_append_right _ List.mem_cons_self

/-! ### Export paths -/

theorem Record.isSome_segment?_iff {record : Record} :
    record.segment?.isSome ↔ record.name.isSome ∨ record.exportForm.isSome := by
  unfold segment?
  cases record.exportForm with
  | none => simp
  | some form => simp

/-- Whether each record lies in the one behind it, as far as this shows: nothing comes behind a
    record without a parent. -/
def Enclosing : List Record → Prop
  | [] => True
  | record :: outer => (record.parent = none → outer = []) ∧ Enclosing outer

theorem SymbolTable.enclosing_ascend (table : SymbolTable) (steps id : Nat) :
    Enclosing (table.ascend steps id) := by
  induction steps generalizing id with
  | zero => trivial
  | succ steps ih =>
    rw [ascend]
    cases table.record? id with
    | none => trivial
    | some record =>
      cases hparent : record.parent with
      | none => simp [Enclosing, hparent]
      | some parent => simp [Enclosing, hparent, ih parent]

theorem SymbolTable.mem_records_of_mem_ascend {table : SymbolTable} {steps id : Nat}
    {record : Record} (h : record ∈ table.ascend steps id) : record ∈ table.records := by
  induction steps generalizing id with
  | zero => cases h
  | succ steps ih =>
    rw [ascend] at h
    cases hid : table.record? id with
    | none => simp [hid] at h
    | some first =>
      simp only [hid, List.mem_cons] at h
      rcases h with rfl | h
      · exact List.mem_of_getElem? hid
      · cases hparent : first.parent with
        | none => simp [hparent] at h
        | some parent =>
          rw [hparent] at h
          exact ih h

/-- There is a path to a record if all the records it lies in can be named on it. -/
theorem Naming.isSome_nestedPath_iff (naming : Naming) {records : List Record}
    (h : Enclosing records) (hne : records ≠ []) :
    (naming.nestedPath records).isSome ↔ ∀ record ∈ records, record.segment?.isSome := by
  induction records with
  | nil => exact absurd rfl hne
  | cons record outer ih =>
    obtain ⟨htop, houter⟩ := h
    rw [nestedPath, List.forall_mem_cons]
    cases hsegment : record.segment? with
    | none => simp
    | some segment =>
      by_cases hquoted : record.isQuotedModule
      · -- a quoted module has no parent, so the path ends with it
        have hparent : record.parent = none := by
          simp only [Record.isQuotedModule, Record.isAmbientModule, Bool.and_eq_true,
            Option.isNone_iff_eq_none] at hquoted
          exact hquoted.1.2
        simp [hquoted, htop hparent]
      · cases outer with
        | nil => simp [hquoted]
        | cons container rest =>
          have hrest := ih houter (List.cons_ne_nil _ _)
          by_cases hambient : container.isAmbientModule
          · have hparent : container.parent = none := by
              simp only [Record.isAmbientModule, Bool.and_eq_true,
                Option.isNone_iff_eq_none] at hambient
              exact hambient.2
            rw [houter.1 hparent]
            cases hname : container.segment? with
            | none => simp [hquoted, hambient, hname]
            | some name => simp [hquoted, hambient, hname]
          · rw [← hrest]
            cases naming.nestedPath (container :: rest) with
            | none => simp [hquoted, hambient]
            | some path => simp [hquoted, hambient]

/-! ### Texts of internal records -/

/-- Where the last separator stands is told by the text behind it. -/
theorem append_separator_inj {α : Type} {sep : α} {xs ys as bs : List α} (hxs : sep ∉ xs)
    (hys : sep ∉ ys) : as ++ sep :: xs = bs ++ sep :: ys ↔ as = bs ∧ xs = ys := by
  refine ⟨fun h => ?_, fun ⟨has, hx⟩ => by rw [has, hx]⟩
  rcases List.append_eq_append_iff.mp h with ⟨cs, rfl, hcs⟩ | ⟨cs, rfl, hcs⟩
  · cases cs with
    | nil => simpa using hcs
    | cons c cs =>
      have htail : xs = cs ++ sep :: ys := (List.cons.inj hcs).2
      exact absurd (htail ▸ List.mem_append_right cs List.mem_cons_self) hxs
  · cases cs with
    | nil => simpa using hcs.symm
    | cons c cs =>
      have htail : ys = cs ++ sep :: xs := (List.cons.inj hcs).2
      exact absurd (htail ▸ List.mem_append_right cs List.mem_cons_self) hys

theorem toDigits_inj {m n : Nat} (h : Nat.toDigits 10 m = Nat.toDigits 10 n) : m = n := by
  have hvalue := congrArg (Nat.ofDigitChars 10 · 0) h
  simpa only [Nat.ofDigitChars_ten_toDigits] using hvalue

theorem notMem_toDigits {c : Char} (hc : c.isDigit = false) (n : Nat) : c ∉ Nat.toDigits 10 n := by
  intro hmem
  rw [Nat.isDigit_of_mem_toDigits (by decide) (by decide) hmem] at hc
  cases hc

/-- A position as it is written in the text of an internal record. -/
def Position.chars (position : Position) : List Char :=
  Nat.toDigits 10 position.line.toNat ++ ':' :: Nat.toDigits 10 position.character.toNat

theorem Position.chars_inj {position other : Position} (h : position.chars = other.chars) :
    position = other := by
  have hcolon := notMem_toDigits (c := ':') (by decide)
  obtain ⟨hline, hcharacter⟩ := (append_separator_inj (hcolon _) (hcolon _)).mp h
  obtain ⟨line, character⟩ := position
  obtain ⟨line', character'⟩ := other
  have hline : line = line' := UInt32.toNat_inj.mp (toDigits_inj hline)
  have hcharacter : character = character' := UInt32.toNat_inj.mp (toDigits_inj hcharacter)
  rw [hline, hcharacter]

theorem Position.bar_notMem_chars (position : Position) : '|' ∉ position.chars := by
  have hbar := notMem_toDigits (c := '|') (by decide)
  simp [chars, hbar]

/-- Where the first site of a record starts. -/
def Record.start (record : Record) : Position :=
  (record.canonical?.getD default).span.start

/-- The file of a record's first site and the names around it. -/
def SymbolTable.scopeChars (table : SymbolTable) (record : Record) : List Char :=
  (record.canonical?.getD default).file.toList ++ '|' ::
    dotted ((table.chain record.id).reverse.map fun outer => outer.name.getD "<anonymous>")

/-- The text of an internal record is read from its end: the position after the last bar, and
    before it whatever file and names come to. -/
theorem Naming.localText_eq_iff {table : SymbolTable} {record other : Record} :
    localText table record = localText table other ↔
      table.scopeChars record = table.scopeChars other ∧ record.start = other.start := by
  have htext : ∀ record, localText table record =
      String.ofList (table.scopeChars record ++ '|' :: record.start.chars) := by
    intro record
    rw [SymbolTable.scopeChars, List.append_assoc]
    rfl
  rw [htext, htext, String.ofList_inj, append_separator_inj (Position.bar_notMem_chars _)
    (Position.bar_notMem_chars _)]
  exact and_congr_right fun _ => ⟨Position.chars_inj, congrArg _⟩

/-! ### Identities -/

namespace SymbolTable

variable {table : SymbolTable} {naming : Naming} {id : Nat} {identity : Identity}

theorem identity?_eq_some_iff :
    table.identity? naming id = some identity ↔ ∃ record, table.record? id = some record ∧
      record.name.isSome ∧
        ((table.visibility id = .everywhere ∧ ∃ path,
            naming.exportPath table record.id = some path ∧ identity = .exported path.identifier) ∨
          (table.visibility id ≠ .everywhere ∧
            identity = .internal (naming.localIdentifier table record))) := by
  unfold identity?
  cases hrecord : table.record? id with
  | none => simp
  | some record =>
    simp only [Naming.identity?, Option.bind_eq_bind, Option.bind_some, Option.some.injEq,
      exists_eq_left']
    cases hname : record.name with
    | none => simp
    | some name =>
      by_cases hvisible : table.visibility id = .everywhere
      · simp [hvisible, @eq_comm _ identity]
      · simp [hvisible, @eq_comm _ identity]

/-- An identity is that of an export path or that of a digest. -/
theorem identity?_cases (h : table.identity? naming id = some identity) :
    (∃ path : ExportPath, identity = .exported path.identifier) ∨
      ∃ text, identity = .internal (naming.digest text) := by
  obtain ⟨record, -, -, ⟨-, path, -, rfl⟩ | ⟨-, rfl⟩⟩ := identity?_eq_some_iff.mp h
  · exact Or.inl ⟨path, rfl⟩
  · exact Or.inr ⟨_, rfl⟩

/-- A record has an identity if it is named and, where it is seen everywhere, all that it lies in
    can be named on its path. -/
theorem isSome_identity?_iff {record : Record} (hrecord : table.record? id = some record)
    (hid : record.id = id) :
    (table.identity? naming id).isSome ↔ record.name.isSome ∧
      (table.visibility id ≠ .everywhere ∨
        ∀ outer ∈ table.chain id, outer.name.isSome ∨ outer.exportForm.isSome) := by
  have hchain : table.chain id ≠ [] := by
    simp [chain, ascend, hrecord]
  have hpath := naming.isSome_nestedPath_iff (table.enclosing_ascend (id + 1) id) hchain
  simp only [Record.isSome_segment?_iff] at hpath
  rw [chain, ← hpath, Option.isSome_iff_exists]
  simp only [identity?_eq_some_iff, hrecord, Option.some.injEq, exists_eq_left', hid,
    Naming.exportPath, chain]
  by_cases hvisible : table.visibility id = .everywhere
  · simp [hvisible, Option.isSome_iff_exists]
  · simp [hvisible]

end SymbolTable

end MonikerIndex
