import MonikerIndex.Proofs.Json.Tokens

/-!
# Written values

`Json.Written` is the grammar of JSON for the values of this library: tokens in their one spelling,
with any blanks around brackets, commas and colons. The compact and the pretty form are both
written in this sense, and the scanner reads every written value as that value. So what is proved
of reading does not depend on the layout of the text.
-/

namespace MonikerIndex

namespace Json

/-- Only blanks. -/
def Blank (chars : List Char) : Prop := ∀ c ∈ chars, Scan.isBlank c = true

mutual

/-- Every number fits into sixty-four bits. -/
def Bounded : Json → Prop
  | .nat n => n < UInt64.size
  | .list items => BoundedItems items
  | .record members => BoundedMembers members
  | _ => True

def BoundedItems : List Json → Prop
  | [] => True
  | item :: items => item.Bounded ∧ BoundedItems items

def BoundedMembers : List (String × Json) → Prop
  | [] => True
  | (_, value) :: members => value.Bounded ∧ BoundedMembers members

end

mutual

/-- The characters write the value, from its first character to its last. -/
inductive Written : Json → List Char → Prop where
  | null : Written .null ['n', 'u', 'l', 'l']
  | boolTrue : Written (.bool true) ['t', 'r', 'u', 'e']
  | boolFalse : Written (.bool false) ['f', 'a', 'l', 's', 'e']
  | nat {n : Nat} (hn : n < UInt64.size) : Written (.nat n) (decimal n)
  | text (s : String) : Written (.text s) (quote s)
  | emptyList {gap : List Char} (hgap : Blank gap) : Written (.list []) ('[' :: (gap ++ [']']))
  | list {item : Json} {items : List Json} {gap chars rest : List Char} (hgap : Blank gap)
      (hitem : Written item chars) (hitems : ItemsWritten items rest) :
      Written (.list (item :: items)) ('[' :: (gap ++ (chars ++ rest)))
  | emptyRecord {gap : List Char} (hgap : Blank gap) :
      Written (.record []) ('\x7b' :: (gap ++ ['\x7d']))
  | record (key : String) {value : Json} {members : List (String × Json)}
      {gap gap' gap'' chars rest : List Char} (hgap : Blank gap) (hgap' : Blank gap')
      (hgap'' : Blank gap'') (hvalue : Written value chars)
      (hmembers : MembersWritten members rest) :
      Written (.record ((key, value) :: members))
        ('\x7b' :: (gap ++ (quote key ++ ((gap' ++ ':' :: (gap'' ++ chars)) ++ rest))))

/-- The characters write the items that follow another one, and the closing bracket. -/
inductive ItemsWritten : List Json → List Char → Prop where
  | nil {gap : List Char} (hgap : Blank gap) : ItemsWritten [] (gap ++ [']'])
  | cons {item : Json} {items : List Json} {gap gap' chars rest : List Char} (hgap : Blank gap)
      (hgap' : Blank gap') (hitem : Written item chars) (hitems : ItemsWritten items rest) :
      ItemsWritten (item :: items) (gap ++ ',' :: (gap' ++ (chars ++ rest)))

/-- The characters write the members that follow another one, and the closing brace. -/
inductive MembersWritten : List (String × Json) → List Char → Prop where
  | nil {gap : List Char} (hgap : Blank gap) : MembersWritten [] (gap ++ ['\x7d'])
  | cons (key : String) {value : Json} {members : List (String × Json)}
      {before gap gap' gap'' chars rest : List Char} (hbefore : Blank before) (hgap : Blank gap)
      (hgap' : Blank gap') (hgap'' : Blank gap'') (hvalue : Written value chars)
      (hmembers : MembersWritten members rest) :
      MembersWritten ((key, value) :: members)
        (before ++ ',' :: (gap ++ (quote key ++ ((gap' ++ ':' :: (gap'' ++ chars)) ++ rest))))

end

/-! ### The two forms -/

theorem blank_nil : Blank [] := by
  intro c hc
  cases hc

theorem blank_newline (depth : Nat) : Blank (newline depth) := by
  intro c hc
  rcases List.mem_cons.mp hc with rfl | hc
  · rfl
  · rw [List.eq_of_mem_replicate hc]
    rfl

mutual

theorem written_compactChars : ∀ value : Json, value.Bounded → Written value value.compactChars
  | .null, _ => .null
  | .bool true, _ => .boolTrue
  | .bool false, _ => .boolFalse
  | .nat _, hn => .nat hn
  | .text s, _ => .text s
  | .list [], _ => .emptyList blank_nil
  | .list (item :: items), ⟨hitem, hitems⟩ => by
      have h := Written.list blank_nil (written_compactChars item hitem)
        (written_compactItems items hitems)
      exact h
  | .record [], _ => .emptyRecord blank_nil
  | .record ((key, value) :: members), ⟨hvalue, hmembers⟩ => by
      have h := Written.record key blank_nil blank_nil blank_nil
        (written_compactChars value hvalue) (written_compactMembers members hmembers)
      exact h

theorem written_compactItems : ∀ items : List Json, BoundedItems items →
    ItemsWritten items (compactItems items ++ [']'])
  | [], _ => .nil blank_nil
  | item :: items, ⟨hitem, hitems⟩ => by
      have h := ItemsWritten.cons blank_nil blank_nil (written_compactChars item hitem)
        (written_compactItems items hitems)
      simpa [compactItems] using h

theorem written_compactMembers : ∀ members : List (String × Json), BoundedMembers members →
    MembersWritten members (compactMembers members ++ ['\x7d'])
  | [], _ => .nil blank_nil
  | (key, value) :: members, ⟨hvalue, hmembers⟩ => by
      have h := MembersWritten.cons key blank_nil blank_nil blank_nil blank_nil
        (written_compactChars value hvalue) (written_compactMembers members hmembers)
      simpa [compactMembers] using h

end

theorem blank_space : Blank [' '] := by
  intro c hc
  rw [List.mem_singleton.mp hc]
  rfl

mutual

theorem written_prettyChars :
    ∀ (depth : Nat) (value : Json), value.Bounded → Written value (value.prettyChars depth)
  | _, .null, _ => .null
  | _, .bool true, _ => .boolTrue
  | _, .bool false, _ => .boolFalse
  | _, .nat _, hn => .nat hn
  | _, .text s, _ => .text s
  | _, .list [], _ => .emptyList blank_nil
  | depth, .list (item :: items), ⟨hitem, hitems⟩ =>
      .list (blank_newline (depth + 1)) (written_prettyChars (depth + 1) item hitem)
        (written_prettyItems (depth + 1) items hitems (blank_newline depth))
  | _, .record [], _ => .emptyRecord blank_nil
  | depth, .record ((key, value) :: members), ⟨hvalue, hmembers⟩ => by
      have h := Written.record key (blank_newline (depth + 1)) blank_nil blank_space
        (written_prettyChars (depth + 1) value hvalue)
        (written_prettyMembers (depth + 1) members hmembers (blank_newline depth))
      exact h

theorem written_prettyItems : ∀ (depth : Nat) (items : List Json), BoundedItems items →
    ∀ {gap : List Char}, Blank gap → ItemsWritten items (prettyItems depth items ++ (gap ++ [']']))
  | _, [], _, _, hgap => .nil hgap
  | depth, item :: items, ⟨hitem, hitems⟩, _, hgap => by
      have h := ItemsWritten.cons blank_nil (blank_newline depth)
        (written_prettyChars depth item hitem) (written_prettyItems depth items hitems hgap)
      simpa [prettyItems] using h

theorem written_prettyMembers : ∀ (depth : Nat) (members : List (String × Json)),
    BoundedMembers members → ∀ {gap : List Char}, Blank gap →
      MembersWritten members (prettyMembers depth members ++ (gap ++ ['\x7d']))
  | _, [], _, _, hgap => .nil hgap
  | depth, (key, value) :: members, ⟨hvalue, hmembers⟩, _, hgap => by
      have h := MembersWritten.cons key blank_nil (blank_newline depth) blank_nil blank_space
        (written_prettyChars depth value hvalue) (written_prettyMembers depth members hmembers hgap)
      simpa [prettyMembers] using h

end

/-- A written value starts neither with a blank nor with a closing bracket. -/
theorem Written.exists_eq_cons {value : Json} {chars : List Char} (h : Written value chars) :
    ∃ c rest, chars = c :: rest ∧ Scan.isBlank c = false ∧ c ≠ ']' := by
  cases h with
  | null => exact ⟨_, _, rfl, by decide, by decide⟩
  | boolTrue => exact ⟨_, _, rfl, by decide, by decide⟩
  | boolFalse => exact ⟨_, _, rfl, by decide, by decide⟩
  | text s => exact ⟨_, _, rfl, by decide, by decide⟩
  | emptyList hgap => exact ⟨_, _, rfl, by decide, by decide⟩
  | list hgap hitem hitems => exact ⟨_, _, rfl, by decide, by decide⟩
  | emptyRecord hgap => exact ⟨_, _, rfl, by decide, by decide⟩
  | record key hgap hgap' hgap'' hvalue hmembers => exact ⟨_, _, rfl, by decide, by decide⟩
  | @nat n hn =>
    obtain ⟨c, rest, heq⟩ := List.exists_cons_of_ne_nil (Nat.toDigits_ne_nil (n := n) (b := 10))
    have hdigit : c.isDigit = true :=
      Nat.isDigit_of_mem_toDigits (by decide) (by decide) (heq ▸ List.mem_cons_self)
    exact ⟨c, rest, heq, Scan.isBlank_of_isDigit hdigit, Scan.ne_of_isDigit hdigit (by decide)⟩

end Json

namespace Scan

open Json (Blank Written ItemsWritten MembersWritten)

/-! ### Blanks -/

/-- The states that expect something and pass the blanks before it. -/
def isWaiting : Scan → Bool
  | .value _ | .listStart _ | .recordStart _ | .recordKey .. | .colon .. => true
  | _ => false

theorem step_blank {scan : Scan} (h : scan.isWaiting = true) {c : Char} (hc : isBlank c = true) :
    scan.step c = scan := by
  cases scan with
  | value slot => simp [step, hc]
  | listStart outer => simp [step, hc]
  | recordStart outer => simp [step, hc]
  | recordKey members outer => simp [step, hc]
  | colon members key outer => simp [step, hc]
  | _ => cases h

theorem run_blank (scan : Scan) (h : scan.isWaiting = true) {gap : List Char} (hgap : Blank gap) :
    scan.run gap = scan := by
  induction gap with
  | nil => rfl
  | cons c gap ih =>
    rw [run_cons, step_blank h (hgap c List.mem_cons_self)]
    exact ih fun d hd => hgap d (List.mem_cons_of_mem c hd)

theorem afterValue_blank {c : Char} (hc : isBlank c = true) (slot : Context) (value : Reading) :
    afterValue slot value c = complete slot value := by
  cases slot with
  | top => simp [afterValue, complete, hc]
  | item before outer => simp [afterValue, afterItem, complete, hc]
  | member before key outer => simp [afterValue, afterMember, complete, hc]

/-- Blanks behind a value change nothing. -/
theorem Ends.run_blank {scan : Scan} {slot : Context} {value : Reading}
    (h : scan.Ends slot value) {gap : List Char} (hgap : Blank gap) :
    (scan.run gap).Ends slot value := by
  induction gap generalizing scan with
  | nil => exact h
  | cons c gap ih =>
    have hc : isBlank c = true := hgap c List.mem_cons_self
    rw [run_cons, h.step_eq c (.inl hc), afterValue_blank hc]
    exact ih (ends_complete slot value) fun d hd => hgap d (List.mem_cons_of_mem c hd)

/-! ### Written values -/

theorem run_listStart {value : Json} {chars : List Char} (h : Written value chars)
    (outer : Context) :
    (Scan.listStart outer).run chars = (Scan.value (.item [] outer)).run chars := by
  obtain ⟨c, rest, rfl, hblank, hbracket⟩ := h.exists_eq_cons
  simp [step, hblank, hbracket]

/-- From behind a key to the end of its value. -/
theorem run_member {chars gap gap' : List Char} {value : Reading} (hgap : Blank gap)
    (hgap' : Blank gap') (hvalue : ∀ slot, ((Scan.value slot).run chars).Ends slot value)
    (members : List (Option String × Reading)) (key : Option String) (outer : Context) :
    ((Scan.colon members key outer).run (gap ++ ':' :: (gap' ++ chars))).Ends
      (.member members key outer) value := by
  have hcolon : (Scan.colon members key outer).step ':' = .value (.member members key outer) := rfl
  rw [run_append, run_blank (.colon members key outer) rfl hgap, run_cons, hcolon, run_append,
    run_blank (.value _) rfl hgap']
  exact hvalue _

mutual

theorem ends_of_written : ∀ {value : Json} {chars : List Char}, Written value chars →
    ∀ slot, ((Scan.value slot).run chars).Ends slot (.ofJson value)
  | _, _, .null, slot => ends_complete slot .null
  | _, _, .boolTrue, slot => ends_complete slot (.bool true)
  | _, _, .boolFalse, slot => ends_complete slot (.bool false)
  | _, _, .nat hn, slot => run_decimal hn slot
  | _, _, .text s, slot => by
      rw [run_quote]
      exact ends_complete slot (.text s)
  | _, _, .emptyList hgap, slot => by
      have hopen : (Scan.value slot).step '[' = .listStart slot := rfl
      rw [run_cons, hopen, run_append, run_blank (.listStart slot) rfl hgap]
      exact ends_complete slot (.list [] none)
  | _, _, .list hgap hitem hitems, slot => by
      -- `listStart` differs from `value` only where the list ends at once.
      have hopen : (Scan.value slot).step '[' = .listStart slot := rfl
      rw [run_cons, hopen, run_append, run_blank (.listStart slot) rfl hgap, run_append,
        run_listStart hitem, run_items hitems (ends_of_written hitem _)]
      exact ends_complete slot _
  | _, _, .emptyRecord hgap, slot => by
      have hopen : (Scan.value slot).step '\x7b' = .recordStart slot := rfl
      rw [run_cons, hopen, run_append, run_blank (.recordStart slot) rfl hgap]
      exact ends_complete slot (.record [] none)
  | _, _, .record key hgap hgap' hgap'' hvalue hmembers, slot => by
      have hopen : (Scan.value slot).step '\x7b' = .recordStart slot := rfl
      have hkey : (Scan.recordStart slot).run (Json.quote key) = .colon [] (some key) slot :=
        run_key key [] slot
      rw [run_cons, hopen, run_append, run_blank (.recordStart slot) rfl hgap, run_append, hkey,
        run_append, run_members hmembers (run_member hgap' hgap'' (ends_of_written hvalue) _ _ _)]
      exact ends_complete slot _

/-- From the end of an item to the end of its list. -/
theorem run_items : ∀ {items : List Json} {chars : List Char}, ItemsWritten items chars →
    ∀ {scan : Scan} {before : List Reading} {outer : Context} {reading : Reading},
      scan.Ends (.item before outer) reading →
        scan.run chars = complete outer
          (.list ((reading :: before).reverse ++ Reading.ofItems items) none)
  | _, _, .nil hgap, scan, before, outer, reading, hscan => by
      -- A number ends only here: `step_eq` is what the closing bracket does to it.
      rw [run_append, run_cons, run_nil, (hscan.run_blank hgap).step_eq _ (by simp [Closes]),
        Reading.ofItems, List.append_nil]
      rfl
  | _, _, .cons hgap hgap' hitem hitems, scan, before, outer, reading, hscan => by
      have hcomma : afterValue (.item before outer) reading ',' =
          .value (.item (reading :: before) outer) := rfl
      rw [run_append, run_cons, (hscan.run_blank hgap).step_eq _ (by simp [Closes]), hcomma,
        run_append, run_blank (.value _) rfl hgap', run_append,
        run_items hitems (ends_of_written hitem _), Reading.ofItems]
      simp

/-- From the end of a member to the end of its record. -/
theorem run_members : ∀ {members : List (String × Json)} {chars : List Char},
    MembersWritten members chars → ∀ {scan : Scan} {before : List (Option String × Reading)}
      {key : Option String} {outer : Context} {reading : Reading},
      scan.Ends (.member before key outer) reading →
        scan.run chars = complete outer
          (.record (((key, reading) :: before).reverse ++ Reading.ofMembers members) none)
  | _, _, .nil hgap, scan, before, key, outer, reading, hscan => by
      rw [run_append, run_cons, run_nil, (hscan.run_blank hgap).step_eq _ (by simp [Closes]),
        Reading.ofMembers, List.append_nil]
      rfl
  | _, _, .cons key' hbefore hgap hgap' hgap'' hvalue hmembers, scan, before, key, outer, reading,
      hscan => by
      have hcomma : afterValue (.member before key outer) reading ',' =
          .recordKey ((key, reading) :: before) outer := rfl
      have hkey : (Scan.recordKey ((key, reading) :: before) outer).run (Json.quote key') =
          .colon ((key, reading) :: before) (some key') outer :=
        run_key key' _ outer
      rw [run_append, run_cons, (hscan.run_blank hbefore).step_eq _ (by simp [Closes]), hcomma,
        run_append, run_blank (.recordKey _ _) rfl hgap, run_append, hkey, run_append,
        run_members hmembers (run_member hgap' hgap'' (ends_of_written hvalue) _ _ _),
        Reading.ofMembers]
      simp

end

end Scan

/-! ### Whole texts -/

/-- A written value, with any blanks behind it, is read as that value. -/
theorem Page.ofChars_of_written {value : Json} {chars gap : List Char}
    (h : Json.Written value chars) (hgap : Json.Blank gap) :
    Page.ofChars (chars ++ gap) = ⟨.ofJson value, false⟩ := by
  have hend := (Scan.ends_of_written h .top).run_blank hgap
  rw [Page.ofChars, Scan.run_append, hend.settle_eq]
  rfl

end MonikerIndex
