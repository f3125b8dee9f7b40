import MonikerIndex.Graph.Codec
import MonikerIndex.Proofs.Json.Scanning
import MonikerIndex.Proofs.Outcome

/-!
# Decoders on written values

What each decoder makes of the reading of a written value. The lemmas are tagged for `simp`, so that
decoding a record whose members are known is a computation: each key finds its field, and each
field fills the draft.

The other way round, `Decoder.exists_draft_of_record` carries what every field guarantees over to
whatever a record decoder accepts.
-/

namespace MonikerIndex

variable {α σ τ : Type}

attribute [simp] Reading.ofJson Reading.ofItems Reading.ofMembers Reading.passEnd

@[simp] theorem ok_bind {ε β : Type} (value : α) (next : α → Except ε β) :
    (Except.ok value >>= next) = next value := rfl

@[simp] theorem ok_map {ε β : Type} (value : α) (change : α → β) :
    (Except.ok value : Except ε α).map change = .ok (change value) := rfl

theorem Reading.ofMembers_eq_map (members : List (String × Json)) :
    Reading.ofMembers members = members.map fun member => (some member.1, .ofJson member.2) := by
  induction members with
  | nil => rfl
  | cons member members ih => simp [ih]

theorem Reading.ofJson_ne_null {value : Json} (h : value ≠ .null) :
    Reading.ofJson value ≠ .null := by
  cases value with
  | null => exact absurd rfl h
  | _ => simp

theorem Reading.ofJson_ne_broken (value : Json) (first : Option Char) (breach : Breach) :
    Reading.ofJson value ≠ .broken first breach := by
  cases value <;> simp

/-! ### Numbers in written values -/

namespace Json

attribute [simp] Bounded BoundedItems BoundedMembers

@[simp] theorem boundedItems_map {write : α → Json} {values : List α} :
    BoundedItems (values.map write) ↔ ∀ value ∈ values, (write value).Bounded := by
  induction values with
  | nil => simp
  | cons value values ih => simp [ih]

theorem boundedMembers_iff {members : List (String × Json)} :
    BoundedMembers members ↔ ∀ member ∈ members, member.2.Bounded := by
  induction members with
  | nil => simp
  | cons member members ih => simp [ih]

@[simp] theorem bounded_ofOption {write : α → Json} {value? : Option α} :
    (ofOption write value?).Bounded ↔ ∀ value ∈ value?, (write value).Bounded := by
  cases value? with
  | none => simp [ofOption]
  | some value => simp [ofOption]

@[simp] theorem lt_size64 (n : UInt32) : n.toNat < UInt64.size :=
  Nat.lt_trans n.toNat_lt (by decide)

end Json

/-! ### Depth -/

namespace Json

mutual

/-- How deep lists and records are nested in a value. -/
def nesting : Json → Nat
  | .list items => nestingOfItems items + 1
  | .record members => nestingOfMembers members + 1
  | _ => 0

def nestingOfItems : List Json → Nat
  | [] => 0
  | item :: items => max item.nesting (nestingOfItems items)

def nestingOfMembers : List (String × Json) → Nat
  | [] => 0
  | (_, value) :: members => max value.nesting (nestingOfMembers members)

end

attribute [simp] nesting nestingOfItems nestingOfMembers

theorem nestingOfItems_map_nat (numbers : List Nat) : nestingOfItems (numbers.map .nat) = 0 := by
  induction numbers with
  | nil => rfl
  | cons n numbers ih => simp [ih]

end Json

mutual

theorem Reading.keep_ofJson : ∀ (value : Json) (depth : Nat), value.nesting < depth →
    (Reading.ofJson value).keep depth = .ok ()
  | .null, _, _ => rfl
  | .bool _, _, _ => rfl
  | .nat _, _, _ => rfl
  | .text _, _, _ => rfl
  | .list items, depth, h => by
      simp only [Json.nesting] at h
      have hdepth : ¬ depth ≤ 1 := by omega
      simp [keep, hdepth, keepItems_ofItems items (depth - 1) (by omega)]
  | .record members, depth, h => by
      simp only [Json.nesting] at h
      have hdepth : ¬ depth ≤ 1 := by omega
      simp [keep, hdepth, keepMembers_ofMembers members (depth - 1) (by omega)]

theorem Reading.keepItems_ofItems : ∀ (items : List Json) (depth : Nat),
    Json.nestingOfItems items < depth → keepItems depth (Reading.ofItems items) = .ok ()
  | [], _, _ => rfl
  | item :: items, depth, h => by
      simp only [Json.nestingOfItems, Nat.max_lt] at h
      simp [keepItems, Reading.keep_ofJson item depth h.1, keepItems_ofItems items depth h.2]

theorem Reading.keepMembers_ofMembers : ∀ (members : List (String × Json)) (depth : Nat),
    Json.nestingOfMembers members < depth → keepMembers depth (Reading.ofMembers members) = .ok ()
  | [], _, _ => rfl
  | (_, value) :: members, depth, h => by
      simp only [Json.nestingOfMembers, Nat.max_lt] at h
      simp [keepMembers, Reading.keep_ofJson value depth h.1,
        keepMembers_ofMembers members depth h.2]

end

namespace Decoder

/-! ### Single values -/

@[simp] theorem text_text (s : String) : text (.text s) = .ok s := rfl

@[simp] theorem flag_bool (b : Bool) : flag (.bool b) = .ok b := rfl

@[simp] theorem below_nat {n bound : Nat} (h : n < bound) : below bound (.nat n) = .ok n := by
  simp [below, h]

theorem lt_of_below {n bound : Nat} {reading : Reading} (h : below bound reading = .ok n) :
    n < bound := by
  cases reading <;> simp only [below] at h <;> try cases h
  split at h
  · next hlt =>
    cases h
    exact hlt
  · cases h

@[simp] theorem word32_nat (n : UInt32) : word32 (.nat n.toNat) = .ok n := by
  have hn : n.toNat < UInt32.size := n.toNat_lt
  simp [word32, hn]

theorem optional_of_ne {reading : Reading} (hnull : reading ≠ .null)
    (hbroken : ∀ first breach, reading ≠ .broken first breach) (value : Decoder α) :
    optional value reading = (value reading).map some := by
  unfold optional
  split
  · exact absurd rfl hnull
  · next breach => exact absurd rfl (hbroken (some 'n') breach)
  · rfl

/-- Null stands for none only if it is no value itself. -/
theorem optional_ofOption {write : α → Json} {value : Decoder α}
    (h : ∀ a, value (.ofJson (write a)) = .ok a) (hnull : ∀ a, write a ≠ .null) (a? : Option α) :
    optional value (.ofJson (Json.ofOption write a?)) = .ok a? := by
  cases a? with
  | none => rfl
  | some a =>
    rw [Json.ofOption, optional_of_ne (Reading.ofJson_ne_null (hnull a))
      (Reading.ofJson_ne_broken (write a)), h a]
    rfl

section Words

variable {words : List (String × α)} {word : String} {value : α}

theorem oneOf_text (h : words.lookup word = some value) : oneOf words (.text word) = .ok value := by
  simp [oneOf, h]

theorem ofWord_eq (h : words.lookup word = some value) : ofWord words word = .ok value := by
  simp [ofWord, h]

theorem keptOneOf_text (h : words.lookup word = some value) :
    keptOneOf words (.text word) = .ok value :=
  ofWord_eq h

theorem wordOrPlace_text (h : words.lookup word = some value) :
    wordOrPlace words (.text word) = .ok value :=
  ofWord_eq h

end Words

/-! ### Lists -/

theorem items_map {write : α → Json} {value : Decoder α} {values : List α}
    (h : ∀ a ∈ values, value (.ofJson (write a)) = .ok a) :
    items value (Reading.ofItems (values.map write)) = .ok values := by
  induction values with
  | nil => rfl
  | cons a values ih =>
    have hfirst := h a List.mem_cons_self
    have hothers := ih fun b hb => h b (List.mem_cons_of_mem a hb)
    simp [items, hfirst, hothers, pure, Except.pure]

theorem list_ofList {write : α → Json} {value : Decoder α} {values : List α}
    (h : ∀ a ∈ values, value (.ofJson (write a)) = .ok a) :
    list value (.ofJson (Json.ofList write values)) = .ok values := by
  simp [Json.ofList, list, items_map h, pure, Except.pure]

/-! ### Records -/

attribute [simp] fillMembers

@[simp] theorem record_record (fields : List (Field σ)) (empty : σ) (build : σ → Option α)
    (members : List (Option String × Reading)) :
    record fields empty build (.record members none) =
      (fillMembers fields empty members >>= fun draft =>
        (build draft).elim (.error .mismatch) .ok) := rfl

section Fields

variable (name : String) (omissible : Bool) (get : σ → Option α) (set : σ → α → σ)
  (value : Decoder α)

@[simp] theorem field_name : (field name omissible get set value).name = name := rfl

@[simp] theorem field_isSet (draft : σ) :
    (field name omissible get set value).isSet draft = (get draft).isSome := rfl

@[simp] theorem field_fill (draft : σ) (reading : Reading) :
    (field name omissible get set value).fill draft reading =
      (value reading).map (set draft) := rfl

end Fields

section Guarantees

variable {P : α → Prop} {value : Decoder α}

theorem forall_mem_of_optional (hvalue : ∀ reading a, value reading = .ok a → P a)
    {reading : Reading} {a? : Option α} (h : optional value reading = .ok a?) : ∀ a ∈ a?, P a := by
  unfold optional at h
  split at h
  · cases h
    simp
  · cases h
  · obtain ⟨a, ha, rfl⟩ := map_eq_ok_iff.mp h
    simpa using hvalue _ a ha

theorem forall_mem_of_items (hvalue : ∀ reading a, value reading = .ok a → P a)
    {readings : List Reading} {values : List α} (h : items value readings = .ok values) :
    ∀ a ∈ values, P a := by
  induction readings generalizing values with
  | nil =>
    cases h
    simp
  | cons reading readings ih =>
    obtain ⟨first, hfirst, h⟩ := bind_eq_ok_iff.mp h
    obtain ⟨others, hothers, h⟩ := bind_eq_ok_iff.mp h
    cases h
    rw [List.forall_mem_cons]
    exact ⟨hvalue reading first hfirst, ih hothers⟩

theorem forall_mem_of_list (hvalue : ∀ reading a, value reading = .ok a → P a)
    {reading : Reading} {values : List α} (h : list value reading = .ok values) :
    ∀ a ∈ values, P a := by
  cases reading with
  | list readings ending =>
    obtain ⟨found, hfound, h⟩ := bind_eq_ok_iff.mp h
    obtain ⟨_, _, h⟩ := bind_eq_ok_iff.mp h
    cases h
    exact forall_mem_of_items hvalue hfound
  | _ => cases h

theorem exists_body_of_tagged {name : String} {tag : Decoder τ} {body : τ → Decoder α}
    {reading : Reading} {a : α} (h : tagged name tag body reading = .ok a) :
    ∃ t rest, body t rest = .ok a := by
  unfold tagged at h
  split at h
  · split at h
    · obtain ⟨t, -, h⟩ := bind_eq_ok_iff.mp h
      exact ⟨t, _, h⟩
    · cases h
  · obtain ⟨t, -, h⟩ := bind_eq_ok_iff.mp h
    exact ⟨t, _, h⟩
  · cases h

end Guarantees

theorem eq_some_of_elim_eq_ok {value? : Option α} {fault : Fault} {value : α}
    (h : value?.elim (Except.error fault) Except.ok = .ok value) : value? = some value := by
  cases value? with
  | none => cases h
  | some found =>
    cases h
    rfl

section Invariants

variable {fields : List (Field σ)} {P : σ → Prop}

theorem fillMembers_invariant
    (hfill : ∀ field ∈ fields, ∀ draft reading draft', P draft →
      field.fill draft reading = .ok draft' → P draft')
    {members : List (Option String × Reading)} {draft draft' : σ} (hdraft : P draft)
    (h : fillMembers fields draft members = .ok draft') : P draft' := by
  fun_induction fillMembers fields draft members with
  | case1 draft =>
    cases h
    exact hdraft
  | case2 => cases h
  | case3 draft key reading members hfind ih =>
    obtain ⟨_, _, h⟩ := bind_eq_ok_iff.mp h
    exact ih hdraft h
  | case4 => cases h
  | case5 draft key reading members field hfind hset ih =>
    obtain ⟨next, hnext, h⟩ := bind_eq_ok_iff.mp h
    exact ih next (hfill field (List.mem_of_find?_eq_some hfind) draft reading next hdraft hnext) h

theorem fillItems_invariant
    (hfill : ∀ field ∈ fields, ∀ draft reading draft', P draft →
      field.fill draft reading = .ok draft' → P draft')
    {ending : Option Breach} {readings : List Reading} {draft draft' : σ} (hdraft : P draft)
    (h : fillItems ending fields draft readings = .ok draft') : P draft' := by
  fun_induction fillItems ending fields draft readings with
  | case1 draft =>
    obtain ⟨_, _, h⟩ := bind_eq_ok_iff.mp h
    cases h
    exact hdraft
  | case2 => cases h
  | case3 field fields draft =>
    obtain ⟨_, _, h⟩ := bind_eq_ok_iff.mp h
    dsimp only at h
    split at h
    · cases h
      exact hdraft
    · cases h
  | case4 field fields draft reading readings ih =>
    obtain ⟨next, hnext, h⟩ := bind_eq_ok_iff.mp h
    have hkept : P next := hfill field List.mem_cons_self draft reading next hdraft hnext
    exact ih next (fun other hother => hfill other (List.mem_cons_of_mem field hother)) hkept h

/-- What holds of the empty draft and is kept by every field holds of the draft that an accepted
    record was built from. -/
theorem exists_draft_of_record {empty : σ} {build : σ → Option α} {reading : Reading} {value : α}
    (hfill : ∀ field ∈ fields, ∀ draft reading draft', P draft →
      field.fill draft reading = .ok draft' → P draft')
    (hempty : P empty) (h : record fields empty build reading = .ok value) :
    ∃ draft, P draft ∧ build draft = some value := by
  cases reading with
  | record members ending =>
    obtain ⟨draft, hdraft, h⟩ := bind_eq_ok_iff.mp h
    obtain ⟨_, _, h⟩ := bind_eq_ok_iff.mp h
    exact ⟨draft, fillMembers_invariant hfill hempty hdraft, eq_some_of_elim_eq_ok h⟩
  | list readings ending =>
    obtain ⟨draft, hdraft, h⟩ := bind_eq_ok_iff.mp h
    exact ⟨draft, fillItems_invariant hfill hempty hdraft, eq_some_of_elim_eq_ok h⟩
  | _ => cases h

end Invariants

/-- A tag is found wherever no other member has its name. -/
theorem tagged_ofMembers {name : String} {members : List (String × Json)}
    (hname : ∀ member ∈ members, member.1 ≠ name) (value : Json) (tag : Decoder τ)
    (body : τ → Decoder α) :
    tagged name tag body (.record (Reading.ofMembers ((name, value) :: members)) none) =
      (tag (.ofJson value) >>= fun t => body t (.record (Reading.ofMembers members) none)) := by
  have hnone : (Reading.ofMembers members).filter (·.1 == some name) = [] := by
    rw [Reading.ofMembers_eq_map, List.filter_eq_nil_iff]
    intro member hmember
    obtain ⟨source, hsource, rfl⟩ := List.mem_map.mp hmember
    simpa using hname source hsource
  have hall : (Reading.ofMembers members).filter (·.1 != some name) =
      Reading.ofMembers members := by
    rw [Reading.ofMembers_eq_map, List.filter_eq_self]
    intro member hmember
    obtain ⟨source, hsource, rfl⟩ := List.mem_map.mp hmember
    simpa using hname source hsource
  simp [tagged, hnone, hall]

end Decoder

theorem Page.decode_eq_ok_iff {page : Page} {value : Decoder α} {a : α} :
    page.decode value = .ok a ↔ value page.body = .ok a ∧ page.trailing = false := by
  unfold Page.decode
  rw [bind_eq_ok_iff]
  cases page.trailing with
  | true => simp [throw, throwThe, MonadExceptOf.throw]
  | false => simp [pure, Except.pure]

/-- A written value, with any blanks behind it, is decoded as its decoder says. -/
theorem Page.decode_of_written {value : Decoder α} {json : Json} {a : α} {chars gap : List Char}
    (hwritten : Json.Written json chars) (hgap : Json.Blank gap)
    (hvalue : value (.ofJson json) = .ok a) :
    (Page.ofText (String.ofList (chars ++ gap))).decode value = .ok a := by
  rw [Page.ofText, String.toList_ofList, Page.ofChars_of_written hwritten hgap]
  exact Page.decode_eq_ok_iff.mpr ⟨hvalue, rfl⟩

end MonikerIndex
