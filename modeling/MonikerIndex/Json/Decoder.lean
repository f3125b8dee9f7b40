import MonikerIndex.Json.Scan

/-!
# From readings to values

A decoder turns a reading into a value of the expected type, or reports the first fault that a
reader who goes through the text from left to right would meet.

Records are the main case. A record of the domain may be written as a JSON record, with its
members in any order and unknown ones between them, or as a list that gives the fields in their
declared order. The fields fill a draft one after the other, and a complete draft becomes the
value.
-/

namespace MonikerIndex

/-- How to get a value from a reading. -/
abbrev Decoder (α : Type) := Reading → Except Fault α

namespace Decoder

/-! ### Single values -/

/-- A text. -/
def text : Decoder String
  | .text s => .ok s
  | other => .error other.unexpected

/-- A truth value. -/
def flag : Decoder Bool
  | .bool b => .ok b
  | other => .error other.unexpected

/-- A natural number below a bound. -/
def below (bound : Nat) : Decoder Nat
  | .nat n => if n < bound then .ok n else .error .mismatch
  | other => .error other.unexpected

/-- A number of thirty-two bits. -/
def word32 : Decoder UInt32 := fun reading =>
  (below UInt32.size reading).map UInt32.ofNat

/-- Null for none, or a value. -/
def optional (value : Decoder α) : Decoder (Option α)
  | .null => .ok none
  | .broken (some 'n') breach => .error breach.read
  | other => (value other).map some

/-- One of several words. A word may also be the only key of a record that has null as its value.
    No other token than a quoted text or a record is looked into. -/
def oneOf (words : List (String × α)) : Decoder α := fun reading =>
  let find (word : String) : Except Fault α :=
    match words.lookup word with
    | some value => .ok value
    | none => .error .mismatch
  match reading with
  | .text word => find word
  | .record [] ending => .error (ending.elim .malformed (·.read))
  | .record ((none, _) :: _) _ => .error .malformed
  | .record ((some word, inner) :: rest) ending => do
      let value ← find word
      match inner with
      | .null => pure ()
      | other => throw other.unexpected
      unless rest.isEmpty do throw .malformed
      Reading.passLastEnd ending
      return value
  | .broken none breach => .error breach.read
  | .broken (some '"') breach => .error breach.read
  | _ => .error .malformed

/-- The values of the items of a list. -/
def items (value : Decoder α) : List Reading → Except Fault (List α)
  | [] => .ok []
  | item :: rest => do
      let first ← value item
      let others ← items value rest
      return first :: others

/-- A list of values of one kind. -/
def list (value : Decoder α) : Decoder (List α)
  | .list readings ending => do
      let values ← items value readings
      Reading.passEnd ending
      return values
  | other => .error other.unexpected

/-! ### Records -/

/-- One field of a record, as it fills a draft of type `σ`. -/
structure Field (σ : Type) where
  name : String
  /-- Whether the field may be left off at the end of the list form. -/
  omissible : Bool
  /-- Whether the draft has a value for the field. -/
  isSet : σ → Bool
  /-- Puts the field's value into the draft. -/
  fill : σ → Reading → Except Fault σ

/-- A field given by its place in the draft and the decoder of its values. -/
def field (name : String) (omissible : Bool) (get : σ → Option α) (set : σ → α → σ)
    (value : Decoder α) : Field σ where
  name := name
  omissible := omissible
  isSet draft := (get draft).isSome
  fill draft reading := (value reading).map (set draft)

/-- Goes through the members of a record. A known key must not come twice; the value of an
    unknown key is passed over. -/
def fillMembers (fields : List (Field σ)) : σ → List (Option String × Reading) → Except Fault σ
  | draft, [] => .ok draft
  | _, (none, _) :: _ => .error .malformed
  | draft, (some key, reading) :: members =>
      match fields.find? (·.name == key) with
      | none => do
          reading.skip
          fillMembers fields draft members
      | some field =>
          if field.isSet draft then .error .mismatch
          else do
            let draft ← field.fill draft reading
            fillMembers fields draft members

/-- Goes through the items of the list form. Items beyond the last field do not belong there. -/
def fillItems (ending : Option Breach) : List (Field σ) → σ → List Reading → Except Fault σ
  | [], draft, [] => do
      Reading.passEnd ending
      return draft
  | [], _, _ :: _ => .error .malformed
  | fields@(_ :: _), draft, [] => do
      Reading.passEnd ending
      unless fields.all (·.omissible) do throw .mismatch
      return draft
  | field :: fields, draft, reading :: readings => do
      let draft ← field.fill draft reading
      fillItems ending fields draft readings

/-- A record in either form. -/
def record (fields : List (Field σ)) (empty : σ) (build : σ → Option α) : Decoder α
  | .record members ending => do
      let draft ← fillMembers fields empty members
      Reading.passEnd ending
      (build draft).elim (.error .mismatch) .ok
  | .list readings ending => do
      let draft ← fillItems ending fields empty readings
      (build draft).elim (.error .mismatch) .ok
  | other => .error other.unexpected

end Decoder

/-- The value that a whole text writes. What follows the value matters only if the value is as
    expected. -/
def Page.decode (value : Decoder α) (page : Page) : Except Fault α := do
  let result ← value page.body
  if page.trailing then throw .malformed
  return result

end MonikerIndex
