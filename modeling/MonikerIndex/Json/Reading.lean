import MonikerIndex.Json.Basic

/-!
# What a JSON text says, as far as it goes

A text is read from left to right, and a reader that knows which shape it expects may refuse it
before its end: at a member of the wrong type, say, although the closing bracket is missing too.
Which of the two faults is reported depends on which one stands first. So the outcome of scanning
a text is not "a value or an error" but a `Reading`: the value as far as the text is JSON, with a
mark at the place where it stops being JSON.

Three kinds of fault are told apart:
* `malformed`: a character that the grammar does not allow at its place;
* `truncated`: the text ends too early;
* `mismatch`: well-formed JSON of another shape than the expected one.

Numbers matter here only if they are natural numbers in plain decimal notation. Any other
well-formed number is the one reading `number`.
-/

namespace MonikerIndex

/-- The kinds of fault in a JSON text. -/
inductive Fault where
  | malformed
  | truncated
  | mismatch
  deriving DecidableEq, Repr, Inhabited

/-- Where a text stops being JSON. What that counts as depends on who goes over the text: whoever
    reads the tokens for their meaning may stumble earlier than whoever passes over them. -/
structure Breach where
  /-- The fault for a reader who wants the meaning of the tokens. -/
  read : Fault
  /-- The fault for a reader who passes over them. A lone surrogate does not stop this reader, and
      a number that the end of the text cuts off is malformed. -/
  passed : Fault
  /-- Whether the text breaks off in the key of a member, or where that key should start. -/
  inKey : Bool
  deriving DecidableEq, Repr, Inhabited

/-- A breach that counts as the same fault for every reader. -/
def Breach.ofFault (fault : Fault) : Breach := ⟨fault, fault, false⟩

/-- What a text says where a value stands.

A list or a record that was left open has the breach in place of its end. A key is `none` when it
is a quoted text that holds a lone surrogate. -/
inductive Reading where
  | null
  | bool (value : Bool)
  /-- A natural number in plain decimal notation. -/
  | nat (value : Nat)
  /-- Any other number: with a sign, a fraction or an exponent. -/
  | number
  | text (value : String)
  /-- A complete token that has no meaning: a quoted text with a lone surrogate, or a number
      beyond all doubles. It can be passed over, but not read. -/
  | refused
  | list (items : List Reading) (ending : Option Breach)
  | record (members : List (Option String × Reading)) (ending : Option Breach)
  /-- The text breaks off in a token or before it; `first` is the token's first character. -/
  | broken (first : Option Char) (breach : Breach)
  deriving Repr, Inhabited

namespace Reading

/-! ### The reading of a value -/

mutual

/-- The reading of a text that writes the given value. -/
def ofJson : Json → Reading
  | .null => .null
  | .bool b => .bool b
  | .nat n => .nat n
  | .text s => .text s
  | .list items => .list (ofItems items) none
  | .record members => .record (ofMembers members) none

/-- The readings of the items of a list. -/
def ofItems : List Json → List Reading
  | [] => []
  | item :: items => ofJson item :: ofItems items

/-- The readings of the members of a record. -/
def ofMembers : List (String × Json) → List (Option String × Reading)
  | [] => []
  | (key, value) :: members => (some key, ofJson value) :: ofMembers members

end

/-! ### Ends and gaps -/

/-- Passes the end of a list or record, if it is there. -/
def passEnd : Option Breach → Except Fault Unit
  | none => .ok ()
  | some breach => .error breach.read

/-- Passes the end of a record that must not have another member. When the text breaks off in a
    further key, the comma before that key is already wrong. -/
def passLastEnd : Option Breach → Except Fault Unit
  | none => .ok ()
  | some breach => .error (if breach.inKey then .malformed else breach.read)

/-- The fault to report when a reading is not of the expected shape. -/
def unexpected : Reading → Fault
  | .broken _ breach => breach.read
  | .refused => .malformed
  | _ => .mismatch

/-! ### Passing over a value -/

/-- Passes over the end of a list or record, if it is there. -/
def skipEnd : Option Breach → Except Fault Unit
  | none => .ok ()
  | some breach => .error breach.passed

mutual

/-- Passes over a value whose meaning is of no interest. Only the grammar is checked. -/
def skip : Reading → Except Fault Unit
  | .list items ending => do skipItems items; skipEnd ending
  | .record members ending => do skipMembers members; skipEnd ending
  | .broken _ breach => .error breach.passed
  | _ => .ok ()

/-- Passes over the items of a list. -/
def skipItems : List Reading → Except Fault Unit
  | [] => .ok ()
  | item :: items => do skip item; skipItems items

/-- Passes over the members of a record. -/
def skipMembers : List (Option String × Reading) → Except Fault Unit
  | [] => .ok ()
  | (_, value) :: members => do skip value; skipMembers members

end

/-! ### Keeping a value for later -/

mutual

/-- Checks that a value can be kept for a later look: every token has a meaning, and lists and
    records are nested less than `depth` deep. -/
def keep (depth : Nat) : Reading → Except Fault Unit
  | .list items ending => do
      if depth ≤ 1 then throw .malformed
      keepItems (depth - 1) items
      passEnd ending
  | .record members ending => do
      if depth ≤ 1 then throw .malformed
      keepMembers (depth - 1) members
      passEnd ending
  | .broken _ breach => .error breach.read
  | .refused => .error .malformed
  | _ => .ok ()

/-- Checks the items of a list. -/
def keepItems (depth : Nat) : List Reading → Except Fault Unit
  | [] => .ok ()
  | item :: items => do keep depth item; keepItems depth items

/-- Checks the members of a record. -/
def keepMembers (depth : Nat) : List (Option String × Reading) → Except Fault Unit
  | [] => .ok ()
  | (none, _) :: _ => .error .malformed
  | (some _, value) :: members => do keep depth value; keepMembers depth members

end

end Reading

end MonikerIndex
