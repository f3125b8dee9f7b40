import MonikerIndex.Json.Numeral

/-!
# Scanning a JSON text

The scanner is a machine that takes one character at a time, so that scanning a text is a fold and
scanning `a ++ b` is scanning `a` and then `b`. Its state holds what has been read of every open
list and record. When a character does not fit, or when the text ends too early, that state is
closed into a `Reading` which has the fault at the place where it arose; nothing after it is
looked at.

The grammar is strict: blanks are the four of the standard, numbers have no leading zeros, texts
have no raw control characters, and only blanks may follow the value.
-/

namespace MonikerIndex

/-- What a whole text says: its value, and whether more than blanks follow it. -/
structure Page where
  body : Reading
  trailing : Bool
  deriving Repr, Inhabited

/-- Where a value stands: alone, as an item of a list, or as the value of a member. Earlier items
    and members are kept with the newest first. -/
inductive Context where
  | top
  | item (before : List Reading) (outer : Context)
  | member (before : List (Option String × Reading)) (key : Option String) (outer : Context)
  deriving Repr, Inhabited

/-- What the text says in all when it breaks off with the given reading at this place. -/
def Context.abandon : Context → Reading → Breach → Reading
  | .top, reading, _ => reading
  | .item before outer, reading, breach =>
      outer.abandon (.list (reading :: before).reverse (some breach)) breach
  | .member before key outer, reading, breach =>
      outer.abandon (.record ((key, reading) :: before).reverse (some breach)) breach

/-! ### Quoted texts -/

/-- Where the scanner is inside a quoted text: between characters, behind a backslash, or with some
    of the four bytes of a hexadecimal escape still to come. The escape has a value as long as
    those bytes are digits; whether they are is decided when all four are there. -/
inductive TextState where
  | plain
  | backslash
  | hex (left : Nat) (value : Option Nat)
  deriving DecidableEq, Repr, Inhabited

/-- A quoted text so far. `lead` is a leading surrogate whose other half has to follow at once, and
    `sound` says that every surrogate before it had its other half. -/
structure TextScan where
  chars : List Char
  lead : Option Nat
  sound : Bool
  state : TextState
  deriving Repr, Inhabited

namespace TextScan

/-- A text of which only the opening quotation mark has been read. -/
def start : TextScan := ⟨[], none, true, .plain⟩

/-- Adds a character that is not a surrogate. A leading surrogate before it stays alone. -/
def push (scan : TextScan) (c : Char) : TextScan :=
  ⟨c :: scan.chars, none, scan.sound && scan.lead.isNone, .plain⟩

/-- Adds the sixteen-bit unit of a hexadecimal escape. -/
def pushUnit (scan : TextScan) (unit : Nat) : TextScan :=
  if 0xD800 ≤ unit ∧ unit < 0xDC00 then
    ⟨scan.chars, some unit, scan.sound && scan.lead.isNone, .plain⟩
  else if 0xDC00 ≤ unit ∧ unit < 0xE000 then
    match scan.lead with
    | some lead =>
        ⟨Char.ofNat (0x10000 + (lead - 0xD800) * 0x400 + (unit - 0xDC00)) :: scan.chars,
          none, scan.sound, .plain⟩
    | none => ⟨scan.chars, none, false, .plain⟩
  else scan.push (Char.ofNat unit)

/-- The value of a hexadecimal digit of either case. -/
def hexValue (c : Char) : Option Nat :=
  if '0' ≤ c ∧ c ≤ '9' then some (c.toNat - 48)
  else if 'a' ≤ c ∧ c ≤ 'f' then some (c.toNat - 87)
  else if 'A' ≤ c ∧ c ≤ 'F' then some (c.toNat - 55)
  else none

/-- The character that a one-letter escape stands for. -/
def escaped (c : Char) : Option Char :=
  if c = '"' then some '"'
  else if c = '\\' then some '\\'
  else if c = '/' then some '/'
  else if c = 'n' then some '\n'
  else if c = 't' then some '\t'
  else if c = 'r' then some '\r'
  else if c = 'b' then some (Char.ofNat 8)
  else if c = 'f' then some (Char.ofNat 12)
  else none

/-- One more character of the text, which is not the closing quotation mark. -/
def step (scan : TextScan) (c : Char) : Option TextScan :=
  match scan.state with
  | .plain =>
      if c = '\\' then some { scan with state := .backslash }
      else if c.toNat < 32 then none
      else some (scan.push c)
  | .backslash =>
      if c = 'u' then some { scan with state := .hex 4 (some 0) }
      else (escaped c).map scan.push
  | .hex left value =>
      let value := value.bind fun high => (hexValue c).map (16 * high + ·)
      if c.utf8Size < left then some { scan with state := .hex (left - c.utf8Size) value }
      else value.map scan.pushUnit

/-- Whether a quotation mark would close the text here. -/
def closes (scan : TextScan) (c : Char) : Bool :=
  c == '"' && scan.state == .plain

/-- The text, unless it holds a surrogate without its other half. -/
def result (scan : TextScan) : Option String :=
  if scan.sound && scan.lead.isNone then some (String.ofList scan.chars.reverse) else none

/-- What it counts as when the next character does not fit into this quoted text. -/
def misfit (inKey : Bool) : Breach := ⟨.malformed, .malformed, inKey⟩

/-- What it counts as when the text of a JSON document ends inside this quoted text. -/
def cut (scan : TextScan) (inKey : Bool) : Breach :=
  ⟨if scan.sound then .truncated else .malformed, .truncated, inKey⟩

end TextScan

/-- Where a quoted text stands: as a value, or as the key of a record's next member. -/
inductive TextRole where
  | value (slot : Context)
  | key (members : List (Option String × Reading)) (outer : Context)
  deriving Repr, Inhabited

/-! ### The machine -/

/-- The state of the scanner between two characters. -/
inductive Scan where
  /-- A value has to follow. -/
  | value (slot : Context)
  /-- Behind an opening bracket: an item or the closing bracket. -/
  | listStart (outer : Context)
  /-- Behind an item: a comma or the closing bracket. -/
  | listNext (items : List Reading) (outer : Context)
  /-- Behind an opening brace: a key or the closing brace. -/
  | recordStart (outer : Context)
  /-- Behind a comma in a record: a key. -/
  | recordKey (members : List (Option String × Reading)) (outer : Context)
  /-- Behind a key: a colon. -/
  | colon (members : List (Option String × Reading)) (key : Option String) (outer : Context)
  /-- Behind a member: a comma or the closing brace. -/
  | recordNext (members : List (Option String × Reading)) (outer : Context)
  /-- Inside a quoted text. -/
  | text (scan : TextScan) (role : TextRole)
  /-- Inside a number, with its characters so far, the newest first. -/
  | number (part : NumberPart) (token : List Char) (slot : Context)
  /-- Inside one of the three words, with the letters still to come. -/
  | word (first : Char) (left : List Char) (meaning : Reading) (slot : Context)
  /-- Behind the whole value: only blanks may follow. -/
  | finished (value : Reading)
  /-- The text is no longer JSON, and the rest of it does not matter. -/
  | stopped (page : Page)
  deriving Repr, Inhabited

namespace Scan

/-- The four blanks of the standard. -/
def isBlank (c : Char) : Bool :=
  c == ' ' || c == '\n' || c == '\t' || c == '\r'

/-- The state after a complete value. -/
def complete (slot : Context) (value : Reading) : Scan :=
  match slot with
  | .top => .finished value
  | .item before outer => .listNext (value :: before) outer
  | .member before key outer => .recordNext ((key, value) :: before) outer

/-- What the text says when it breaks off where a value stands. -/
def leave (slot : Context) (first : Option Char) (breach : Breach) : Page :=
  ⟨slot.abandon (.broken first breach) breach, false⟩

/-- What the text says when it breaks off inside a list, where no item stands. -/
def leaveList (items : List Reading) (outer : Context) (breach : Breach) : Page :=
  ⟨outer.abandon (.list items.reverse (some breach)) breach, false⟩

/-- What the text says when it breaks off inside a record, where no value stands. -/
def leaveRecord (members : List (Option String × Reading)) (outer : Context) (breach : Breach) :
    Page :=
  ⟨outer.abandon (.record members.reverse (some breach)) breach, false⟩

/-- A character that no value starts with or goes on with. -/
def stop (slot : Context) (first : Option Char) : Scan :=
  .stopped (leave slot first (.ofFault .malformed))

/-- The first character of a value; blanks have been passed. -/
def startValue (slot : Context) (c : Char) : Scan :=
  if c = '\x7b' then .recordStart slot
  else if c = '[' then .listStart slot
  else if c = '"' then .text .start (.value slot)
  else if c = '-' then .number .minus [c] slot
  else if c = '0' then .number .zero [c] slot
  else if c.isDigit then .number .whole [c] slot
  else if c = 't' then .word c ['r', 'u', 'e'] (.bool true) slot
  else if c = 'f' then .word c ['a', 'l', 's', 'e'] (.bool false) slot
  else if c = 'n' then .word c ['u', 'l', 'l'] .null slot
  else stop slot (some c)

/-- The first character of a key; blanks have been passed. -/
def startKey (members : List (Option String × Reading)) (outer : Context) (c : Char) : Scan :=
  if c = '"' then .text .start (.key members outer)
  else .stopped (leaveRecord members outer (TextScan.misfit true))

/-- One character behind an item of a list. -/
def afterItem (items : List Reading) (outer : Context) (c : Char) : Scan :=
  if isBlank c then .listNext items outer
  else if c = ',' then .value (.item items outer)
  else if c = ']' then complete outer (.list items.reverse none)
  else .stopped (leaveList items outer (.ofFault .malformed))

/-- One character behind a member of a record. -/
def afterMember (members : List (Option String × Reading)) (outer : Context) (c : Char) : Scan :=
  if isBlank c then .recordNext members outer
  else if c = ',' then .recordKey members outer
  else if c = '\x7d' then complete outer (.record members.reverse none)
  else .stopped (leaveRecord members outer (.ofFault .malformed))

/-- One character behind a complete value. -/
def afterValue (slot : Context) (value : Reading) (c : Char) : Scan :=
  match slot with
  | .top => if isBlank c then .finished value else .stopped ⟨value, true⟩
  | .item before outer => afterItem (value :: before) outer c
  | .member before key outer => afterMember ((key, value) :: before) outer c

/-- One character inside a quoted text. -/
def inText (scan : TextScan) (role : TextRole) (c : Char) : Scan :=
  if scan.closes c then
    match role with
    | .value slot => complete slot (scan.result.elim .refused .text)
    | .key members outer => .colon members scan.result outer
  else
    match scan.step c, role with
    | some scan, role => .text scan role
    | none, .value slot => .stopped (leave slot (some '"') (TextScan.misfit false))
    | none, .key members outer => .stopped (leaveRecord members outer (TextScan.misfit true))

/-- One character behind a part of a number. -/
def inNumber (part : NumberPart) (token : List Char) (slot : Context) (c : Char) : Scan :=
  match part.next c with
  | some part => .number part (c :: token) slot
  | none =>
      if part.isEnd && !(part == .zero && c.isDigit) then
        afterValue slot (Numeral.reading token.reverse) c
      else stop slot token.getLast?

/-- One character inside a word. -/
def inWord (first : Char) (left : List Char) (meaning : Reading) (slot : Context) (c : Char) :
    Scan :=
  match left with
  | [] => afterValue slot meaning c
  | expected :: left =>
      if c = expected then
        if left.isEmpty then complete slot meaning else .word first left meaning slot
      else stop slot (some first)

/-- One character of the text. -/
def step (scan : Scan) (c : Char) : Scan :=
  match scan with
  | .value slot => if isBlank c then .value slot else startValue slot c
  | .listStart outer =>
      if isBlank c then .listStart outer
      else if c = ']' then complete outer (.list [] none)
      else startValue (.item [] outer) c
  | .listNext items outer => afterItem items outer c
  | .recordStart outer =>
      if isBlank c then .recordStart outer
      else if c = '\x7d' then complete outer (.record [] none)
      else startKey [] outer c
  | .recordKey members outer =>
      if isBlank c then .recordKey members outer else startKey members outer c
  | .colon members key outer =>
      if isBlank c then .colon members key outer
      else if c = ':' then .value (.member members key outer)
      else stop (.member members key outer) (some c)
  | .recordNext members outer => afterMember members outer c
  | .text scan role => inText scan role c
  | .number part token slot => inNumber part token slot c
  | .word first left meaning slot => inWord first left meaning slot c
  | .finished whole => afterValue .top whole c
  | .stopped page => .stopped page

/-- The state with a complete number at the very end of the text closed. -/
def settle (scan : Scan) : Scan :=
  match scan with
  | .number part token slot =>
      if part.isEnd then complete slot (Numeral.reading token.reverse) else scan
  | other => other

/-- What the text says when it ends in this state. -/
def finish (scan : Scan) : Page :=
  match scan with
  | .value slot => leave slot none (.ofFault .truncated)
  | .listStart outer => leaveList [] outer (.ofFault .truncated)
  | .listNext items outer => leaveList items outer (.ofFault .truncated)
  | .recordStart outer => leaveRecord [] outer (.ofFault .truncated)
  | .recordKey members outer => leaveRecord members outer (TextScan.start.cut true)
  | .colon members key outer => leave (.member members key outer) none (.ofFault .truncated)
  | .recordNext members outer => leaveRecord members outer (.ofFault .truncated)
  | .text scan (.value slot) => leave slot (some '"') (scan.cut false)
  | .text scan (.key members outer) => leaveRecord members outer (scan.cut true)
  | .number _ token slot => leave slot token.getLast? ⟨.truncated, .malformed, false⟩
  | .word first _ _ slot => leave slot (some first) (.ofFault .truncated)
  | .finished whole => ⟨whole, false⟩
  | .stopped page => page

/-- The state after all characters of a text. -/
def run (scan : Scan) (chars : List Char) : Scan :=
  chars.foldl step scan

end Scan

/-- What a sequence of characters says as a JSON text. -/
def Page.ofChars (chars : List Char) : Page :=
  (Scan.run (.value .top) chars).settle.finish

/-- What a text says as JSON. -/
def Page.ofText (text : String) : Page :=
  Page.ofChars text.toList

end MonikerIndex
