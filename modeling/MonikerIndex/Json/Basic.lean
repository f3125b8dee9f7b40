/-!
# JSON values and their text

The values this library writes are built from null, truth values, natural numbers, texts,
lists and records. A record keeps its members in the order in which they were given: that order
is part of the written form.

There are two written forms. The compact one has no blank at all; the pretty one puts every
item and member on a line of its own, two blanks deeper than the bracket it stands in. Both
escape a text in the same way: only the quotation mark, the backslash and the control characters
are escaped, so every other character stands for itself.
-/

namespace MonikerIndex

/-- A JSON value to be written. -/
inductive Json where
  | null
  | bool (value : Bool)
  | nat (value : Nat)
  | text (value : String)
  | list (items : List Json)
  | record (members : List (String × Json))
  deriving Repr, Inhabited

namespace Json

/-! ### Optional values -/

/-- An optional value, with null for none. -/
def ofOption (write : α → Json) : Option α → Json
  | none => .null
  | some value => write value

/-- A list of values of one type. -/
def ofList (write : α → Json) (values : List α) : Json :=
  .list (values.map write)

/-! ### Texts -/

/-- The lower-case hexadecimal digit of a number below sixteen. -/
def hexDigit (n : Nat) : Char :=
  if n < 10 then Char.ofNat (48 + n) else Char.ofNat (87 + n)

/-- The written form of one character inside a quoted text. -/
def escape (c : Char) : List Char :=
  if c = '"' then ['\\', '"']
  else if c = '\\' then ['\\', '\\']
  else if c = '\n' then ['\\', 'n']
  else if c = '\t' then ['\\', 't']
  else if c = '\r' then ['\\', 'r']
  else if c.toNat = 8 then ['\\', 'b']
  else if c.toNat = 12 then ['\\', 'f']
  else if c.toNat < 32 then
    ['\\', 'u', '0', '0', hexDigit (c.toNat / 16), hexDigit (c.toNat % 16)]
  else [c]

/-- A text between quotation marks. -/
def quote (s : String) : List Char :=
  '"' :: (s.toList.flatMap escape ++ ['"'])

/-- The decimal digits of a number. -/
def decimal (n : Nat) : List Char :=
  Nat.toDigits 10 n

/-! ### The compact form -/

mutual

/-- The characters of the compact form. -/
def compactChars : Json → List Char
  | .null => ['n', 'u', 'l', 'l']
  | .bool true => ['t', 'r', 'u', 'e']
  | .bool false => ['f', 'a', 'l', 's', 'e']
  | .nat n => decimal n
  | .text s => quote s
  | .list [] => ['[', ']']
  | .list (item :: items) => '[' :: (compactChars item ++ (compactItems items ++ [']']))
  | .record [] => ['\x7b', '\x7d']
  | .record ((key, value) :: members) =>
      '\x7b' :: (quote key ++ (':' :: (compactChars value ++ (compactMembers members ++ ['\x7d']))))

/-- The items after the first, each behind a comma. -/
def compactItems : List Json → List Char
  | [] => []
  | item :: items => ',' :: (compactChars item ++ compactItems items)

/-- The members after the first, each behind a comma. -/
def compactMembers : List (String × Json) → List Char
  | [] => []
  | (key, value) :: members =>
      ',' :: (quote key ++ (':' :: (compactChars value ++ compactMembers members)))

end

/-- The compact text of a value. -/
def compact (value : Json) : String :=
  String.ofList value.compactChars

/-! ### The pretty form -/

/-- A line break and the indentation of the given depth. -/
def newline (depth : Nat) : List Char :=
  '\n' :: List.replicate (2 * depth) ' '

mutual

/-- The characters of the pretty form of a value that stands at the given depth. -/
def prettyChars (depth : Nat) : Json → List Char
  | .null => ['n', 'u', 'l', 'l']
  | .bool true => ['t', 'r', 'u', 'e']
  | .bool false => ['f', 'a', 'l', 's', 'e']
  | .nat n => decimal n
  | .text s => quote s
  | .list [] => ['[', ']']
  | .list (item :: items) =>
      '[' :: (newline (depth + 1) ++ (prettyChars (depth + 1) item ++
        (prettyItems (depth + 1) items ++ (newline depth ++ [']']))))
  | .record [] => ['\x7b', '\x7d']
  | .record ((key, value) :: members) =>
      '\x7b' :: (newline (depth + 1) ++ (quote key ++ (':' :: ' ' ::
        (prettyChars (depth + 1) value ++ (prettyMembers (depth + 1) members ++
          (newline depth ++ ['\x7d']))))))

/-- The items after the first, each behind a comma and on a line of its own. -/
def prettyItems (depth : Nat) : List Json → List Char
  | [] => []
  | item :: items => ',' :: (newline depth ++ (prettyChars depth item ++ prettyItems depth items))

/-- The members after the first, each behind a comma and on a line of its own. -/
def prettyMembers (depth : Nat) : List (String × Json) → List Char
  | [] => []
  | (key, value) :: members =>
      ',' :: (newline depth ++ (quote key ++ (':' :: ' ' :: (prettyChars depth value ++
        prettyMembers depth members))))

end

/-- The pretty text of a value, without a line break at its end. -/
def pretty (value : Json) : String :=
  String.ofList (value.prettyChars 0)

end Json

end MonikerIndex
