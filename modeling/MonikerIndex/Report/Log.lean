/-!
# The log

An entry of the log has a message and named values. A message is shown with those control
characters written out that a terminal might take for a command; line ends and values are shown as
they are.
-/

namespace MonikerIndex

/-- An entry of the log. -/
structure LogEntry where
  message : String
  /-- Named values. -/
  fields : List (String × String) := []
  deriving DecidableEq, Repr, Inhabited

namespace LogEntry

/-- The digits of a number in hexadecimal notation. -/
def hexDigits (n : Nat) : List Char :=
  Nat.toDigits 16 n

/-- How a character of a message is shown. Escape, bell, backspace, form feed and delete are written
    with two digits, and the control characters beyond ASCII with their number in braces. -/
def escape (c : Char) : List Char :=
  let code := c.toNat
  if code = 0x07 ∨ code = 0x08 ∨ code = 0x0c then '\\' :: 'x' :: '0' :: hexDigits code
  else if code = 0x1b ∨ code = 0x7f then '\\' :: 'x' :: hexDigits code
  else if 0x80 ≤ code ∧ code ≤ 0x9f then
    '\\' :: 'u' :: '\x7b' :: (hexDigits code ++ ['\x7d'])
  else [c]

/-- An entry as it is shown. -/
def render (entry : LogEntry) : String :=
  entry.fields.foldl (fun text (name, value) => text ++ " " ++ name ++ "=" ++ value)
    (String.ofList (entry.message.toList.flatMap escape))

end LogEntry

end MonikerIndex
