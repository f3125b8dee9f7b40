/-!
# Points in time in settings

A date, a time of day, or both with an offset from universal time. They may stand anywhere in
settings, but no setting takes one, so it is enough to pass over them.
-/

namespace MonikerIndex.Toml

/-- Reads a number of exactly the given count of digits. -/
def digits? (count : Nat) (chars : List Char) : Option (Nat × List Char) :=
  let digits := chars.take count
  if digits.length = count ∧ digits.all Char.isDigit then
    some (Nat.ofDigitChars 10 digits 0, chars.drop count)
  else none

/-- Passes a character of a class. -/
def passChar (isExpected : Char → Bool) : List Char → Option (List Char)
  | [] => none
  | c :: rest => if isExpected c then some rest else none

/-- The number of days in a month. -/
def daysIn (year month : Nat) : Nat :=
  if month = 2 then
    if year % 4 = 0 ∧ (year % 100 ≠ 0 ∨ year % 400 = 0) then 29 else 28
  else if month = 4 ∨ month = 6 ∨ month = 9 ∨ month = 11 then 30
  else 31

/-- Passes a date. -/
def passDate (chars : List Char) : Option (List Char) := do
  let (year, rest) ← digits? 4 chars
  let (month, rest) ← digits? 2 (← passChar (· == '-') rest)
  let (day, rest) ← digits? 2 (← passChar (· == '-') rest)
  if 1 ≤ month ∧ month ≤ 12 ∧ 1 ≤ day ∧ day ≤ daysIn year month then some rest else none

/-- Passes an hour and a minute. -/
def passMinute (chars : List Char) : Option (List Char) := do
  let (hour, rest) ← digits? 2 chars
  let (minute, rest) ← digits? 2 (← passChar (· == ':') rest)
  if hour < 24 ∧ minute < 60 then some rest else none

/-- Passes the fraction of a second, if there is one. -/
def passFraction (chars : List Char) : List Char :=
  match chars with
  | '.' :: c :: rest => if c.isDigit then rest.dropWhile Char.isDigit else chars
  | _ => chars

/-- Passes a time of day. A minute may have a leap second. -/
def passTime (chars : List Char) : Option (List Char) := do
  let (second, rest) ← digits? 2 (← passChar (· == ':') (← passMinute chars))
  if second ≤ 60 then some (passFraction rest) else none

/-- Passes an offset from universal time, if there is one. -/
def passOffset (chars : List Char) : Option (List Char) :=
  match chars with
  | [] => some []
  | c :: rest =>
      if c == 'Z' || c == 'z' then some rest
      else if c == '+' || c == '-' then passMinute rest
      else some chars

/-- Passes a point in time. -/
def passMoment (chars : List Char) : Option (List Char) :=
  match passDate chars with
  | none => passTime chars
  | some rest =>
      match (passChar (fun c => c == 'T' || c == 't' || c == ' ') rest).bind passTime with
      | none => some rest
      | some rest => passOffset rest

end MonikerIndex.Toml
