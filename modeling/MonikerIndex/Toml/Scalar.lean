import MonikerIndex.Json.Numeral

/-!
# Values without quotation marks

Truth values, whole numbers and fractional numbers. Digits may be grouped by underscores, each
between two digits. A decimal number has no zeros in front, and a whole number fits into sixty-four
bits with its sign. A fractional number must not be greater than all doubles; it may be less than
all of them.
-/

namespace MonikerIndex.Toml

/-- Splits off a sign; the flag tells whether it is a minus. -/
def splitSign : List Char → Bool × List Char
  | '+' :: digits => (false, digits)
  | '-' :: digits => (true, digits)
  | digits => (false, digits)

/-- Whether underscores stand only between digits, of which there is at least one. -/
def isGrouped (isDigit : Char → Bool) : List Char → Bool
  | [] => false
  | [c] => isDigit c
  | c :: '_' :: rest => isDigit c && isGrouped isDigit rest
  | c :: rest => isDigit c && isGrouped isDigit rest

/-- The value of a digit in a base of at most sixteen. -/
def digitValue (c : Char) : Nat :=
  if c.isDigit then c.toNat - 48 else c.toLower.toNat - 87

/-- The number with the given digits. -/
def numberOf (base : Nat) (digits : List Char) : Nat :=
  (digits.filter (· != '_')).foldl (fun number digit => base * number + digitValue digit) 0

/-- Whether the digits are those of a decimal number, without zeros in front. -/
def isDecimal (digits : List Char) : Bool :=
  isGrouped Char.isDigit digits && (digits.head? != some '0' || digits.length == 1)

/-- The least number above those that sixty-four bits hold with their sign. -/
def integerBound : Nat := Nat.pow 2 63

/-- Whether the characters are a whole number. -/
def isInteger (chars : List Char) : Bool :=
  let based (base : Nat) (isDigit : Char → Bool) (digits : List Char) : Bool :=
    isGrouped isDigit digits && numberOf base digits < integerBound
  match chars with
  | '0' :: 'x' :: digits =>
      based 16 (fun c => c.isDigit || ('a' ≤ c.toLower && c.toLower ≤ 'f')) digits
  | '0' :: 'o' :: digits => based 8 (fun c => '0' ≤ c && c ≤ '7') digits
  | '0' :: 'b' :: digits => based 2 (fun c => c == '0' || c == '1') digits
  | _ =>
      let (isNegative, digits) := splitSign chars
      isDecimal digits && numberOf 10 digits < integerBound + (if isNegative then 1 else 0)

/-- Whether the characters are the exponent of a fractional number, or nothing. -/
def isExponent : List Char → Bool
  | [] => true
  | c :: rest => (c == 'e' || c == 'E') && isGrouped Char.isDigit (splitSign rest).2

/-- Whether a fractional number is near a double, in exact arithmetic: its digits are those of the
    whole part and of the fraction. A number of at most 308 places is, and one of more than 309
    places is not, so that no large power has to be computed. -/
def isNearDouble (whole fraction : List Char) (exponent : Int) : Bool :=
  let digits := (whole ++ fraction).dropWhile (· == '0')
  let shift := exponent - Int.ofNat fraction.length
  let places := Int.ofNat digits.length + shift
  if digits.isEmpty ∨ places ≤ 308 then true
  else if 309 < places then false
  else
    decide (Nat.ofDigitChars 10 digits 0 * Nat.pow 10 shift.toNat <
      Numeral.overflow * Nat.pow 10 (-shift).toNat)

/-- Whether the characters are a fractional number. -/
def isFractional (chars : List Char) : Bool :=
  let (isNegative, digits) := splitSign chars
  let isPart (c : Char) : Bool := c.isDigit || c == '_'
  let bare (part : List Char) : List Char := part.filter (· != '_')
  let whole := digits.takeWhile isPart
  let rest := digits.dropWhile isPart
  let hasPoint := rest.head? == some '.'
  let fraction := if hasPoint then (rest.drop 1).takeWhile isPart else []
  let mark := if hasPoint then (rest.drop 1).dropWhile isPart else rest
  digits == ['i', 'n', 'f'] || digits == ['n', 'a', 'n'] ||
    (isDecimal whole && !rest.isEmpty && (!hasPoint || isGrouped Char.isDigit fraction) &&
      isExponent mark &&
      (isNegative ||
        isNearDouble (bare whole) (bare fraction) (Numeral.exponentOf (bare (mark.drop 1)))))

/-- Whether the characters are a value. -/
def isScalar (chars : List Char) : Bool :=
  chars == ['t', 'r', 'u', 'e'] || chars == ['f', 'a', 'l', 's', 'e'] || isInteger chars ||
    isFractional chars

end MonikerIndex.Toml
