import MonikerIndex.Json.Reading

/-!
# Numbers of a JSON text

The grammar of a number is a machine on its parts. A complete number is taken as a significand
times a power of ten. The significand holds the leading digits as far as they fit into sixty-four
bits; a digit of the whole part that no longer fits counts by its place alone, and a digit of the
fraction that no longer fits does not count.

Both factors are then rounded to doubles, and a number whose product is beyond all doubles has no
meaning. No other property of a number that is not natural is of interest here.
-/

namespace MonikerIndex

/-- The part of a number that was read last. -/
inductive NumberPart where
  | minus
  | zero
  | whole
  | point
  | fraction
  | mark
  | markSign
  | exponent
  deriving DecidableEq, Repr, Inhabited

namespace NumberPart

/-- The part that a further character belongs to, if it extends the number. -/
def next (part : NumberPart) (c : Char) : Option NumberPart :=
  match part with
  | .minus => if c = '0' then some .zero else if c.isDigit then some .whole else none
  | .zero => if c = '.' then some .point else if c = 'e' ∨ c = 'E' then some .mark else none
  | .whole =>
      if c.isDigit then some .whole
      else if c = '.' then some .point
      else if c = 'e' ∨ c = 'E' then some .mark
      else none
  | .point => if c.isDigit then some .fraction else none
  | .fraction =>
      if c.isDigit then some .fraction
      else if c = 'e' ∨ c = 'E' then some .mark
      else none
  | .mark =>
      if c = '+' ∨ c = '-' then some .markSign
      else if c.isDigit then some .exponent
      else none
  | .markSign => if c.isDigit then some .exponent else none
  | .exponent => if c.isDigit then some .exponent else none

/-- Whether a number may end after this part. -/
def isEnd : NumberPart → Bool
  | .zero | .whole | .fraction | .exponent => true
  | _ => false

end NumberPart

/-- A number as a significand times a power of ten. -/
structure Numeral where
  significand : Nat
  exponent : Int
  deriving DecidableEq, Repr, Inhabited

namespace Numeral

/-- The nearest number of at most fifty-three significant bits. A tie goes to the even one. -/
def nearestDouble (n : Nat) : Nat :=
  let unit := Nat.pow 2 (Nat.log2 n - 52)
  let below := n / unit
  let rest := n % unit
  if 2 * rest < unit ∨ 2 * rest = unit ∧ below % 2 = 0 then below * unit else (below + 1) * unit

/-- The least product that rounds to no double: halfway between the greatest double and the next
    power of two. -/
def overflow : Nat := Nat.pow 2 1024 - Nat.pow 2 970

/-- Whether the number has the magnitude of a double. A negative exponent only makes it smaller,
    and a power of ten beyond the three hundred and eighth is itself no double. -/
def isFinite (number : Numeral) : Bool :=
  number.significand == 0 || decide (number.exponent < 0) ||
    decide (number.exponent ≤ 308) &&
      decide (nearestDouble number.significand *
        nearestDouble (Nat.pow 10 number.exponent.toNat) < overflow)

/-- Appends digits to a significand until one no longer fits. The result has the digits from that
    one on. -/
def absorb (significand : Nat) : List Char → Nat × List Char
  | [] => (significand, [])
  | digit :: digits =>
      let next := 10 * significand + (digit.toNat - 48)
      if next < UInt64.size then absorb next digits else (significand, digit :: digits)

/-- The value of the text behind the exponent's mark. -/
def exponentOf : List Char → Int
  | '-' :: digits => -Int.ofNat (Nat.ofDigitChars 10 digits 0)
  | '+' :: digits => Int.ofNat (Nat.ofDigitChars 10 digits 0)
  | digits => Int.ofNat (Nat.ofDigitChars 10 digits 0)

/-- The magnitude of the number that a text writes. -/
def ofToken (token : List Char) : Numeral :=
  let unsigned := token.dropWhile (· == '-')
  let mantissa := unsigned.takeWhile fun c => c != 'e' && c != 'E'
  let mark := (unsigned.dropWhile fun c => c != 'e' && c != 'E').drop 1
  let whole := mantissa.takeWhile (· != '.')
  let fraction := (mantissa.dropWhile (· != '.')).drop 1
  let (high, dropped) := absorb 0 whole
  let (significand, ignored) := absorb high fraction
  let places := Int.ofNat (fraction.length - ignored.length)
  ⟨significand, Int.ofNat dropped.length - places + exponentOf mark⟩

/-- The reading of a complete number. -/
def reading (token : List Char) : Reading :=
  if !(ofToken token).isFinite then .refused
  else if token.all Char.isDigit then .nat (Nat.ofDigitChars 10 token 0)
  else .number

end Numeral

end MonikerIndex
