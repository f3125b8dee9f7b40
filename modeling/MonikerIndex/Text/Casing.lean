/-!
# Letter case

Words of the interface are compared after lower-casing. The words themselves consist of ASCII
letters and underscores, so it only matters which characters have an ASCII letter as their lower
case: the ASCII capitals, and the Kelvin sign (U+212A), whose lower case is `k`. Every other
character keeps, or gets, a lower case outside ASCII and can occur in no word.

File extensions are compared under ASCII rules alone, where the Kelvin sign is no `k`.
-/

namespace MonikerIndex.Text

/-- The Kelvin sign. -/
def kelvin : Char := Char.ofNat 0x212A

/-- The lower case of a character, as far as an ASCII word can tell. -/
def lowerChar (c : Char) : Char :=
  if c = kelvin then 'k' else c.toLower

/-- The lower case of a text, as far as an ASCII word can tell. -/
def lower (text : String) : String :=
  String.ofList (text.toList.map lowerChar)

/-- The lower case of characters under ASCII rules. -/
def asciiLower (chars : List Char) : List Char :=
  chars.map Char.toLower

/-- Whether two texts are equal up to the case of ASCII letters. -/
def sameAscii (a b : String) : Bool :=
  asciiLower a.toList == asciiLower b.toList

end MonikerIndex.Text
