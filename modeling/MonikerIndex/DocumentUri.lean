import MonikerIndex.Error
import MonikerIndex.Path

/-!
# Document URIs

A document is named by `file://` and its absolute path. Four characters are escaped in it: the
percent sign, the blank, the number sign and the question mark. Reading undoes the escapes one
kind after the other, the percent sign last, so that no escape is made up out of the result of
another one.
-/

namespace MonikerIndex

/-- The URI of a document, by its path. -/
structure DocumentUri where
  path : String
  deriving DecidableEq, Repr, Inhabited

namespace DocumentUri

/-- What every URI of a file starts with. -/
def scheme : List Char := "file://".toList

/-- The URI of a file. The path is made absolute, with `/` as the only separator. -/
def ofPath (path : String) : DocumentUri :=
  let chars := Path.slashes path.toList
  ⟨String.ofList (if chars.head? = some '/' then chars else '/' :: chars)⟩

/-! ### Escapes -/

/-- The written form of one character of a path. -/
def escape (c : Char) : List Char :=
  if c = '%' then ['%', '2', '5']
  else if c = ' ' then ['%', '2', '0']
  else if c = '#' then ['%', '2', '3']
  else if c = '?' then ['%', '3', 'F']
  else [c]

/-- Puts `c` for every occurrence of the escape with the two given digits. -/
def replaceEscape (high low c : Char) : List Char → List Char
  | '%' :: a :: b :: rest =>
      if a = high ∧ b = low then c :: replaceEscape high low c rest
      else '%' :: replaceEscape high low c (a :: b :: rest)
  | other :: rest => other :: replaceEscape high low c rest
  | [] => []

/-- Undoes all escapes, one kind after the other. -/
def unescape (chars : List Char) : List Char :=
  replaceEscape '2' '5' '%' (replaceEscape '2' '0' ' ' (replaceEscape '2' '3' '#'
    (replaceEscape '3' 'F' '?' chars)))

/-! ### Text -/

/-- The text of a URI. -/
def text (uri : DocumentUri) : String :=
  String.ofList (scheme ++ uri.path.toList.flatMap escape)

/-- Reads the text of a URI. -/
def parse (text : String) : Except Error DocumentUri :=
  let chars := text.toList
  if scheme.isPrefixOf chars then
    let rest := chars.drop scheme.length
    if rest.head? = some '/' then .ok ⟨String.ofList (unescape rest)⟩
    else .error (.uriRelative text)
  else .error (.uriScheme text)

end DocumentUri

end MonikerIndex
