import MonikerIndex.Toml.Basic
import MonikerIndex.Toml.Moment
import MonikerIndex.Toml.Scalar
import MonikerIndex.Toml.Text

/-!
# Reading settings

A settings text consists of lines: a key with its value, the header of a table, or nothing but
blanks. Any line may end in a comment, and a list or a block of text may go over several lines.

Each reader takes characters from the front and returns what is left. Where values are nested, the
number of steps bounds the recursion; the length of the text is enough. How deep values are nested
and how many parts a key has is limited as well, and settings beyond that are refused.
-/

namespace MonikerIndex.Toml

/-- Lists and tables between braces are nested less deep than this, and keys have fewer parts. -/
def depthLimit : Nat := 80

/-! ### Blanks and line ends -/

/-- Drops a comment. -/
def skipComment : List Char → List Char
  | '#' :: rest => rest.dropWhile isVisible
  | chars => chars

/-- Passes blanks, a comment and the end of a line or of the text. -/
def passLineEnd (chars : List Char) : Option (List Char) :=
  match skipComment (skipBlanks chars) with
  | [] => some []
  | rest => passNewline rest

/-- Drops blanks, comments and line ends. -/
def skipLines : Nat → List Char → List Char
  | 0, chars => chars
  | steps + 1, chars =>
      let rest := skipComment (skipBlanks chars)
      match passNewline rest with
      | some rest => skipLines steps rest
      | none => rest

/-! ### Keys -/

/-- Whether a character may stand in a key without quotation marks. -/
def isKeyChar (c : Char) : Bool :=
  c.isAlphanum || c == '_' || c == '-'

/-- Reads one part of a key. -/
def keyPart : List Char → Option (String × List Char)
  | '"' :: rest => (basicText rest).map fun (inner, rest) => (String.ofList inner, rest)
  | '\'' :: rest => (literalText rest).map fun (inner, rest) => (String.ofList inner, rest)
  | chars =>
      let key := chars.takeWhile isKeyChar
      if key.isEmpty then none else some (String.ofList key, chars.dropWhile isKeyChar)

/-- Reads the parts of a key, with dots between them and blanks around them. -/
def keyParts : Nat → List Char → Option (List String × List Char)
  | 0, _ => none
  | steps + 1, chars => do
      let (first, rest) ← keyPart (skipBlanks chars)
      match skipBlanks rest with
      | '.' :: rest =>
          let (others, rest) ← keyParts steps rest
          return (first :: others, rest)
      | rest => return ([first], rest)

/-- Reads a key. -/
def key (chars : List Char) : Option (List String × List Char) := do
  let (parts, rest) ← keyParts chars.length chars
  if parts.length < depthLimit then some (parts, rest) else none

/-! ### Values -/

/-- Whether a character belongs to a value without quotation marks. -/
def isScalarChar (c : Char) : Bool :=
  c.isAlphanum || c == '_' || c == '-' || c == '+' || c == '.'

/-- Reads a number, a truth value or a point in time. -/
def plainValue (chars : List Char) : Option (Toml × List Char) :=
  match passMoment chars with
  | some rest => some (.plain (String.ofList (chars.take (chars.length - rest.length))), rest)
  | none =>
      let word := chars.takeWhile isScalarChar
      if isScalar word then some (.plain (String.ofList word), chars.dropWhile isScalarChar)
      else none

mutual

/-- Reads a value inside the given number of lists and tables. -/
def value : Nat → Nat → List Char → Option (Toml × List Char)
  | 0, _, _ => none
  | steps + 1, depth, chars =>
      match chars with
      | '"' :: _ | '\'' :: _ => (anyText chars).map fun (inner, rest) => (.text inner, rest)
      | '[' :: rest =>
          if depth + 1 < depthLimit then
            (items steps (depth + 1) rest).map fun (items, rest) => (.list items, rest)
          else none
      | '\x7b' :: rest =>
          if depth + 1 < depthLimit then
            match skipBlanks rest with
            | '\x7d' :: rest => some (.inline [], rest)
            | rest =>
                (members steps (depth + 1) [] rest).map fun (members, rest) =>
                  (.inline members, rest)
          else none
      | chars => plainValue chars

/-- Reads the items of a list and its closing bracket. -/
def items : Nat → Nat → List Char → Option (List Toml × List Char)
  | 0, _, _ => none
  | steps + 1, depth, chars =>
      match skipLines chars.length chars with
      | ']' :: rest => some ([], rest)
      | chars => do
          let (item, rest) ← value steps depth chars
          match skipLines rest.length rest with
          | ',' :: rest =>
              let (others, rest) ← items steps depth rest
              return (item :: others, rest)
          | ']' :: rest => return ([item], rest)
          | _ => none

/-- Reads the members of a table between braces and its closing brace. -/
def members : Nat → Nat → Members → List Char → Option (Members × List Char)
  | 0, _, _, _ => none
  | steps + 1, depth, found, chars => do
      let (keys, rest) ← key chars
      match rest with
      | '=' :: rest =>
          let (content, rest) ← value steps depth (skipBlanks rest)
          let found ← assign keys content found
          match skipBlanks rest with
          | ',' :: rest => members steps depth found rest
          | '\x7d' :: rest => return (found, rest)
          | _ => none
      | _ => none

end

/-! ### Texts -/

/-- What has been read so far: the whole tree, and the header that keys now belong to. -/
structure Draft where
  tree : Members := []
  header : List String := []
  deriving Repr, Inhabited

/-- Reads one line that is not empty. Lists and blocks may make it longer than a line. -/
def line (draft : Draft) (chars : List Char) : Option (Draft × List Char) :=
  match chars with
  | '[' :: '[' :: rest => do
      let (header, rest) ← key rest
      match rest with
      | ']' :: ']' :: rest =>
          let tree ← openRepeated header draft.tree
          return (⟨tree, header⟩, ← passLineEnd rest)
      | _ => none
  | '[' :: rest => do
      let (header, rest) ← key rest
      match rest with
      | ']' :: rest =>
          let tree ← openTable header draft.tree
          return (⟨tree, header⟩, ← passLineEnd rest)
      | _ => none
  | chars => do
      let (keys, rest) ← key chars
      match rest with
      | '=' :: rest =>
          let (content, rest) ← value (2 * rest.length + 2) 0 (skipBlanks rest)
          let tree ← assignUnder draft.header keys content draft.tree
          return ({ draft with tree := tree }, ← passLineEnd rest)
      | _ => none

/-- Reads line after line. -/
def lines : Nat → Draft → List Char → Option Members
  | 0, _, _ => none
  | steps + 1, draft, chars =>
      match skipLines chars.length chars with
      | [] => some draft.tree
      | chars => do
          let (draft, rest) ← line draft chars
          lines steps draft rest

/-- Drops a byte order mark. -/
def skipMark : List Char → List Char
  | c :: rest => if c.toNat = 0xFEFF then rest else c :: rest
  | [] => []

/-- Reads a settings text. -/
def parse (text : String) : Option Members :=
  let chars := skipMark text.toList
  lines (chars.length + 1) {} chars

end MonikerIndex.Toml
