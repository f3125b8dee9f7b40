import MonikerIndex.Json.Basic

/-!
# Quoted texts in settings

A text stands between quotation marks with escapes in it, or between apostrophes without any. It
may hold tabs, but no other control characters. Three marks on either side make it a block, which
may go over several lines and hold the mark itself, though not three in a row.

A text is written in the first of four forms that needs no escapes: between quotation marks,
between apostrophes, as a block of the first kind, as a block of the second kind. If all of them
need escapes, it is written between quotation marks, as a block if it has several lines.
-/

namespace MonikerIndex.Toml

/-- Whether a character may stand for itself in a text or comment. -/
def isVisible (c : Char) : Bool :=
  c == '\t' || (32 ≤ c.toNat && c.toNat != 127)

/-! ### Reading -/

/-- The value of a hexadecimal digit. -/
def hexValue? (c : Char) : Option Nat :=
  if '0' ≤ c ∧ c ≤ '9' then some (c.toNat - 48)
  else if 'a' ≤ c ∧ c ≤ 'f' then some (c.toNat - 87)
  else if 'A' ≤ c ∧ c ≤ 'F' then some (c.toNat - 55)
  else none

/-- The number with the given hexadecimal digits. -/
def hexNumber? : List Char → Option Nat :=
  List.foldlM (fun number digit => (hexValue? digit).map (16 * number + ·)) 0

/-- The character with the given number, if there is one. -/
def scalar? (number : Nat) : Option Char :=
  if h : number.isValidChar then some (Char.ofNatAux number h) else none

/-- The character with the given hexadecimal digits. -/
def hexChar? (digits : List Char) : Option Char :=
  (hexNumber? digits).bind scalar?

/-- The character that a letter after a backslash stands for. -/
def escaped? (c : Char) : Option Char :=
  if c = 'b' then some '\x08'
  else if c = 't' then some '\t'
  else if c = 'n' then some '\n'
  else if c = 'f' then some '\x0c'
  else if c = 'r' then some '\r'
  else if c = '"' then some '"'
  else if c = '\\' then some '\\'
  else none

/-- Puts a character in front of a text that has been read. -/
def prepend (c : Char) (text : List Char × List Char) : List Char × List Char :=
  (c :: text.1, text.2)

/-- Reads a text with escapes up to its closing quotation mark. Returns the text and the rest. -/
def basicText : List Char → Option (List Char × List Char)
  | [] => none
  | '"' :: rest => some ([], rest)
  | '\\' :: 'u' :: a :: b :: c :: d :: rest => do
      let char ← hexChar? [a, b, c, d]
      let text ← basicText rest
      return prepend char text
  | '\\' :: 'U' :: a :: b :: c :: d :: e :: f :: g :: h :: rest => do
      let char ← hexChar? [a, b, c, d, e, f, g, h]
      let text ← basicText rest
      return prepend char text
  | '\\' :: c :: rest => do
      let char ← escaped? c
      let text ← basicText rest
      return prepend char text
  | c :: rest => do
      if c = '\\' || !isVisible c then none
      let text ← basicText rest
      return prepend c text

/-- Reads a text without escapes up to its closing apostrophe. -/
def literalText : List Char → Option (List Char × List Char)
  | [] => none
  | c :: rest =>
      if c = '\'' then some ([], rest)
      else if isVisible c then (literalText rest).map (prepend c)
      else none

/-! ### Reading blocks -/

/-- Drops spaces and tabs. -/
def skipBlanks : List Char → List Char :=
  List.dropWhile fun c => c == ' ' || c == '\t'

/-- Passes a line end. -/
def passNewline : List Char → Option (List Char)
  | '\n' :: rest => some rest
  | '\r' :: '\n' :: rest => some rest
  | _ => none

/-- Passes the three marks that close a block. One or two more marks before them belong to the text
    and are returned. -/
def blockEnd (mark : Char) (chars : List Char) : Option (List Char × List Char) :=
  let run := (chars.takeWhile (· == mark)).length
  if run < 3 then none
  else some (List.replicate (min (run - 3) 2) mark, chars.drop (min run 5))

/-- Reads a block without escapes up to its closing apostrophes. -/
def literalBlock : List Char → Option (List Char × List Char)
  | [] => none
  | c :: rest =>
      match blockEnd '\'' (c :: rest), c, rest with
      | some found, _, _ => some found
      | none, '\r', '\n' :: rest => (literalBlock rest).map (prepend '\n')
      | none, c, rest =>
          if isVisible c || c == '\n' then (literalBlock rest).map (prepend c) else none

/-- Reads a block with escapes up to its closing quotation marks. A backslash at the end of a line
    joins it with the next one: `joins` tells that blanks and line ends are being left out. -/
def basicBlock (joins : Bool) : List Char → Option (List Char × List Char)
  | [] => none
  | '\r' :: '\n' :: rest =>
      if joins then basicBlock true rest else (basicBlock false rest).map (prepend '\n')
  | '\\' :: 'u' :: a :: b :: c :: d :: rest => do
      let char ← hexChar? [a, b, c, d]
      let text ← basicBlock false rest
      return prepend char text
  | '\\' :: 'U' :: a :: b :: c :: d :: e :: f :: g :: h :: rest => do
      let char ← hexChar? [a, b, c, d, e, f, g, h]
      let text ← basicBlock false rest
      return prepend char text
  | '\\' :: c :: rest =>
      if (passNewline (skipBlanks (c :: rest))).isSome then basicBlock true (c :: rest)
      else do
        let char ← escaped? c
        let text ← basicBlock false rest
        return prepend char text
  | c :: rest =>
      match blockEnd '"' (c :: rest) with
      | some found => some found
      | none =>
          if joins && (c == ' ' || c == '\t' || c == '\n') then basicBlock true rest
          else if c = '\\' then none
          else if isVisible c || c == '\n' then (basicBlock false rest).map (prepend c)
          else none

/-- Drops the line end that may stand before the first line of a block. -/
def dropFirstNewline (chars : List Char) : List Char :=
  (passNewline chars).getD chars

/-- Reads a text of any form. -/
def anyText (chars : List Char) : Option (String × List Char) :=
  let found :=
    match chars with
    | '"' :: '"' :: '"' :: rest => basicBlock false (dropFirstNewline rest)
    | '\'' :: '\'' :: '\'' :: rest => literalBlock (dropFirstNewline rest)
    | '"' :: rest => basicText rest
    | '\'' :: rest => literalText rest
    | _ => none
  found.map fun (inner, rest) => (String.ofList inner, rest)

/-! ### Writing -/

/-- The ways to write a text. -/
inductive Quoting where
  | basic
  | literal
  | basicBlock
  | literalBlock
  deriving DecidableEq, Repr, Inhabited

/-- The length of the longest run of a character. -/
def longestRun (mark : Char) (chars : List Char) : Nat :=
  (chars.foldl (fun (run, best) c =>
    let run := if c == mark then run + 1 else 0
    (run, max best run)) (0, 0)).2

/-- The way in which a text is written. -/
def quotingOf (chars : List Char) : Quoting :=
  let hasLines := chars.contains '\n'
  let isClean := chars.all fun c => isVisible c || c == '\n'
  let isPlain := isClean && !chars.contains '\\'
  if isPlain && !hasLines && longestRun '"' chars == 0 then .basic
  else if isClean && !hasLines && longestRun '\'' chars == 0 then .literal
  else if isPlain && longestRun '"' chars ≤ 2 then .basicBlock
  else if isClean && longestRun '\'' chars ≤ 2 then .literalBlock
  else if hasLines then .basicBlock
  else .basic

/-- The written form of a character between quotation marks. -/
def escape (c : Char) : List Char :=
  if c = '"' then ['\\', '"']
  else if c = '\\' then ['\\', '\\']
  else if c = '\x08' then ['\\', 'b']
  else if c = '\t' then ['\\', 't']
  else if c = '\n' then ['\\', 'n']
  else if c = '\x0c' then ['\\', 'f']
  else if c = '\r' then ['\\', 'r']
  else if isVisible c then [c]
  else
    ['\\', 'u', '0', '0', (Json.hexDigit (c.toNat / 16)).toUpper,
      (Json.hexDigit (c.toNat % 16)).toUpper]

/-- The written form of the characters of a block. Line ends stand for themselves, and so do
    quotation marks, of which `run` came last, up to two in a row. -/
def escapeBlock (run : Nat) : List Char → List Char
  | [] => []
  | c :: rest =>
      if c = '"' ∧ run < 2 then c :: escapeBlock (run + 1) rest
      else if c = '\n' then c :: escapeBlock 0 rest
      else escape c ++ escapeBlock 0 rest

/-- The first line of a block is empty if the text has several lines. -/
def blockStart (chars : List Char) : List Char :=
  if chars.contains '\n' then ['\n'] else []

/-- The written form of a text. -/
def quote (text : String) : List Char :=
  let chars := text.toList
  match quotingOf chars with
  | .basic => '"' :: (chars.flatMap escape ++ ['"'])
  | .literal => '\'' :: (chars ++ ['\''])
  | .basicBlock =>
      ['"', '"', '"'] ++ (blockStart chars ++ (escapeBlock 0 chars ++ ['"', '"', '"']))
  | .literalBlock =>
      ['\'', '\'', '\''] ++ (blockStart chars ++ (chars ++ ['\'', '\'', '\'']))

end MonikerIndex.Toml
