import MonikerIndex.Text.Casing

/-!
# File paths and module names

Paths come with either separator and are compared with `/` only. The module name of a file is its
path below the project root, without the extension of a source file; a file outside the root keeps
its whole path. A root is recognised only at a separator, so `/ab` is not below `/a`.

Whether a file holds declarations only is read off its extension as well.
-/

namespace MonikerIndex

/-- Whether a document is a source file or holds declarations only. -/
inductive DocumentKind where
  | source
  | declaration
  deriving DecidableEq, Repr, Inhabited

namespace DocumentKind

/-- The word of a kind. -/
def word : DocumentKind → String
  | .source => "source"
  | .declaration => "declaration"

/-- Both kinds with their words. -/
def words : List (String × DocumentKind) :=
  [("source", .source), ("declaration", .declaration)]

/-- The extensions of files that hold declarations only. -/
def declarationExtensions : List (List Char) :=
  [".d.ts".toList, ".d.mts".toList, ".d.cts".toList]

/-- The kind of a file, by its extension in any letter case. -/
def ofPath (path : String) : DocumentKind :=
  if declarationExtensions.any (·.isSuffixOf (Text.asciiLower path.toList)) then .declaration
  else .source

end DocumentKind

namespace Path

/-- Characters with `/` as the only separator. -/
def slashes (chars : List Char) : List Char :=
  chars.map fun c => if c = '\\' then '/' else c

/-- A path with `/` as the only separator. -/
def normalize (path : String) : String :=
  String.ofList (slashes path.toList)

/-- The extensions of module files. Each stands before those that are suffixes of it, so the first
    one that fits is the longest. -/
def moduleExtensions : List (List Char) :=
  [".d.mts".toList, ".d.cts".toList, ".d.ts".toList, ".mts".toList, ".cts".toList, ".tsx".toList,
    ".ts".toList, ".mjs".toList, ".cjs".toList, ".jsx".toList, ".js".toList]

/-- Characters without the separators at their end. -/
def trimEnd (chars : List Char) : List Char :=
  (chars.reverse.dropWhile (· == '/')).reverse

/-- What follows the root in a path, if the path is below it. -/
def below? (root path : List Char) : Option (List Char) :=
  if root.isPrefixOf path then
    let rest := path.drop root.length
    if root.isEmpty || rest.head? == some '/' then some rest else none
  else none

/-- The path below the root, or the whole path outside it, without separators at its front. -/
def relative (root path : List Char) : List Char :=
  ((below? (trimEnd root) path).getD path).dropWhile (· == '/')

/-- The extension of a module file, if the path has one. -/
def moduleExtension? (path : List Char) : Option (List Char) :=
  moduleExtensions.find? (·.isSuffixOf (Text.asciiLower path))

/-- A path without the extension of a module file. -/
def stem (path : List Char) : List Char :=
  match moduleExtension? path with
  | some extension => path.take (path.length - extension.length)
  | none => path

/-- The module name of a file relative to the project root. -/
def moduleName (root path : String) : String :=
  String.ofList (stem (relative (slashes root.toList) (slashes path.toList)))

end Path

end MonikerIndex
