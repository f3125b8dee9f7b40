/-!
# Export paths

An exported record is reached by a path: a base, and the names to follow from there. The base is
the global scope, a module block with its declared name, or a module file with its module name.
As an identifier, a path is the text of its base, a colon, and the names with dots between them.
-/

namespace MonikerIndex

/-- What an export path starts from. -/
inductive PathBase where
  | global
  /-- A module block, by its declared name without quotation marks. -/
  | ambient (name : String)
  /-- A module file, by its module name. -/
  | moduleFile (name : String)
  deriving DecidableEq, Repr, Inhabited

/-- The text of a base. The global scope has none. -/
def PathBase.text : PathBase → String
  | .global => ""
  | .ambient name => name
  | .moduleFile name => name

/-- Names with dots between them. -/
def dotted : List String → List Char
  | [] => []
  | [name] => name.toList
  | name :: names => name.toList ++ '.' :: dotted names

/-- A base and the names to follow from it. -/
structure ExportPath where
  base : PathBase
  segments : List String
  deriving DecidableEq, Repr, Inhabited

namespace ExportPath

/-- The path that ends at its base. -/
def bare (base : PathBase) : ExportPath := ⟨base, []⟩

/-- The path with one more name. -/
def child (path : ExportPath) (segment : String) : ExportPath :=
  ⟨path.base, path.segments ++ [segment]⟩

/-- The path as an identifier. -/
def identifier (path : ExportPath) : String :=
  String.ofList (path.base.text.toList ++ ':' :: dotted path.segments)

end ExportPath

end MonikerIndex
