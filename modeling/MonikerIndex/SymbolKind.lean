import MonikerIndex.Error
import MonikerIndex.Text.Casing

/-!
# Kinds of symbols

A symbol kind has a word, which is how facts name it, and a number, which is how ranges carry it.
Several kinds share a number: the numbering is that of the language server protocol, which is
coarser. On input by hand, further words stand for some of the kinds, and letter case is ignored.
-/

namespace MonikerIndex

/-- What a declaration declares. -/
inductive SymbolKind where
  /-- An ambient module block. -/
  | moduleBlock
  | namespaceBlock
  | classType
  | interface
  | enum
  | enumMember
  | typeAlias
  | typeParameter
  | function
  | method
  /-- A constructor or a construct signature. -/
  | constructor
  /-- A call or index signature. -/
  | signature
  | property
  | var
  | constant
  | parameter
  deriving DecidableEq, Repr, Inhabited

namespace SymbolKind

/-- All kinds, in their declared order. -/
def all : List SymbolKind :=
  [.moduleBlock, .namespaceBlock, .classType, .interface, .enum, .enumMember, .typeAlias,
    .typeParameter, .function, .method, .constructor, .signature, .property, .var, .constant,
    .parameter]

/-- The word of a kind. -/
def word : SymbolKind → String
  | .moduleBlock => "module"
  | .namespaceBlock => "namespace"
  | .classType => "class"
  | .interface => "interface"
  | .enum => "enum"
  | .enumMember => "enum_member"
  | .typeAlias => "type_alias"
  | .typeParameter => "type_parameter"
  | .function => "function"
  | .method => "method"
  | .constructor => "constructor"
  | .signature => "signature"
  | .property => "property"
  | .var => "variable"
  | .constant => "constant"
  | .parameter => "parameter"

/-- The number of a kind in the language server protocol. -/
def lsp : SymbolKind → UInt32
  | .moduleBlock => 2
  | .namespaceBlock => 3
  | .classType => 5
  | .interface => 11
  | .enum => 10
  | .enumMember => 22
  | .typeAlias => 26
  | .typeParameter => 26
  | .function => 12
  | .method => 6
  | .constructor => 9
  | .signature => 6
  | .property => 7
  | .var => 13
  | .constant => 14
  | .parameter => 13

/-- Every kind with its own word. -/
def words : List (String × SymbolKind) :=
  all.map fun kind => (kind.word, kind)

/-- The further words that stand for a kind. -/
def nicknames : List (String × SymbolKind) :=
  [("ambient_module", .moduleBlock), ("ns", .namespaceBlock), ("type", .typeAlias),
    ("fn", .function),
    ("construct_signature", .constructor), ("call_signature", .signature),
    ("index_signature", .signature), ("field", .property), ("var", .var), ("let", .var),
    ("const", .constant), ("param", .parameter)]

/-- The kind that a word in any letter case stands for. -/
def parse (text : String) : Except Error SymbolKind :=
  match (words ++ nicknames).lookup (Text.lower text) with
  | some kind => .ok kind
  | none => .error (.unknownSymbolKind text)

end SymbolKind

end MonikerIndex
