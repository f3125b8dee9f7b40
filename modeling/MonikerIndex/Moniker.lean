/-!
# Monikers

A moniker is a name for a symbol by which it is found again from another document or another
program. Its identity is the identifier together with how far the identifier is unique, and
whether it belongs to the public surface. The scheme says by which rules the identifier was made.
-/

namespace MonikerIndex

/-- Where the identifier of a moniker is unique. -/
inductive Uniqueness where
  | document
  | group
  deriving DecidableEq, Repr, Inhabited

namespace Uniqueness

/-- The word of a level. -/
def word : Uniqueness → String
  | .document => "document"
  | .group => "group"

/-- Both levels with their words. -/
def words : List (String × Uniqueness) :=
  [("document", .document), ("group", .group)]

end Uniqueness

/-- Whether a moniker is part of the public surface. -/
inductive MonikerKind where
  | exported
  | internal
  deriving DecidableEq, Repr, Inhabited

namespace MonikerKind

/-- The word of a kind. -/
def word : MonikerKind → String
  | .exported => "export"
  | .internal => "local"

/-- Both kinds with their words. -/
def words : List (String × MonikerKind) :=
  [("export", .exported), ("local", .internal)]

end MonikerKind

/-- What identifies a record. -/
structure Identity where
  identifier : String
  unique : Uniqueness
  kind : MonikerKind
  deriving DecidableEq, Repr, Inhabited

namespace Identity

/-- The identity of what is seen everywhere. -/
def exported (identifier : String) : Identity := ⟨identifier, .group, .exported⟩

/-- The identity of everything else. -/
def internal (identifier : String) : Identity := ⟨identifier, .document, .internal⟩

end Identity

/-- An identity under a scheme. -/
structure Moniker extends Identity where
  scheme : String
  deriving DecidableEq, Repr, Inhabited

/-- The moniker of an identity. -/
def Identity.under (identity : Identity) (scheme : String) : Moniker :=
  { identity with scheme := scheme }

end MonikerIndex
