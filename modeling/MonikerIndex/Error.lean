import MonikerIndex.Json.Reading

/-!
# Errors

Every way in which a run can fail is a constructor here, together with what its message names.
The kind of an error groups the constructors by who is at fault; the message is the only place
where an error is put into words.
-/

namespace MonikerIndex

/-- The number under which a symbol was reported. It is valid for one run only. -/
abbrev Handle := UInt32

/-- What can go wrong with a file. -/
inductive FileError where
  | missing
  | isDirectory
  | notDirectory
  | nameTooLong
  /-- The path holds a NUL, which ends a name. -/
  | nulInName
  /-- The contents are not UTF-8. -/
  | notText
  | other (description : String)
  deriving DecidableEq, Repr, Inhabited

/-- The words for a failure with a file. -/
def FileError.message : FileError → String
  | .missing => "No such file or directory (os error 2)"
  | .isDirectory => "Is a directory (os error 21)"
  | .notDirectory => "Not a directory (os error 20)"
  | .nameTooLong => "File name too long (os error 36)"
  | .nulInName => "file name contained an unexpected NUL byte"
  | .notText => "stream did not contain valid UTF-8"
  | .other description => description

/-- Why a run failed. -/
inductive Error where
  /-- Two documents have the same path. -/
  | documentTwice (path : String)
  /-- Two symbols have the same handle. -/
  | handleTwice (handle : Handle)
  /-- A symbol has no declaration. -/
  | undeclared (handle : Handle) (name : Option String)
  /-- A symbol is declared in a file that is no document. -/
  | symbolOutside (handle : Handle) (file : String)
  /-- The parent of a symbol is no symbol. -/
  | unknownParent (handle parent : Handle)
  /-- The way up from a symbol comes back to it. -/
  | cyclicScope (handle : Handle)
  /-- A reference stands in a file that is no document. -/
  | referenceOutside (text file : String)
  /-- A reference is to no symbol. -/
  | unknownReference (text file : String) (target : Handle)
  /-- The target of an alias is no symbol. -/
  | unknownAliasTarget (name file : String) (target : Handle)
  /-- The container of an alias is no symbol. -/
  | unknownAliasContainer (name file : String) (container : Handle)
  /-- An alias of a file stands in a file that is no document. -/
  | aliasOutside (name file : String)
  /-- Two records would get the same public identifier. -/
  | collision (identifier : String)
  /-- An edge leads nowhere. -/
  | edgeWithoutTarget (label : String) (id : Nat)
  /-- An edge names an element that does not stand before it. -/
  | edgeAhead (label : String) (id endpoint : Nat)
  | unknownSymbolKind (text : String)
  | unknownEdgeLabel (text : String)
  /-- The text does not start as the URI of a file. -/
  | uriScheme (uri : String)
  /-- The path of the URI is not absolute. -/
  | uriRelative (uri : String)
  | unreadable (cause : FileError)
  | json (fault : Fault)
  deriving DecidableEq, Repr, Inhabited

/-- The groups of errors. -/
inductive ErrorKind where
  /-- The reported facts cannot be those of a program. -/
  | inconsistency
  | collision
  | emissionOrder
  | invalidKind
  | invalidUri
  | file
  | json
  deriving DecidableEq, Repr, Inhabited

namespace Error

/-- The group that an error belongs to. -/
def kind : Error → ErrorKind
  | .documentTwice .. | .handleTwice .. | .undeclared .. | .symbolOutside .. | .unknownParent ..
  | .cyclicScope .. | .referenceOutside .. | .unknownReference .. | .unknownAliasTarget ..
  | .unknownAliasContainer .. | .aliasOutside .. => .inconsistency
  | .collision .. => .collision
  | .edgeWithoutTarget .. | .edgeAhead .. => .emissionOrder
  | .unknownSymbolKind .. | .unknownEdgeLabel .. => .invalidKind
  | .uriScheme .. | .uriRelative .. => .invalidUri
  | .unreadable .. => .file
  | .json .. => .json

/-- What is wrong, without the group. -/
def detail : Error → String
  | .documentTwice path => s!"document {path} reported twice"
  | .handleTwice handle => s!"symbol handle {handle} reported twice"
  | .undeclared handle name =>
      s!"symbol {handle} (" ++ name.getD "<anonymous>" ++ ") has no declaration sites"
  | .symbolOutside handle file => s!"symbol {handle} is declared in unknown document {file}"
  | .unknownParent handle parent => s!"symbol {handle} has unknown parent {parent}"
  | .cyclicScope handle => s!"scope chain of symbol {handle} is cyclic"
  | .referenceOutside text file => s!"reference `{text}` in unknown document {file}"
  | .unknownReference text file target =>
      s!"reference `{text}` in {file} targets unknown symbol {target}"
  | .unknownAliasTarget name file target =>
      s!"alias `{name}` in {file} targets unknown symbol {target}"
  | .unknownAliasContainer name file container =>
      s!"alias `{name}` in {file} has unknown container {container}"
  | .aliasOutside name file => s!"alias `{name}` is declared in unknown document {file}"
  | .collision identifier => s!"`{identifier}` is claimed by more than one symbol"
  | .edgeWithoutTarget label id => s!"{label} edge {id} has no target"
  | .edgeAhead label id endpoint =>
      s!"{label} edge {id} references element {endpoint} which was not emitted before it"
  | .unknownSymbolKind text => s!"Unknown symbol kind: {text}"
  | .unknownEdgeLabel text => s!"Unknown edge label: {text}"
  | .uriScheme uri => s!"URI must start with file://: {uri}"
  | .uriRelative uri => s!"URI path must be absolute: {uri}"
  | .unreadable cause => cause.message
  | .json .malformed => "the text is not well formed"
  | .json .truncated => "the text ends too early"
  | .json .mismatch => "the value has another shape than expected"

/-- The words that introduce an error of the given kind. -/
def heading : ErrorKind → String
  | .inconsistency => "Adapter inconsistency: "
  | .collision => "Moniker collision: "
  | .emissionOrder => "Emission order violated: "
  | .invalidKind => "Invalid kind: "
  | .invalidUri => "Invalid URI: "
  | .file => "IO error: "
  | .json => "JSON error: "

/-- An error in words. -/
def message (error : Error) : String :=
  heading error.kind ++ error.detail

end Error

end MonikerIndex
