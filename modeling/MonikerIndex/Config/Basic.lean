import MonikerIndex.Graph.Output
import MonikerIndex.Index.Emission
import MonikerIndex.Toml.Reader

/-!
# Settings of the command line

A settings file may set the scheme, the language, the output format and the root. What it does not
set keeps its default.
-/

namespace MonikerIndex

/-- The settings; each may be absent. -/
structure Config where
  scheme : Option String := none
  languageId : Option String := none
  format : Option OutputFormat := none
  /-- Replaces the root that the facts give. -/
  root : Option String := none
  deriving DecidableEq, Repr, Inhabited

namespace Config

/-- The settings that a new settings file starts with. -/
def starter : Config :=
  let defaults : IndexOptions := {}
  { scheme := some defaults.scheme
    languageId := some defaults.languageId
    format := some .line }

/-- The options of a run under the settings. -/
def options (config : Config) : IndexOptions :=
  let defaults : IndexOptions := {}
  { defaults with
    scheme := config.scheme.getD defaults.scheme
    languageId := config.languageId.getD defaults.languageId }

/-! ### Writing -/

/-- The line that sets a key; nothing if the value is absent. -/
def entry (key : String) : Option String → List Char
  | none => []
  | some value => key.toList ++ ([' ', '=', ' '] ++ (Toml.quote value ++ ['\n']))

/-- The text of a settings file. -/
def render (config : Config) : String :=
  String.ofList (entry "scheme" config.scheme ++ (entry "language_id" config.languageId ++
    (entry "format" (config.format.map OutputFormat.word) ++ entry "root" config.root)))

/-! ### Reading -/

/-- The text under a key. -/
def text? (members : Toml.Members) (key : String) : Option (Option String) :=
  match members.lookup key with
  | none => some none
  | some (.text value) => some (some value)
  | some _ => none

/-- Whether a value has nothing in it. -/
def isBlank : Toml → Bool
  | .list [] => true
  | .inline [] => true
  | .table _ [] => true
  | _ => false

/-- The output format under a key. Its word may also be the only key of a table, without a value
    to speak of. -/
def format? (members : Toml.Members) (key : String) : Option (Option OutputFormat) :=
  let ofMembers (inner : Toml.Members) : Option (Option OutputFormat) :=
    match inner with
    | [(word, content)] =>
        if isBlank content then (OutputFormat.words.lookup word).map some else none
    | _ => none
  match members.lookup key with
  | none => some none
  | some (.text word) => (OutputFormat.words.lookup word).map some
  | some (.inline inner) => ofMembers inner
  | some (.table _ inner) => ofMembers inner
  | some _ => none

/-- Reads the text of a settings file. Unknown keys are ignored. -/
def parse (text : String) : Option Config := do
  let members ← Toml.parse text
  return {
    scheme := ← text? members "scheme"
    languageId := ← text? members "language_id"
    format := ← format? members "format"
    root := ← text? members "root" }

end Config

end MonikerIndex
