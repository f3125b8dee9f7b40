import MonikerIndex.Config.Basic
import MonikerIndex.Disk

/-!
# Settings files

Loading a settings file that does not exist gives no settings, and that is no error. Saving refuses
to replace what is there unless it is told to.
-/

namespace MonikerIndex

/-- Why settings could not be loaded or saved. -/
inductive ConfigError where
  | file (cause : FileError)
  /-- The text does not set what it may set. -/
  | malformed
  /-- There is something at the path already. -/
  | taken (path : String)
  deriving DecidableEq, Repr, Inhabited

/-- The words for an error with settings. -/
def ConfigError.message : ConfigError → String
  | .file cause => cause.message
  | .malformed => "TOML parse error"
  | .taken path => s!"config already exists at {path} (use --force to overwrite)"

namespace Config

/-- Where settings are when nothing else is said. -/
def defaultPath : String := "lsif-moniker.toml"

/-- Loads the settings at a path, if there is anything. -/
def load [Monad m] (disk : Disk m) (path : String) : m (Except ConfigError (Option Config)) := do
  if !(← disk.isPresent path) then return .ok none
  match ← disk.read path with
  | .error cause => return .error (.file cause)
  | .ok text =>
      match parse text with
      | some config => return .ok (some config)
      | none => return .error .malformed

/-- Saves settings at a path. -/
def save [Monad m] (disk : Disk m) (path : String) (config : Config) (force : Bool) :
    m (Except ConfigError Unit) := do
  if (← disk.isPresent path) && !force then return .error (.taken path)
  match ← disk.write path config.render with
  | .ok () => return .ok ()
  | .error cause => return .error (.file cause)

end Config

end MonikerIndex
