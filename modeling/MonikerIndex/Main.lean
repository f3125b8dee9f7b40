import MonikerIndex.Command.Run

/-!
# The program

Reads the arguments, gives the command the file system to work on, and prints its outcome.
-/

namespace MonikerIndex

/-- What went wrong with a file. Some calls give the number of the cause with its sign reversed. -/
def fileError : IO.Error → FileError
  | .noFileOrDirectory .. => .missing
  | .inappropriateType _ number description =>
      if number = 21 ∨ -number = 21 then .isDirectory
      else if number = 20 ∨ -number = 20 then .notDirectory
      else .other description
  | .permissionDenied .. => .other "Permission denied (os error 13)"
  | cause => .other (toString cause)

/-- The file system of the machine. -/
def fileSystem : Disk IO where
  isPresent path := do
    match ← (IO.FS.Handle.mk path .read).toBaseIO with
    | .ok _ => return true
    | .error cause => return fileError cause != .missing && fileError cause != .notDirectory
  read path := do
    match ← (IO.FS.readBinFile path).toBaseIO with
    | .ok bytes => return (String.fromUTF8? bytes).elim (.error .notText) .ok
    | .error cause => return .error (fileError cause)
  write path text := do
    return (← (IO.FS.writeFile path text).toBaseIO).mapError fileError

/-- Prints a notice, with the time that the run has taken so far where it belongs. -/
def printNotice (theme : Theme) (started : Nat) (notice : Notice) : IO Unit := do
  let now ← IO.monoMsNow
  let mark := if notice = .elapsed then s!" {now - started}ms" else ""
  for line in notice.lines theme do
    IO.eprintln (line ++ mark)

/-- Runs a command on the file system. -/
def execute (invocation : Invocation) : IO UInt32 := do
  let started ← IO.monoMsNow
  let quiet := Command.isQuiet (← IO.getEnv "LSIF_MONIKER_QUIET")
  let theme : Theme := if ← (← IO.getStderr).isTty then .colored else .plain
  let outcome ← Command.run fileSystem quiet invocation
  IO.print outcome.output
  for notice in outcome.notices do
    printNotice theme started notice
  if let some failure := outcome.failure then
    IO.eprintln ("❌ " ++ theme.paint .error failure.message)
  return outcome.code

/-- Reads the arguments and does what they ask for. -/
def launch (arguments : List String) : IO UInt32 := do
  match Arguments.parse arguments with
  | .ok invocation => execute invocation
  | .error .version => do
      IO.println Command.version
      return 0
  | .error .help => do
      IO.println Command.usage
      return 0
  | .error .usage => do
      IO.eprintln Command.usage
      return 2

end MonikerIndex

/-- The entry point. -/
def main (arguments : List String) : IO UInt32 :=
  MonikerIndex.launch arguments
