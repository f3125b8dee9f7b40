import MonikerIndex.Graph.Output

/-!
# Arguments

The arguments name a command, with its options after it. Two options are known to every command and
may also stand before it. An option's value is the next argument, or follows the option's name
after an equals sign, or follows its letter directly; letters of options without values may be
joined. No option may be given twice in one place, and where an option is given in both places the
one after the command counts.

Arguments are read from left to right, and the first that cannot be read ends it. So does a
question about the version or for help.
-/

namespace MonikerIndex

/-! ### Options -/

/-- The options of all commands. -/
inductive Flag where
  | verbose
  | config
  | facts
  | out
  | format
  | scheme
  | force
  | version
  | help
  deriving DecidableEq, Repr, Inhabited

namespace Flag

/-- The name of an option. -/
def name : Flag → String
  | .verbose => "verbose"
  | .config => "config"
  | .facts => "facts"
  | .out => "out"
  | .format => "format"
  | .scheme => "scheme"
  | .force => "force"
  | .version => "version"
  | .help => "help"

/-- The letter of an option, if it has one. -/
def letter? : Flag → Option Char
  | .verbose => some 'v'
  | .config => some 'c'
  | .facts => some 'f'
  | .out => some 'o'
  | .format => none
  | .scheme => some 's'
  | .force => none
  | .version => some 'V'
  | .help => some 'h'

/-- Whether an option has a value. -/
def takesValue : Flag → Bool
  | .config | .facts | .out | .format | .scheme => true
  | .verbose | .force | .version | .help => false

/-- Whether an option can have the given value. A path cannot be empty. -/
def accepts (flag : Flag) (value : String) : Bool :=
  match flag with
  | .config | .facts | .out => value != ""
  | .format => (OutputFormat.words.lookup value).isSome
  | _ => true

end Flag

/-! ### Commands -/

/-- What a command is to do. -/
inductive Action where
  /-- Write the graph of a facts file. -/
  | index (facts : String) (out : Option String) (format : Option OutputFormat)
      (scheme : Option String)
  /-- Count the elements of the graph. -/
  | stats (facts : String)
  /-- Write a settings file to start with. -/
  | init (force : Bool)
  deriving DecidableEq, Repr, Inhabited

/-- A command with the options that all commands have. -/
structure Invocation where
  verbose : Bool
  config : Option String
  action : Action
  deriving DecidableEq, Repr, Inhabited

/-- Why the arguments name no command to run. -/
inductive Stop where
  /-- The arguments cannot be read. -/
  | usage
  | version
  | help
  deriving DecidableEq, Repr, Inhabited

namespace Arguments

/-! ### Reading options -/

/-- The options given so far, each with its value; those without values have an empty one. -/
abbrev Given := List (Flag × String)

/-- Notes an option. -/
def note (given : Given) (flag : Flag) (value : String) : Except Stop Given :=
  if flag = .version then .error .version
  else if flag = .help then .error .help
  else if given.any (·.1 == flag) || !flag.accepts value then .error .usage
  else .ok (given ++ [(flag, value)])

/-- Reads joined letters. If the last one still needs a value, it is returned as well. -/
def letters (flags : List Flag) : Given → List Char → Except Stop (Given × Option Flag)
  | given, [] => .ok (given, none)
  | given, letter :: rest =>
      match flags.find? fun flag => flag.letter? == some letter with
      | none => .error .usage
      | some flag =>
          if flag.takesValue then
            match rest with
            | [] => .ok (given, some flag)
            | '=' :: value => do return (← note given flag (String.ofList value), none)
            | value => do return (← note given flag (String.ofList value), none)
          else do
            let given ← note given flag ""
            letters flags given rest

/-- Reads an option by its name, with or without a value after an equals sign. If it still needs a
    value, it is returned as well. -/
def named (flags : List Flag) (given : Given) (chars : List Char) :
    Except Stop (Given × Option Flag) :=
  let name := String.ofList (chars.takeWhile (· != '='))
  let value? := match chars.dropWhile (· != '=') with
    | '=' :: value => some (String.ofList value)
    | _ => none
  match flags.find? fun flag => flag.name == name with
  | none => .error .usage
  | some flag =>
      match value? with
      | some value => do
          if flag.takesValue then return (← note given flag value, none) else throw .usage
      | none => do
          if flag.takesValue then return (given, some flag) else return (← note given flag "", none)

/-- Whether an argument is an option rather than a value. -/
def isOption (argument : String) : Bool :=
  argument.toList.head? == some '-' && argument != "-"

/-- Reads options up to the first argument that is none. Returns it with the arguments after it.
    After `--` there are no more options. -/
def options (flags : List Flag) : Given → List String →
    Except Stop (Given × Option String × List String)
  | given, [] => .ok (given, none, [])
  | given, argument :: rest =>
      if argument = "--" then
        if rest.isEmpty then .ok (given, none, []) else .error .usage
      else if !isOption argument then .ok (given, some argument, rest)
      else do
        let (given, pending) ←
          match argument.toList with
          | '-' :: '-' :: chars => named flags given chars
          | _ :: chars => letters flags given chars
          | [] => throw .usage
        match pending with
        | none => options flags given rest
        | some flag =>
            match rest with
            | [] => throw .usage
            | value :: rest =>
                if isOption value then throw .usage
                else do
                  let given ← note given flag value
                  options flags given rest
termination_by _ arguments => arguments.length

/-! ### Reading commands -/

/-- The options before the command. -/
def commonFlags : List Flag := [.verbose, .config, .version, .help]

/-- The options after each command. -/
def commandFlags : List (String × List Flag) :=
  [("index", [.facts, .out, .format, .scheme, .verbose, .config, .help]),
    ("stats", [.facts, .verbose, .config, .help]),
    ("init", [.force, .verbose, .config, .help])]

/-- What the named command is to do with its options. -/
def action (command : String) (given : Given) : Except Stop Action :=
  match command, given.lookup .facts with
  | "index", some facts =>
      .ok (.index facts (given.lookup .out)
        ((given.lookup .format).bind fun word => OutputFormat.words.lookup word)
        (given.lookup .scheme))
  | "stats", some facts => .ok (.stats facts)
  | "init", _ => .ok (.init (given.lookup .force).isSome)
  | _, _ => .error .usage

/-- What a question for help comes to. It may name one command. -/
def helpStop : List String → Stop
  | [] => .help
  | [topic] => if topic = "help" ∨ (commandFlags.lookup topic).isSome then .help else .usage
  | _ => .usage

/-- Reads all arguments. -/
def parse (arguments : List String) : Except Stop Invocation := do
  let (outer, command?, rest) ← options commonFlags [] arguments
  let command ← command?.elim (throw .usage) pure
  if command = "help" then throw (helpStop rest)
  let flags ← (commandFlags.lookup command).elim (throw .usage) pure
  let (inner, surplus?, _) ← options flags [] rest
  if surplus?.isSome then throw .usage
  return {
    verbose := ((outer ++ inner).lookup .verbose).isSome
    config := (inner.lookup .config).or (outer.lookup .config)
    action := ← action command inner }

end Arguments

end MonikerIndex
