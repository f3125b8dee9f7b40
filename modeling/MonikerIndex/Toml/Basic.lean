/-!
# Settings in TOML

A settings text is a tree of tables. Each table remembers how it came about, because that decides
on how it may still be extended:
* `headed`: by a header of its own. It is complete, apart from tables inside it.
* `implied`: by the header of a table inside it. A header of its own may follow, and keys with dots
  may lead through it.
* `dotted`: by a key with dots. Further keys with dots may extend it.

Of the values, only texts matter here; a value written without quotation marks is kept as it
stands.
-/

namespace MonikerIndex

/-- How a table came about. -/
inductive TableOrigin where
  | headed
  | implied
  | dotted
  deriving DecidableEq, Repr, Inhabited

/-- A value in a settings text. -/
inductive Toml where
  /-- A quoted text. -/
  | text (value : String)
  /-- A number, a truth value or a point in time. -/
  | plain (value : String)
  | list (items : List Toml)
  /-- A table between braces. Nothing can be added to it. -/
  | inline (members : List (String × Toml))
  | table (origin : TableOrigin) (members : List (String × Toml))
  /-- Tables under one repeated header, the last one first. -/
  | tables (latest : List (String × Toml)) (earlier : List (List (String × Toml)))
  deriving Repr, Inhabited

namespace Toml

/-- The members of a table. -/
abbrev Members := List (String × Toml)

/-- Changes the value of one key, in its place. A new key comes last. -/
def alter (key : String) (change : Option Toml → Option Toml) : Members → Option Members
  | [] => (change none).map fun value => [(key, value)]
  | (other, value) :: members =>
      if other = key then (change (some value)).map fun value => (other, value) :: members
      else (alter key change members).map ((other, value) :: ·)

/-- Gives a key its value, which no key gets twice. A key with dots leads through tables that such
    keys have made. It may also lead through tables that headers have implied, and through the
    latest table of a repeated header, but it does not add a value to any of these. -/
def assign : List String → Toml → Members → Option Members
  | [], _, _ => none
  | [key], value, members =>
      alter key (fun old => if old.isNone then some value else none) members
  | key :: keys, value, members =>
      alter key (fun old =>
        match old with
        | none => (assign keys value []).map (.table .dotted)
        | some (.table .dotted inner) => (assign keys value inner).map (.table .dotted)
        | some (.table .implied inner) =>
            if keys.length = 1 then none else (assign keys value inner).map (.table .implied)
        | some (.tables latest earlier) =>
            if keys.length = 1 then none
            else (assign keys value latest).map fun latest => .tables latest earlier
        | some _ => none) members

/-- Changes the table at the end of a path, which need not exist yet. The path of a header leads
    through all kinds of tables, and to the latest one under a repeated header. -/
def reach (change : Option Toml → Option Toml) : List String → Members → Option Members
  | [], _ => none
  | [key], members => alter key change members
  | key :: keys, members =>
      alter key (fun old =>
        match old with
        | none => (reach change keys []).map (.table .implied)
        | some (.table origin inner) => (reach change keys inner).map (.table origin)
        | some (.tables latest earlier) =>
            (reach change keys latest).map fun latest => .tables latest earlier
        | some _ => none) members

/-- Starts the table of a header. -/
def openTable : List String → Members → Option Members :=
  reach fun old =>
    match old with
    | none => some (.table .headed [])
    | some (.table .implied inner) => some (.table .headed inner)
    | some _ => none

/-- Starts a further table of a repeated header. -/
def openRepeated : List String → Members → Option Members :=
  reach fun old =>
    match old with
    | none => some (.tables [] [])
    | some (.tables latest earlier) => some (.tables [] (latest :: earlier))
    | some _ => none

/-- Gives a key its value in the table that a header has started. -/
def assignUnder (header keys : List String) (value : Toml) (members : Members) : Option Members :=
  if header.isEmpty then assign keys value members
  else
    reach (fun old =>
      match old with
      | some (.table origin inner) => (assign keys value inner).map (.table origin)
      | some (.tables latest earlier) =>
          (assign keys value latest).map fun latest => .tables latest earlier
      | _ => none) header members

end Toml

end MonikerIndex
