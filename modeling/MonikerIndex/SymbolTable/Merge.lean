import MonikerIndex.SymbolTable.Basic

/-!
# Merging symbols into records

Symbols are settled one after the other, each after its parent. A symbol joins the group that has
its name in its space, or starts a new group. The order in which symbols are settled depends on
the places of their declarations, not on the order in which they were reported; so does, then, the
order of the records.

When all symbols are settled, every group becomes a record: its sites are put in order, each place
is kept once, and the first site decides on the kind.
-/

namespace MonikerIndex

/-! ### Consistency of the reported symbols -/

namespace Program

/-- Checks each symbol: no earlier one has its handle, it is declared somewhere, and only in
    documents. -/
def checkSymbols (program : Program) : List Handle → List Symbol → Except Error Unit
  | _, [] => .ok ()
  | seen, symbol :: symbols =>
      if seen.contains symbol.handle then .error (.handleTwice symbol.handle)
      else if symbol.declarations.isEmpty then .error (.undeclared symbol.handle symbol.name)
      else
        match symbol.declarations.find? (!program.hasDocument ·.file) with
        | some declaration => .error (.symbolOutside symbol.handle declaration.file)
        | none => checkSymbols program (symbol.handle :: seen) symbols

/-- Checks that the parent of each symbol is a symbol. -/
def checkParents (program : Program) : List Symbol → Except Error Unit
  | [] => .ok ()
  | symbol :: symbols =>
      match symbol.parent with
      | some parent =>
          if (program.symbol? parent).isSome then checkParents program symbols
          else .error (.unknownParent symbol.handle parent)
      | none => checkParents program symbols

/-! ### The order of settling -/

/-- The symbol and all symbols it lies in, from the inside out. `below` holds the handles passed on
    the way up; to meet one of them again is an error. -/
def ascend (program : Program) : Nat → List Handle → Symbol → Except Error (List Symbol)
  | 0, _, symbol => .error (.cyclicScope symbol.handle)
  | steps + 1, below, symbol =>
      if below.contains symbol.handle then .error (.cyclicScope symbol.handle)
      else
        match symbol.parent with
        | none => .ok [symbol]
        | some parent =>
            match program.symbol? parent with
            | none => .error (.unknownParent symbol.handle parent)
            | some outer => (ascend program steps (symbol.handle :: below) outer).map (symbol :: ·)

/-- A symbol's ancestors and the symbol, from the outside in. A way up without repetition is no
    longer than the list of symbols, so one step more is enough to find a repetition. -/
def lineage (program : Program) (symbol : Symbol) : Except Error (List Symbol) :=
  (program.ascend (program.symbols.length + 1) [] symbol).map List.reverse

/-- The symbols by their least place; handles decide between equal places. -/
def sortedSymbols (program : Program) : List Symbol :=
  sortBy (compareLex (compareOn Symbol.leastPlace?) (compareOn Symbol.handle)) program.symbols

/-- The symbols in the order in which they are settled, parents first. A symbol occurs once for
    every symbol inside it; only its first occurrence counts. -/
def settlingOrder (program : Program) : Except Error (List Symbol) :=
  (program.sortedSymbols.mapM program.lineage).map List.flatten

/-! ### Spaces -/

/-- The least file in which a symbol is declared. -/
def leastFile (symbol : Symbol) : String :=
  match symbol.declarations.map Declaration.file with
  | [] => ""
  | first :: others => others.foldl (fun best file => if file < best then file else best) first

/-- The space of a symbol whose parent has become the given record. -/
def spaceOf (program : Program) (symbol : Symbol) (parent : Option Nat) : Space :=
  if symbol.scope = .confined ∨ symbol.name.isNone then .alone symbol.handle
  else
    match parent with
    | some id => .container id
    | none =>
        if symbol.kind = .moduleBlock ∨ symbol.scope = .global then .global
        else if program.isModuleFile (leastFile symbol) then .moduleFile (leastFile symbol)
        else .global

end Program

/-! ### Groups -/

/-- The symbols merged so far into one record. -/
structure Group where
  name : Option String
  kind : SymbolKind
  parent : Option Nat
  scope : SymbolScope
  space : Space
  exported : Bool
  exportForm : Option ExportForm
  sites : List Site
  handles : List Handle
  deriving DecidableEq, Repr, Inhabited

namespace Group

/-- A group of one symbol. -/
def ofSymbol (symbol : Symbol) (parent : Option Nat) (space : Space) : Group where
  name := symbol.name
  kind := symbol.kind
  parent := parent
  scope := symbol.scope
  space := space
  exported := symbol.exported
  exportForm := symbol.exportForm
  sites := symbol.declarations.map (Site.ofDeclaration symbol)
  handles := [symbol.handle]

/-- The group with one more symbol. It is exported if any of its symbols is, and has the export
    form of the first that has one. -/
def absorb (group : Group) (symbol : Symbol) : Group :=
  { group with
    exported := group.exported || symbol.exported
    exportForm := group.exportForm.or symbol.exportForm
    sites := group.sites ++ symbol.declarations.map (Site.ofDeclaration symbol)
    handles := group.handles ++ [symbol.handle] }

/-- The place of the group that a handle was merged into. -/
def find? (groups : List Group) (handle : Handle) : Option Nat :=
  groups.findIdx? (·.handles.contains handle)

/-- Settles a symbol whose parent is settled. A symbol that is settled already changes nothing. -/
def settle (program : Program) (groups : List Group) (symbol : Symbol) : List Group :=
  if (find? groups symbol.handle).isSome then groups
  else
    let parent := symbol.parent.bind (find? groups)
    let space := program.spaceOf symbol parent
    match groups.findIdx? fun group => group.space == space && group.name == symbol.name with
    | some i => groups.modify i (·.absorb symbol)
    | none => groups ++ [ofSymbol symbol parent space]

end Group

/-! ### Records -/

namespace Site

/-- The sites after a given one, without those that are at the same place as the one before. -/
def dedupAfter (last : Site) : List Site → List Site
  | [] => []
  | site :: sites =>
      if last.place = site.place then dedupAfter last sites else site :: dedupAfter site sites

/-- Drops every site that is at the same place as the one before it. -/
def dedup : List Site → List Site
  | [] => []
  | site :: sites => site :: dedupAfter site sites

/-- The sites in the order of places, each place once. Of several sites at one place the one that
    came first is kept. -/
def arrange (sites : List Site) : List Site :=
  dedup (sortBy (compareOn place) sites)

end Site

namespace SymbolTable

/-- The record that a group becomes, without its members. -/
def recordOf (id : Nat) (group : Group) : Record :=
  let sites := Site.arrange group.sites
  { id := id
    name := group.name
    kind := (sites.head?.map Site.kind).getD group.kind
    parent := group.parent
    scope := group.scope
    space := group.space
    exported := group.exported
    exportForm := group.exportForm
    sites := sites
    children := []
    handles := group.handles }

/-- The members of a record, in the order of their first sites. -/
def childrenOf (records : List Record) (id : Nat) : List Nat :=
  (sortBy (compareOn fun record => record.canonical?.map Site.place)
    (records.filter fun record => record.parent == some id)).map Record.id

/-- The table of all groups. -/
def ofGroups (groups : List Group) : SymbolTable :=
  let records := groups.mapIdx recordOf
  ⟨records.map fun record => { record with children := childrenOf records record.id }⟩

end SymbolTable

/-- The table of a program's records. -/
def Program.merge (program : Program) : Except Error SymbolTable := do
  program.checkSymbols [] program.symbols
  program.checkParents program.symbols
  let order ← program.settlingOrder
  return SymbolTable.ofGroups (order.foldl (Group.settle program) [])

end MonikerIndex
