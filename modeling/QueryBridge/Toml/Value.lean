import QueryBridge.Keyed

/-!
# TOML documents

A document is a table that grows statement by statement. Headers open a table for the keys that
follow, and dotted keys open tables on their way. Every table remembers how it came about,
because a table that is written out as a whole cannot be opened again.
-/

namespace QueryBridge

/-- How a table came about. -/
inductive TableOrigin where
  /-- The table is a value. -/
  | inline
  /-- The table has a header of its own. -/
  | header
  /-- A header names the table on the way to another one. -/
  | implied
  /-- A dotted key names the table. -/
  | dotted
deriving DecidableEq, Repr

/-- A TOML value. -/
inductive Toml where
  /-- A string. -/
  | string (content : Text)
  /-- An integer of 64 bits. -/
  | integer (value : Int)
  /-- A float, as it is spelled. -/
  | float (spelling : Text)
  /-- A truth value. -/
  | boolean (value : Bool)
  /-- A date, a time, or both, in the canonical spelling. -/
  | date (spelling : Text)
  /-- An array. -/
  | array (items : List Toml)
  /-- A table. -/
  | table (origin : TableOrigin) (entries : List (Text × Toml))
  /-- An array of tables with headers. -/
  | tables (elements : List (List (Text × Toml)))
deriving Inhabited, Repr

namespace Toml

/-- The entries of a table. -/
abbrev Entries := Keyed Toml

/-- A change to the entries of a table, which may refuse. -/
abbrev Change := TableOrigin → Entries → Option Entries

/-- Changes the table at the end of a path. A table that is missing is made; an array of tables
is entered through its last element; any other value refuses, and so does a table that has a
header if the path belongs to a dotted key. -/
def changeAt (ofKey : Bool) (change : Change) (origin : TableOrigin) :
    List Text → Entries → Option Entries
  | [], entries => change origin entries
  | key :: path, entries =>
    match entries.get? key with
    | none => do
      let made := if ofKey then TableOrigin.dotted else .implied
      let inner ← changeAt ofKey change made path []
      return entries.put key (.table made inner)
    | some (.table .inline _) => none
    | some (.table found inner) => do
      guard !(ofKey && found == .header)
      let inner ← changeAt ofKey change found path inner
      return entries.put key (.table found inner)
    | some (.tables elements) => do
      let last ← elements.getLast?
      let inner ← changeAt ofKey change .header path last
      return entries.put key (.tables (elements.dropLast ++ [inner]))
    | some _ => none

/-- Puts a value under a key that is not taken yet. A dotted key ends in a table that dotted
keys made. -/
def assign (path : List Text) (value : Toml) (entries : Entries) : Option Entries := do
  let key ← path.getLast?
  let way := path.dropLast
  let change : Change := fun origin entries =>
    if (!way.isEmpty && origin != .dotted) || entries.has key then none
    else some (entries.put key value)
  changeAt true change .header way entries

/-- Opens a table with a header. -/
def openTable (path : List Text) (entries : Entries) : Option Entries := do
  let key ← path.getLast?
  let change : Change := fun _ entries =>
    match entries.get? key with
    | none => some (entries.put key (.table .header []))
    | some (.table .implied inner) => some (entries.put key (.table .header inner))
    | some _ => none
  changeAt false change .header path.dropLast entries

/-- Opens a further element of an array of tables. -/
def openElement (path : List Text) (entries : Entries) : Option Entries := do
  let key ← path.getLast?
  let change : Change := fun _ entries =>
    match entries.get? key with
    | none => some (entries.put key (.tables [[]]))
    | some (.tables elements) => some (entries.put key (.tables (elements ++ [[]])))
    | some _ => none
  changeAt false change .header path.dropLast entries

/-- An inline table from its keys and values. -/
def inlineTable? (pairs : List (List Text × Toml)) : Option Toml :=
  (pairs.foldlM (fun entries (path, value) => assign path value entries) []).map (.table .inline)

/-- A statement of a document. -/
inductive Statement where
  /-- The header of a table. -/
  | table (path : List Text)
  /-- The header of an element of an array of tables. -/
  | element (path : List Text)
  /-- A key and its value. -/
  | assign (path : List Text) (value : Toml)
deriving Repr

/-- A document while it is read. -/
structure Document where
  /-- The entries read so far. -/
  root : Entries
  /-- The path of the table that takes the next key. -/
  current : List Text
deriving Repr

namespace Document

/-- The empty document. -/
def empty : Document := ⟨[], []⟩

/-- Adds a statement. -/
def add (document : Document) : Statement → Option Document
  | .table path => (openTable path document.root).map (⟨·, path⟩)
  | .element path => (openElement path document.root).map (⟨·, path⟩)
  | .assign path value =>
    (changeAt false (fun _ => Toml.assign path value) .header document.current document.root).map
      (⟨·, document.current⟩)

end Document

/-- The entries of a document from its statements. -/
def ofStatements? (statements : List Statement) : Option Entries :=
  (statements.foldlM Document.add Document.empty).map Document.root

end Toml

end QueryBridge
