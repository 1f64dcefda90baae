import JsxStyle.Settings.Value

/-!
# Tables under construction

A document names the same table in several places: in headers, in dotted keys,
and by naming tables inside it.  Which of these may be mixed is decided by how
a table came about.  A table that was only passed through on the way to another
is implicit and may still be opened by a header; one that dotted keys made may
be extended by dotted keys alone; one that a header opened, or that was written
as a value, is closed to both.
-/

namespace JsxStyle

namespace Toml

/-- What a name in a table under construction stands for. -/
inductive Item where
  /-- A finished value. -/
  | leaf (value : Value)
  /-- A table: whether it was only passed through, whether dotted keys made it, and its entries. -/
  | table (implicit dotted : Bool) (entries : List (Text × Item))
  /-- The tables that headers in double brackets opened, in order. -/
  | tables (elements : List (List (Text × Item)))

/-- The entries of a table under construction. -/
abbrev Entries := List (Text × Item)

mutual

/-- The value that an item stands for. -/
def Item.toValue : Item → Value
  | .leaf value => value
  | .table _ _ entries => .record (entriesToValues entries)
  | .tables elements => .list (tablesToValues elements)

/-- The values that entries stand for. -/
def entriesToValues : Entries → List (Text × Value)
  | [] => []
  | (name, item) :: rest => (name, item.toValue) :: entriesToValues rest

/-- The records that tables stand for. -/
def tablesToValues : List Entries → List Value
  | [] => []
  | entries :: rest => .record (entriesToValues entries) :: tablesToValues rest

end

namespace Entries

/-- The entries with `item` under `name`, in the place of what was there. -/
def put (name : Text) (item : Item) : Entries → Entries
  | [] => [(name, item)]
  | (other, old) :: rest =>
    if other = name then (name, item) :: rest else (other, old) :: put name item rest

/-- The entries with the table under `path` changed by `f`, which is told
whether dotted keys made that table.  Tables on the way are made if they are
missing; `dotted` says whether the path is part of a dotted key. -/
def descend (dotted : Bool) (f : (made : Bool) → Entries → Option Entries) :
    (path : List Text) → (made : Bool) → Entries → Option Entries
  | [], made, entries => f made entries
  | name :: path, _, entries =>
    match entries.lookup name with
    | none => do
      let inner ← descend dotted f path dotted []
      return entries.put name (.table true dotted inner)
    | some (.leaf _) => none
    | some (.tables elements) => do
      let inner ← descend dotted f path false (elements.getLast?.getD [])
      return entries.put name (.tables (elements.dropLast ++ [inner]))
    | some (.table implicit made inner) => do
      guard (!dotted || implicit)
      let inner ← descend dotted f path made inner
      return entries.put name (.table implicit made inner)

/-- What stands under a path, if tables lead there: `some none` if nothing does yet. -/
def find? : (path : List Text) → Entries → Option (Option Item)
  | [], _ => none
  | [name], entries => some (entries.lookup name)
  | name :: path, entries =>
    match entries.lookup name with
    | none => some none
    | some (.leaf _) => none
    | some (.tables elements) => find? path (elements.getLast?.getD [])
    | some (.table _ _ inner) => find? path inner

/-- The entries with a value under a key, which must be new.  The last table of
a dotted key must be one that dotted keys made. -/
def insert (path : List Text) (name : Text) (value : Value) (entries : Entries) :
    Option Entries :=
  descend true
    (fun made inner => do
      guard (made != path.isEmpty)
      guard (inner.lookup name).isNone
      return inner ++ [(name, .leaf value)])
    path false entries

/-- The entries with `item` under a path of tables. -/
def store (path : List Text) (item : Item) (entries : Entries) : Option Entries := do
  let name ← path.getLast?
  descend false (fun _ inner => some (inner.put name item)) path.dropLast false entries

/-- The record of entries that are written in one place. -/
def ofPairs (pairs : List (List Text × Value)) : Option Entries :=
  pairs.foldlM
    (fun entries (path, value) => do insert path.dropLast (← path.getLast?) value entries) []

end Entries

end Toml

end JsxStyle
