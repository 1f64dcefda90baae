import JsxStyle.Settings.Decode
import JsxStyle.Toml.Scalar
import JsxStyle.Toml.Table

/-!
# Documents

A document is a sequence of lines: entries, headers that open a table for the
entries behind them, comments and empty lines.  Lists may run over several
lines and records in braces may not.  The document as a whole is a record.
-/

namespace JsxStyle

namespace Toml

open Ascii Reader

/-- Takes the items of a list up to its closing bracket; `item` takes one of them. -/
def listTail (item : Reader Value) : Reader Value := do
  let items ← option (separated (filler *> item <* filler) (word [comma]))
  if items.isSome then
    let _ ← option (word [comma])
  filler
  word [closeBracket]
  return .list (items.getD [])

/-- Takes the entries of a record up to its closing brace; `item` takes a value. -/
def recordTail (item : Reader Value) : Reader Value := do
  let entry : Reader (List Text × Value) := do
    let path ← key
    word [equals]
    blanks
    let value ← item
    blanks
    return (path, value)
  let pairs ← option (separated entry (word [comma]))
  blanks
  word [closeBrace]
  let entries ← (Entries.ofPairs (pairs.getD []) : Option Entries)
  return .record (entriesToValues entries)

/-- Takes a value with lists and records nested at most `depth` levels deep. -/
def valueWithin : (depth : Nat) → Reader Value
  | 0 => scalar
  | depth + 1 => do
    match ← peek with
    | some b =>
      if b = openBracket then word [openBracket] *> listTail (valueWithin depth)
      else if b = openBrace then word [openBrace] *> recordTail (valueWithin depth)
      else scalar
    | none => failure

/-- Takes a value. -/
def value : Reader Value :=
  valueWithin (depthLimit - 1)

/-- A document that has been read up to some header. -/
structure Outline where
  /-- The tables that are finished. -/
  root : Entries := []
  /-- The entries of the table that is open. -/
  current : Entries := []
  /-- The path of that table; empty for the document itself. -/
  path : List Text := []
  /-- Whether its header stands in double brackets. -/
  repeats : Bool := false

namespace Outline

/-- The tables with the open one put in. -/
def close (d : Outline) : Option Entries :=
  if d.path.isEmpty then some d.current
  else if d.repeats then do
    let earlier ← match ← d.root.find? d.path with
      | none => some []
      | some (.tables elements) => some elements
      | some _ => none
    d.root.store d.path (.tables (earlier ++ [d.current]))
  else d.root.store d.path (.table false false d.current)

/-- Opens the table that a header in single brackets names. -/
def openTable (path : List Text) (d : Outline) : Option Outline := do
  let root ← d.close
  match ← root.find? path with
  | none => return { root, path }
  | some (.table true false entries) => return { root, path, current := entries }
  | some _ => none

/-- Opens one more of the tables that a header in double brackets names. -/
def openElement (path : List Text) (d : Outline) : Option Outline := do
  let root ← d.close
  match ← root.find? path with
  | none | some (.tables _) => return { root, path, repeats := true }
  | some _ => none

/-- Puts an entry into the table that is open. -/
def insert (path : List Text) (value : Value) (d : Outline) : Option Outline := do
  let current ← d.current.insert path.dropLast (← path.getLast?) value
  return { d with current }

end Outline

/-- Takes a header and opens its table. -/
def header (d : Outline) : Reader Outline :=
  (do
    word [openBracket, openBracket]
    let path ← key
    word [closeBracket, closeBracket]
    lineEnd
    (d.openElement path : Option Outline)) <|>
  (do
    word [openBracket]
    let path ← key
    word [closeBracket]
    lineEnd
    (d.openTable path : Option Outline))

/-- Takes an entry. -/
def entry (d : Outline) : Reader Outline := do
  let path ← key
  word [equals]
  blanks
  let v ← value
  lineEnd
  (d.insert path v : Option Outline)

/-- Takes the lines of a document, for at most `rounds` rounds. -/
def lines : (rounds : Nat) → Outline → Reader Outline
  | 0, d => pure d
  | rounds + 1, d => do
    blanks
    match ← peek with
    | none => return d
    | some b =>
      if b = openBracket then lines rounds (← header d)
      else if b = 0x23 ∨ b = newline ∨ b = carriageReturn then
        lineEnd
        lines rounds d
      else lines rounds (← entry d)

/-- Takes a document.  A byte order mark in front of it does not count. -/
def document : Reader Value := do
  let _ ← option (word [0xEF, 0xBB, 0xBF])
  let d ← lines ((← get).length + 1) {}
  let entries ← (d.close : Option Entries)
  return .record (entriesToValues entries)

end Toml

/-- The settings that a TOML document stands for. -/
def Settings.ofToml? (source : Text) : Option Settings := do
  Settings.ofValue? false (← Toml.document.run? source)

end JsxStyle
