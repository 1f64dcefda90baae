import JsxStyle.Read.Reading
import JsxStyle.Scan.Context

/-!
# Import statements

An import statement begins a line, binds names and ends with the source it
imports from, as a string.  Its clause is taken apart by commas and braces;
what is remembered of it are the default binding and the named ones.  The
statement reaches over one semicolon and the line break behind it, so that
removing it removes the line.
-/

namespace JsxStyle

namespace Read

open Ascii

/-- The word that begins an import statement. -/
def importWord : Text :=
  Text.ofString "import"

/-- The modifier of a type-only import or binding. -/
def typeWord : Text :=
  Text.ofString "type "

/-- Whether an import statement may begin at `i`, in code that begins at `lo`:
the word is there and stands alone, at the start of a line. -/
def importStarts (src : Text) (lo i : Nat) : Bool :=
  importWord.isPrefixOf (src.drop i) &&
    (src[i + 6]?).any (fun b => b.isSpace || b == openBrace || b == star) &&
    (i == lo || !(src[i - 1]?).any Byte.isIdentChar) &&
    Scan.atLineStart src i

/-- One entry between the braces of a clause; blank entries bind nothing. -/
def binding? (entry : Text) : Option Binding :=
  let entry := Text.dropLead typeWord entry.trim
  if entry.isEmpty then none
  else
    match Text.splitOnce (Text.ofString " as ") entry with
    | some (imported, bound) => some ⟨imported.trim, bound.trim⟩
    | none => some ⟨entry, entry⟩

/-- The default binding at the head of a clause: its first entry that is
neither blank nor a namespace. -/
def defaultBinding? (head : Text) : Option Text :=
  ((Text.pieces comma head).map Text.trim).find? fun part =>
    !part.isEmpty && part.head? != some star

/-- The default binding and the named bindings of a clause. -/
def clauseBindings (clause : Text) : Option Text × List Binding :=
  match clause.findIdx? (· == openBrace) with
  | none => (defaultBinding? clause, [])
  | some i =>
    let inner := (clause.drop (i + 1)).takeWhile (· != closeBrace)
    (defaultBinding? (clause.take i), (Text.pieces comma inner).filterMap binding?)

/-- The clause proper: without the white space and the words around it. -/
def clauseProper (clause : Text) : Text :=
  Text.dropLead typeWord (Text.dropTrail (Text.ofString "from") clause.trim).trim

/-- The offset at which a statement whose source string ends at `stop` ends:
behind blanks, a semicolon and a line break. -/
def statementEnd (src : Text) (stop hi : Nat) : Nat :=
  let blanks := stop + ((src.slice stop hi).takeWhile fun b => b == space || b == tab).length
  let mark := if (src.slice blanks hi).head? = some semicolon then blanks + 1 else blanks
  if [carriageReturn, newline].isPrefixOf (src.drop mark) then mark + 2
  else if [newline].isPrefixOf (src.drop mark) then mark + 1
  else mark

theorem le_statementEnd (src : Text) (stop hi : Nat) : stop ≤ statementEnd src stop hi := by
  unfold statementEnd
  dsimp only
  have hmark (m : Nat) (h : stop ≤ m) :
      stop ≤ if [carriageReturn, newline].isPrefixOf (src.drop m) then m + 2
        else if [newline].isPrefixOf (src.drop m) then m + 1 else m := by
    split
    · exact Nat.le_add_right_of_le h
    · split
      · exact Nat.le_add_right_of_le h
      · exact h
  apply hmark
  split
  · exact Nat.le_add_right_of_le (Nat.le_add_right ..)
  · exact Nat.le_add_right ..

/-- A statement that begins at `lo` ends behind it. -/
theorem lt_statementEnd (src : Text) (lo i n hi : Nat) :
    lo < statementEnd src (lo + 6 + i + 1 + n) hi :=
  Nat.lt_of_lt_of_le (by omega) (le_statementEnd ..)

/-- Reads the import statement at `lo`.  A parenthesis or a semicolon before the
source string means that there is none. -/
def importAt (src : Text) (lo hi : Nat) : Option (Reading lo) := do
  let start := lo + 6
  let i ← (src.slice start hi).findIdx? fun b => b.isQuote || b == openParen || b == semicolon
  match src.drop (start + i) with
  | [] => none
  | b :: rest =>
    if b.isQuote then
      let n ← Scan.stringTail b rest
      let stop := statementEnd src (start + i + 1 + n) hi
      let bindings := clauseBindings (clauseProper (src.slice start (start + i)))
      let decl : ImportDecl := {
        source := rest.take (n - 1)
        default? := bindings.1
        named := bindings.2
        raw := src.slice lo stop }
      return {
        ast := Ast.placed lo stop (.importing decl)
        stop := stop
        advances := lt_statementEnd src lo i n hi }
    else none

end Read

end JsxStyle
