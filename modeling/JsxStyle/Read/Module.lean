import JsxStyle.Read.Code
import JsxStyle.Read.Markup
import JsxStyle.Read.Operand
import JsxStyle.Tree.Store

/-!
# Modules

A module is code from one end to the other.  This file ties the readers
together: an expression is an operand that fills its range, and opaque code
with what is found in it otherwise; what it contains begins further on, so
nesting is bounded by the length of the text and a reader one level up may use
the readers one level down.
-/

namespace JsxStyle

namespace Read

/-- The range `lo` to `hi` without the ASCII white space at its ends. -/
def shrink (src : Text) (lo hi : Nat) : Span :=
  let start := Scan.skipSpace src lo hi
  ⟨start, start + ((src.slice start hi).reverse.dropWhile Byte.isSpace).length⟩

/-- Reads the expression that fills the range `lo` to `hi`. -/
def expression (r : Readers) (src : Text) (lo hi : Nat) : Result Ast := do
  let range := shrink src lo hi
  if range.lo = range.hi then return Ast.placed lo hi (.fragment [])
  if let some found ← operand r src range.lo range.hi then
    if Scan.skipSpace src found.stop range.hi = range.hi then return found.ast
  let parts ← code r src range.lo range.hi
  return Ast.placed range.lo range.hi (.fragment parts)

/-- The readers that look `depth` levels into a text. -/
def readers (src : Text) : (depth : Nat) → Readers
  | 0 => {
      expression := fun lo _ => .error ⟨.tooDeep, lo⟩
      element := fun lo _ => .error ⟨.tooDeep, lo⟩ }
  | depth + 1 =>
    let below := readers src depth
    { expression := expression ⟨below.expression, element below src⟩ src
      element := element below src }

/-- Reads a module as the nodes of its program. -/
def program (src : Text) : Result (List Ast) :=
  code (readers src (src.length + 1)) src 0 src.length

/-- Reads a text that is one expression, as a tree without places. -/
def snippet (src : Text) : Result Ast :=
  Ast.unplaced <$> (readers src (src.length + 1)).expression 0 src.length

end Read

namespace Tree

/-- The tree of a module. -/
def ofSource (source : Text) : Except ReadError Tree :=
  ofBody source <$> Read.program source

/-- Adds the nodes of a text that is one expression, apart from the program. -/
def graftSnippet (t : Tree) (code : Text) : Except ReadError (NodeId × Tree) :=
  (fun ast => (graft ast).run t) <$> Read.snippet code

end Tree

end JsxStyle
