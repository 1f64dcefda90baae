import JsxStyle.Read.Reading
import JsxStyle.Scan.Split
import JsxStyle.Text.Escape

/-!
# Operands

The expressions that are understood are strings, arrays, elements and
identifiers, and what can be chained to them: member access, calls and
templates.  Anything that does not fit makes the answer `none`, and the
expression is then kept as opaque code.
-/

namespace JsxStyle

namespace Read

open Ascii

variable (r : Readers) (src : Text)

/-- Reads what is chained, from `pos` on, to an operand that begins at `lo`. -/
def chain (lo hi : Nat) (operand : Ast) (pos : Nat) (h : lo < pos) :
    Result (Option (Reading lo)) :=
  if pos < hi then
    match src.drop pos with
    | [] => pure (some ⟨operand, pos, h⟩)
    | b :: rest =>
      if b = dot ∧ pos + 1 < hi ∧ rest.head?.any Byte.isIdentStart then
        let n := Scan.identLength rest
        let stop := pos + 1 + n
        chain lo hi (Ast.placed lo stop (.member operand (rest.take n))) stop
          (Nat.lt_add_right n (Nat.lt_succ_of_lt h))
      else if b = openParen then
        match Scan.closeTail (.group closeParen) [] rest with
        | none => pure none
        | some n =>
          let close := pos + n
          if close < hi then
            match Scan.segments src (pos + 1) close with
            | none => pure none
            | some ranges => do
              let arguments ← r.expressions ranges
              let stop := close + 1
              chain lo hi (Ast.placed lo stop (.call operand arguments)) stop
                (Nat.lt_succ_of_lt (Nat.lt_add_right n h))
          else pure none
      else if b = tick then
        match Scan.templateEnd src pos with
        | none => pure none
        | some stop =>
          if stop ≤ hi then do
            let tagged ← taggedTemplate r src operand lo pos
            have hadv := tagged.advances
            chain lo hi tagged.ast tagged.stop (Nat.lt_trans h hadv)
          else pure none
      else pure (some ⟨operand, pos, h⟩)
  else pure (some ⟨operand, pos, h⟩)
termination_by hi - pos

/-- Reads the operand at `lo` and what is chained to it. -/
def operand (lo hi : Nat) : Result (Option (Reading lo)) :=
  match src.drop lo with
  | [] => pure none
  | b :: rest =>
    if b.isQuote then
      match Scan.stringTail b rest with
      | none => pure none
      | some n =>
        let stop := lo + 1 + n
        if stop ≤ hi then
          let value := Text.unescape (rest.take (n - 1))
          chain r src lo hi (Ast.placed lo stop (.str value (Char.ofNat b.toNat))) stop (by omega)
        else pure none
    else if b = openBracket then
      match Scan.closeTail (.group closeBracket) [] rest with
      | none => pure none
      | some n =>
        let close := lo + n
        if close < hi then
          match Scan.segments src (lo + 1) close with
          | none => pure none
          | some ranges => do
            let elements ← r.expressions ranges
            let stop := close + 1
            chain r src lo hi (Ast.placed lo stop (.array elements)) stop (by omega)
        else pure none
    else if b = less then r.element lo hi
    else if b.isIdentStart then
      let run := rest.takeWhile Byte.isIdentChar
      let stop := lo + 1 + run.length
      chain r src lo hi (Ast.placed lo stop (.ident (b :: run))) stop (by omega)
    else pure none

end Read

end JsxStyle
