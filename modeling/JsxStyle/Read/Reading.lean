import JsxStyle.Read.Error
import JsxStyle.Scan.Template
import JsxStyle.Tree.Ast

/-!
# Readings

A reading is a node together with the offset behind it, and that offset lies
ahead of where the reading began.  Expressions contain markup and markup
contains expressions, so the two readers are handed to each other as a pair,
`Readers`; what is defined here needs no more than such a pair.
-/

namespace JsxStyle

namespace Read

/-- A result or the reason there is none. -/
abbrev Result := Except ReadError

/-- A node read from `lo` on, and the offset behind it. -/
structure Reading (lo : Nat) where
  ast : Ast
  stop : Nat
  advances : lo < stop

/-- A reading that began earlier than it is known to. -/
def Reading.back {lo lo' : Nat} (h : lo' ≤ lo) (r : Reading lo) : Reading lo' :=
  ⟨r.ast, r.stop, Nat.lt_of_le_of_lt h r.advances⟩

/-- The readers of what can nest: expressions, which fill a given range, and
elements, which begin at one offset and end at or before another. -/
structure Readers where
  expression : (lo hi : Nat) → Result Ast
  element : (lo hi : Nat) → Result (Option (Reading lo))

/-- Reads the expressions of several ranges in order. -/
def Readers.expressions (r : Readers) (ranges : List Span) : Result (List Ast) :=
  ranges.mapM fun s => r.expression s.lo s.hi

/-- The opaque code from `lo` to `hi`, if there is any. -/
def opaqueCode (src : Text) (lo hi : Nat) : List Ast :=
  if lo < hi then [Ast.placed lo hi (.code (src.slice lo hi))] else []

/-- Reads the template literal whose backtick is at `tick`, tagged by a node that begins at `lo`. -/
def taggedTemplate (r : Readers) (src : Text) (tag : Ast) (lo tick : Nat) :
    Result (Reading tick) :=
  match h : Scan.templateParts src tick with
  | none => .error ⟨.unterminatedTemplate, tick⟩
  | some parts => do
    let holes ← r.expressions parts.holes
    return {
      ast := Ast.placed lo parts.stop (.template tag parts.chunks holes)
      stop := parts.stop
      advances := Nat.lt_of_succ_lt (Scan.templateTail_bounds h).1 }

section TaggedTemplate

variable (r : Readers) {src : Text} (tag : Ast) (lo : Nat) {tick : Nat}

/-- A template that does not end is an error at its backtick. -/
theorem taggedTemplate_none (h : Scan.templateParts src tick = none) :
    taggedTemplate r src tag lo tick = .error ⟨.unterminatedTemplate, tick⟩ := by
  unfold taggedTemplate
  split
  case h_1 => rfl
  case h_2 parts hparts => exact absurd (h.symm.trans hparts) (by simp)

/-- A template that ends is read when its holes are. -/
theorem taggedTemplate_some {parts : Scan.TemplateParts}
    (h : Scan.templateParts src tick = some parts) :
    taggedTemplate r src tag lo tick = do
      let holes ← r.expressions parts.holes
      return {
        ast := Ast.placed lo parts.stop (.template tag parts.chunks holes)
        stop := parts.stop
        advances := Nat.lt_of_succ_lt (Scan.templateTail_bounds h).1 } := by
  unfold taggedTemplate
  split
  case h_1 hnone => exact absurd (h.symm.trans hnone) (by simp)
  case h_2 parts' hparts =>
    obtain rfl := Option.some.inj (h.symm.trans hparts)
    rfl

end TaggedTemplate

end Read

end JsxStyle
