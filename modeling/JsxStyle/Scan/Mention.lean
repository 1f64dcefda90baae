import JsxStyle.Scan.Template
import JsxStyle.Text.Blank

/-!
# Whether code uses a name

Code that is kept as opaque text can still use a binding.  `mentions` looks
for the name as an identifier of its own: not inside a string, a comment or
the text of a template, and not as a property behind a dot.  The holes of a
template are code again and are searched each on its own.  A string or template
that does not end counts for nothing but its first byte, and a block comment
that does not end hides the rest.
-/

namespace JsxStyle

namespace Scan

open Ascii

/-- Whether what follows `before` is a property name: the last visible byte is
a dot, and not the last dot of a spread. -/
def afterDot (before : Text) : Bool :=
  let seen := before.trimEnd
  [dot].isSuffixOf seen && !([dot, dot, dot].isSuffixOf seen)

/-- Behind an offset that is not the end, less is left. -/
theorem left_lt_of_drop_eq_cons {code rest : Text} {b : Byte} {i j : Nat}
    (h : code.drop i = b :: rest) (hij : i < j) : code.length - j < code.length - i := by
  have hlen : (code.drop i).length = rest.length + 1 := by rw [h, List.length_cons]
  rw [List.length_drop] at hlen
  omega

/-- A hole of a template is shorter than the code the template stands in. -/
theorem length_hole_lt {code rest : Text} {b : Byte} {i : Nat} {parts : TemplateParts}
    {hole : Span} (h : code.drop i = b :: rest) (hp : templateTail (i + 1) rest = some parts)
    (hh : hole ∈ parts.holes) : (hole.of code).length < code.length := by
  have hlen : (code.drop i).length = rest.length + 1 := by rw [h, List.length_cons]
  have hstop := (templateTail_bounds hp).2.1
  have hhole := (templateTail_bounds hp).2.2 hole hh
  simp only [Span.of, Text.slice, List.length_take, List.length_drop] at *
  omega

/-- Whether the part of `code` from offset `i` on mentions `name`. -/
def mentionsFrom (name code : Text) (i : Nat) : Bool :=
  match _hrest : code.drop i with
  | [] => false
  | b :: rest =>
    match lead b rest with
    | .string quote => mentionsFrom name code (i + 1 + (stringTail quote rest).getD 0)
    | .lineComment => mentionsFrom name code (i + 1 + lineTail rest)
    | .blockComment =>
      match commentTail (rest.drop 1) with
      | none => false
      | some n => mentionsFrom name code (i + 2 + n)
    | .template =>
      match hparts : templateTail (i + 1) rest with
      | none => mentionsFrom name code (i + 1)
      | some parts =>
        have _hstop := (templateTail_bounds hparts).1
        (parts.holes.attach.any fun hole => mentionsFrom name (hole.1.of code) 0) ||
          mentionsFrom name code parts.stop
    | .group _ | .plain =>
      let run := rest.takeWhile Byte.isIdentChar
      if b.isIdentStart then
        (!afterDot (code.take i) && (b :: run) == name) ||
          mentionsFrom name code (i + 1 + run.length)
      else if b.isIdentChar then mentionsFrom name code (i + 1 + run.length)
      else mentionsFrom name code (i + 1)
termination_by (code.length, code.length - i)
decreasing_by
  any_goals exact Prod.Lex.right _ (left_lt_of_drop_eq_cons _hrest (by omega))
  exact Prod.Lex.left _ _ (length_hole_lt _hrest hparts hole.2)

/-- Whether `code` uses `name` as an identifier of its own. -/
def mentions (name code : Text) : Bool :=
  mentionsFrom name code 0

end Scan

end JsxStyle
