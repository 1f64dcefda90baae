import JsxStyle.Scan.Group
import JsxStyle.Text.Blank
import JsxStyle.Text.Span

/-!
# Comma-separated segments

The elements of an array literal and the arguments of a call are separated by
commas at the top level of their range: a comma inside brackets, a string, a
template or a block comment does not count.  A comment that runs to the end
of its line is not recognised here, so its commas separate like any others.
-/

namespace JsxStyle

namespace Scan

open Ascii

/-- The segments of the range up to `hi`, the first of which starts at
`start`; everything up to offset `i` has been looked at.  A final segment of
white space is dropped, as after a trailing comma. -/
def segmentsFrom (src : Text) (hi start i : Nat) : Option (List Span) :=
  if i < hi then
    match src.drop i with
    | [] => some []
    | b :: rest =>
      match lead b rest with
      | .string quote =>
        match stringTail quote rest with
        | none => none
        | some n => segmentsFrom src hi start (i + 1 + n)
      | .template =>
        match closeTail .template [] rest with
        | none => none
        | some n => segmentsFrom src hi start (i + 1 + n)
      | .group close =>
        match closeTail (.group close) [] rest with
        | none => none
        | some n => segmentsFrom src hi start (i + 1 + n)
      | .blockComment =>
        match commentTail (rest.drop 1) with
        | none => none
        | some n => segmentsFrom src hi start (i + 2 + n)
      | .lineComment => segmentsFrom src hi start (i + 1)
      | .plain =>
        if b = comma then (segmentsFrom src hi (i + 1) (i + 1)).map (⟨start, i⟩ :: ·)
        else segmentsFrom src hi start (i + 1)
  else if (src.slice start hi).isBlank then some []
  else some [⟨start, hi⟩]
termination_by hi - i

/-- The ranges between the top-level commas of `lo` to `hi`. -/
def segments (src : Text) (lo hi : Nat) : Option (List Span) :=
  segmentsFrom src hi lo lo

end Scan

end JsxStyle
