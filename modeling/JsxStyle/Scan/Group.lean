import JsxStyle.Scan.Literal

/-!
# Bracketed groups

A group runs from an opening bracket to the bracket that closes it.  Inside,
strings, comments, templates and further groups are skipped as wholes, so a
bracket in a string closes nothing.  Templates nest the other way round: their
text is opaque except for `$` and an opening brace, which start a group again.
The scanner keeps the constructs it is inside of as a stack of frames.

* `closeTail_bounds`: where a frame closes lies ahead and within the text.
-/

namespace JsxStyle

namespace Scan

open Ascii

/-- A construct that the scanner is inside of. -/
inductive Frame where
  /-- A bracketed group that ends with `close`. -/
  | group (close : Byte)
  /-- The text of a template literal, which ends with a backtick. -/
  | template
deriving DecidableEq, Repr

/-- Bytes up to and including the one that closes the outermost frame, for a
text that starts inside frame `top`, itself inside the frames `below`.  A
literal or comment that does not end, or a closing bracket of the wrong kind,
leaves the frames unclosed. -/
def closeTail (top : Frame) (below : List Frame) (t : Text) : Option Nat :=
  match t with
  | [] => none
  | b :: rest =>
    match top with
    | .template =>
      if b = backslash then (closeTail .template below (rest.drop 1)).map (· + 2)
      else if b = tick then
        match below with
        | [] => some 1
        | next :: outer => (closeTail next outer rest).map (· + 1)
      else if b = dollar ∧ rest.head? = some openBrace then
        (closeTail (.group closeBrace) (.template :: below) (rest.drop 1)).map (· + 2)
      else (closeTail .template below rest).map (· + 1)
    | .group close =>
      match lead b rest with
      | .string quote =>
        match stringTail quote rest with
        | none => none
        | some n => (closeTail (.group close) below (rest.drop n)).map (· + (n + 1))
      | .template => (closeTail .template (.group close :: below) rest).map (· + 1)
      | .lineComment =>
        (closeTail (.group close) below (rest.drop (lineTail rest))).map (· + (lineTail rest + 1))
      | .blockComment =>
        match commentTail (rest.drop 1) with
        | none => none
        | some n => (closeTail (.group close) below (rest.drop (n + 1))).map (· + (n + 2))
      | .group inner => (closeTail (.group inner) (.group close :: below) rest).map (· + 1)
      | .plain =>
        if b.isCloser then
          if b = close then
            match below with
            | [] => some 1
            | next :: outer => (closeTail next outer rest).map (· + 1)
          else none
        else (closeTail (.group close) below rest).map (· + 1)
termination_by t.length
decreasing_by all_goals (simp only [List.length_drop, List.length_cons]; omega)

/-- The offset of the bracket that closes the one at `pos`. -/
def matching (src : Text) (pos : Nat) : Option Nat :=
  match src.drop pos with
  | [] => none
  | b :: rest => b.closer?.bind fun close => (closeTail (.group close) [] rest).map (pos + ·)

/-- Where a frame closes lies ahead and within the text. -/
theorem closeTail_bounds {top : Frame} {below : List Frame} {t : Text} {n : Nat}
    (h : closeTail top below t = some n) : 0 < n ∧ n ≤ t.length := by
  fun_induction closeTail top below t generalizing n <;>
    grind [Option.map_eq_some_iff, List.head?_eq_some_iff, lineTail_le_length,
      stringTail_bounds, commentTail_bounds]

end Scan

end JsxStyle
