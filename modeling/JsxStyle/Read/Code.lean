import JsxStyle.Read.Import
import JsxStyle.Scan.Context

/-!
# Code

Code is opaque except for what can be found in it: import statements, elements
and tagged templates.  The reader walks over strings, comments and untagged
templates and cuts the code where it finds something, so that the pieces, in
order, cover the range without a gap.
-/

namespace JsxStyle

namespace Read

open Ascii

/-- The name, or chain of names, that tags a template whose backtick is at
`tick`, looking back no further than `flushed`.  A keyword is no tag. -/
def tagBefore (src : Text) (flushed tick : Nat) : Option Text :=
  let run := ((src.slice flushed tick).reverse.takeWhile fun b => b.isIdentChar || b == dot).reverse
  let segments := Text.pieces dot run
  if run.head?.any Byte.isIdentStart && segments.all (!·.isEmpty) &&
      !(segments.length == 1 && Scan.endsWithKeyword run) then
    some run
  else none

/-- The member node for one more name behind a tag that begins at `lo`. -/
def tagMember (lo : Nat) (tag : Ast × Nat) (property : Text) : Ast × Nat :=
  let stop := tag.2 + 1 + property.length
  (Ast.placed lo stop (.member tag.1 property), stop)

/-- The node of a tag that begins at `lo`. -/
def tagNode (lo : Nat) (tag : Text) : Ast :=
  match Text.pieces dot tag with
  | [] => Ast.placed lo lo (.ident [])
  | first :: properties =>
    let stop := lo + first.length
    (properties.foldl (tagMember lo) (Ast.placed lo stop (.ident first), stop)).1

/-- Reads the code up to `hi` of a range that begins at `lo`.  The pieces up to
`flushed` have been dealt with, and everything up to `i` has been looked at. -/
def codeFrom (r : Readers) (src : Text) (lo hi flushed i : Nat) : Result (List Ast) :=
  if i < hi then
    match src.drop i with
    | [] => pure (opaqueCode src flushed hi)
    | b :: rest =>
      match Scan.lead b rest with
      | .string quote =>
        codeFrom r src lo hi flushed (i + 1 + (Scan.stringTail quote rest).getD 0)
      | .lineComment => codeFrom r src lo hi flushed (i + 1 + Scan.lineTail rest)
      | .blockComment =>
        match Scan.commentTail (rest.drop 1) with
        | none => pure (opaqueCode src flushed hi)
        | some n => codeFrom r src lo hi flushed (i + 2 + n)
      | .template =>
        match tagBefore src flushed i with
        | some tag => do
          let tagLo := i - tag.length
          let found ← taggedTemplate r src (tagNode tagLo tag) tagLo i
          have _hadv := found.advances
          let more ← codeFrom r src lo hi found.stop found.stop
          return opaqueCode src flushed tagLo ++ found.ast :: more
        | none =>
          match Scan.closeTail .template [] rest with
          | none => .error ⟨.unterminatedTemplate, i⟩
          | some n => codeFrom r src lo hi flushed (i + 1 + n)
      | .group _ | .plain =>
        if importStarts src lo i then
          match importAt src i hi with
          | some found => do
            have _hadv := found.advances
            let more ← codeFrom r src lo hi found.stop found.stop
            return opaqueCode src flushed i ++ found.ast :: more
          | none => codeFrom r src lo hi flushed (i + 1)
        else if b = less ∧ Scan.markupMayStart src i then do
          match ← r.element i hi with
          | some found =>
            have _hadv := found.advances
            let more ← codeFrom r src lo hi found.stop found.stop
            return opaqueCode src flushed i ++ found.ast :: more
          | none => codeFrom r src lo hi flushed (i + 1)
        else codeFrom r src lo hi flushed (i + 1)
  else pure (opaqueCode src flushed hi)
termination_by hi - i

/-- Reads the code from `lo` to `hi`. -/
def code (r : Readers) (src : Text) (lo hi : Nat) : Result (List Ast) :=
  codeFrom r src lo hi lo lo

end Read

end JsxStyle
