import JsxStyle.Text.Basic

/-!
# Why a module cannot be read

Reading gives up on markup that opens well and does not end well, and on
template literals that do not end.  An error names its cause and the offset it
points at; the wording is a function of the two.
-/

namespace JsxStyle

namespace Read

/-- What is wrong. -/
inductive Cause where
  /-- A template literal has no closing backtick. -/
  | unterminatedTemplate
  /-- The text ends inside an element. -/
  | unclosedElement (name : Text)
  /-- A closing tag inside the element does not end with `>`. -/
  | malformedClosingTag (name : Text)
  /-- A closing tag names another element. -/
  | unexpectedClosingTag (found expected : Text)
  /-- A `<` between tags begins no element. -/
  | strayLess (name : Text)
  /-- An expression in braces between tags does not end. -/
  | unclosedContainer
  /-- Nesting went on for longer than the text is. -/
  | tooDeep
deriving DecidableEq, Repr

/-- The wording of a cause. -/
def Cause.message : Cause → Text
  | unterminatedTemplate => Text.ofString "Unterminated template literal"
  | unclosedElement name =>
    Text.ofString "Unclosed JSX element <" ++ name ++ Text.ofString ">: reached end of input"
  | malformedClosingTag name =>
    Text.ofString "Malformed closing tag for <" ++ name ++ Text.ofString ">"
  | unexpectedClosingTag found expected =>
    Text.ofString "Unexpected closing tag </" ++ found ++ Text.ofString ">, expected </" ++
      expected ++ Text.ofString ">"
  | strayLess name =>
    Text.ofString "Unexpected \x60<\x60 inside <" ++ name ++ Text.ofString ">"
  | unclosedContainer => Text.ofString "Unclosed JSX expression container"
  | tooDeep => Text.ofString "Nesting is too deep"

end Read

/-- A cause and the byte offset it points at. -/
structure ReadError where
  cause : Read.Cause
  offset : Nat
deriving DecidableEq, Repr

/-- The wording of an error, with its offset. -/
def ReadError.message (e : ReadError) : Text :=
  Text.ofString "Parse error at byte " ++ Text.ofNat e.offset ++ Text.ofString ": " ++
    e.cause.message

end JsxStyle
