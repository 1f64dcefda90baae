import JsxStyle.Text.Span

/-!
# Why a node cannot be restyled

A change that fails names its cause and, where there is one, the place in the
source that it points at.
-/

namespace JsxStyle

/-- Why an attribute or a reference cannot be restyled. -/
inductive StyleFault where
  /-- The value of a shorthand attribute is not a plain string. -/
  | invalidShorthand
  /-- The style attribute beside a shorthand attribute has no expression. -/
  | emptyStyle
  /-- A template stands outside the style attribute. -/
  | styleRestricted
  /-- No style could be generated. -/
  | generator (message : Text)
  /-- There is no element to put an attribute on. -/
  | missingElement
deriving DecidableEq, Repr

/-- The wording of a fault. -/
def StyleFault.message : StyleFault → Text
  | invalidShorthand =>
    Text.ofString ("Only plain strings can be used with the \"tw\" prop.\n" ++
      "Eg: <div tw=\"text-black\" /> or <div tw=\x7b\"text-black\"\x7d />")
  | emptyStyle =>
    Text.ofString "An empty css prop (css=\"\") isn't supported alongside the tw prop (tw=\"...\")"
  | styleRestricted =>
    Text.ofString ("tw\x60...\x60 can only be used inside the \"css\" prop. " ++
      "Set \x60allow_style_prop = true\x60 to use it anywhere else")
  | generator message => Text.ofString "Style generation failed: " ++ message
  | missingElement => Text.ofString "The \"tw\" prop is not attached to a JSX element"

/-- A fault and the place it points at. -/
structure StyleError where
  fault : StyleFault
  span : Option Span
deriving DecidableEq, Repr

/-- The wording of an error. -/
def StyleError.message (e : StyleError) : Text :=
  e.fault.message

end JsxStyle
