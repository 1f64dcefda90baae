import JsxStyle.Text.Basic

/-!
# The names that matter

The shorthand attribute holds classes as a string, the style attribute holds
style expressions, and the style builder is the binding whose templates stand
for styles.
-/

namespace JsxStyle

namespace Vocabulary

/-- The attribute that is compiled away. -/
def shorthand : Text := Text.ofString "tw"

/-- The attribute that holds the style of an element. -/
def style : Text := Text.ofString "css"

/-- The named export that is the style builder where there is no default import. -/
def builderExport : Text := Text.ofString "tw"

end Vocabulary

end JsxStyle
