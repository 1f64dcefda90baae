import JsxStyle.Text.Basic

/-!
# Values of a settings document

Settings are written as a document of named values.  Only flags, texts, lists
and records mean anything to them; numbers and the absence of a value are kept
apart from those without being looked into, and so are dates and times.
-/

namespace JsxStyle

/-- A value of a settings document. -/
inductive Value where
  | flag (b : Bool)
  | text (t : Text)
  | list (items : List Value)
  | record (entries : List (Text × Value))
  /-- A date, a time, or both. -/
  | date
  /-- A value that no setting can have. -/
  | other
deriving Inhabited

end JsxStyle
