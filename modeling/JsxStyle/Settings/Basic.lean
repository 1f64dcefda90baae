import JsxStyle.Text.Basic

/-!
# Settings

What a user can choose, in three sections, and what holds when nothing is
chosen.
-/

namespace JsxStyle

/-- What is restyled, and what happens when that fails. -/
structure Options where
  /-- Templates may stand outside the style attribute. -/
  allowStyleProp : Bool := false
  /-- The import of the style builder is removed once nothing uses it. -/
  stripImport : Bool := true
  /-- Failures are reported and the rest of the module is compiled. -/
  continueOnError : Bool := false
  /-- Shorthand attributes are left alone in a module without the import. -/
  requireImport : Bool := false
  /-- The modules that export the style builder. -/
  importSources : List Text := [Text.ofString "twin.macro"]
deriving DecidableEq, Repr

/-- How style expressions are made. -/
structure GeneratorOptions where
  /-- The function that is called with the classes. -/
  callee : Text := Text.ofString "twStyles"
deriving DecidableEq, Repr

/-- How elements are annotated. -/
structure DebugOptions where
  enabled : Bool := true
  /-- The name of the attribute that lists the classes. -/
  label : Text := Text.ofString "data-tw"
deriving DecidableEq, Repr

/-- All that can be chosen. -/
structure Settings where
  options : Options := {}
  generator : GeneratorOptions := {}
  debug : DebugOptions := {}
deriving DecidableEq, Repr

end JsxStyle
