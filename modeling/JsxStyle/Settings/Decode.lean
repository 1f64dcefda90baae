import JsxStyle.Settings.Basic
import JsxStyle.Settings.Value

/-!
# Settings from values

A section is a record whose entries are named for the settings, or a list of
its settings in their order.  What is missing keeps its default and what is not
known is passed over, but a value of the wrong type makes the whole document
unusable.
-/

namespace JsxStyle

namespace Value

/-- The fields of a value, by name in a record and by place in a list. -/
abbrev Fields := (name : String) → (place : Nat) → Option Value

/-- The fields of a section.  A list longer than the `arity` of the section is
refused if lists are taken strictly.  A date has no field that a section knows. -/
def fields? (strict : Bool) (arity : Nat) : Value → Option Fields
  | record entries => some fun name _ => entries.lookup (Text.ofString name)
  | list items =>
    if strict && arity < items.length then none else some fun _ place => items[place]?
  | date => some fun _ _ => none
  | flag _ | text _ | other => none

/-- A flag, and nothing else. -/
def asFlag : Value → Option Bool
  | flag b => some b
  | _ => none

/-- A text, and nothing else. -/
def asText : Value → Option Text
  | text t => some t
  | _ => none

/-- A list of texts, and nothing else. -/
def asTexts : Value → Option (List Text)
  | list items => items.mapM asText
  | _ => none

/-- A field read by `read`, or `default` if it is missing. -/
def Fields.get {α : Type} (f : Fields) (name : String) (place : Nat) (default : α)
    (read : Value → Option α) : Option α :=
  match f name place with
  | none => some default
  | some v => read v

end Value

namespace Options

/-- The options that a value stands for. -/
def ofValue? (strict : Bool) (v : Value) : Option Options := do
  let f ← v.fields? strict 5
  let base : Options := {}
  return {
    allowStyleProp := ← f.get "allow_style_prop" 0 base.allowStyleProp Value.asFlag
    stripImport := ← f.get "strip_import" 1 base.stripImport Value.asFlag
    continueOnError := ← f.get "continue_on_error" 2 base.continueOnError Value.asFlag
    requireImport := ← f.get "require_import" 3 base.requireImport Value.asFlag
    importSources := ← f.get "import_sources" 4 base.importSources Value.asTexts }

end Options

namespace GeneratorOptions

/-- The generator section that a value stands for. -/
def ofValue? (strict : Bool) (v : Value) : Option GeneratorOptions := do
  let f ← v.fields? strict 1
  let base : GeneratorOptions := {}
  return { callee := ← f.get "callee" 0 base.callee Value.asText }

end GeneratorOptions

namespace DebugOptions

/-- The debug section that a value stands for. -/
def ofValue? (strict : Bool) (v : Value) : Option DebugOptions := do
  let f ← v.fields? strict 2
  let base : DebugOptions := {}
  return {
    enabled := ← f.get "enabled" 0 base.enabled Value.asFlag
    label := ← f.get "attribute" 1 base.label Value.asText }

end DebugOptions

namespace Settings

/-- The settings that a value stands for. -/
def ofValue? (strict : Bool) (v : Value) : Option Settings := do
  let f ← v.fields? strict 3
  let base : Settings := {}
  return {
    options := ← f.get "options" 0 base.options (Options.ofValue? strict)
    generator := ← f.get "generator" 1 base.generator (GeneratorOptions.ofValue? strict)
    debug := ← f.get "debug" 2 base.debug (DebugOptions.ofValue? strict) }

end Settings

end JsxStyle
