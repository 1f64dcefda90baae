import JsxStyle.Print
import JsxStyle.Settings.Basic
import JsxStyle.Style.Import
import JsxStyle.Style.Restyle
import JsxStyle.Text.Position

/-!
# Compiling a module

A module is read, its shorthand attributes are restyled, then the templates of
its style builder, and the import that is no longer needed is taken out.  What
is left is printed.  A failure either ends the compilation or is collected as a
diagnostic, as the settings say.
-/

namespace JsxStyle

/-- A failure as it is reported to the user. -/
structure Diagnostic where
  position : Position
  message : Text
deriving DecidableEq, Repr

/-- Why a module was not compiled, and where. -/
inductive CompileError where
  | read (position : Position) (error : ReadError)
  | style (position : Position) (error : StyleError)
deriving DecidableEq, Repr

namespace CompileError

/-- The position that an error points at. -/
def position : CompileError → Position
  | read position _ => position
  | style position _ => position

/-- The wording of an error, with its position. -/
def message : CompileError → Text
  | read position error => position.render ++ Text.ofString ": " ++ error.message
  | style position error => position.render ++ Text.ofString ": " ++ error.message

end CompileError

/-- The position of a failure in the source; one without a place counts as the beginning. -/
def StyleError.position (e : StyleError) (source : Text) : Position :=
  match e.span with
  | none => {}
  | some s => source.positionAt s.lo

/-- The tree of a module on its way through compilation. -/
structure Draft where
  tree : Tree
  seen : Seen := {}
  failures : List StyleError := []
deriving DecidableEq, Repr

namespace Draft

/-- Takes note of a failure: it is kept, or it ends the compilation. -/
def report (goOn : Bool) (d : Draft) (e : StyleError) : Except StyleError Draft :=
  if goOn then .ok { d with failures := d.failures ++ [e] } else .error e

/-- Restyles one attribute, unless an earlier change took it out of the module. -/
def restyleAttribute (goOn : Bool) (s : Stylist) (d : Draft) (attr : NodeId) :
    Except StyleError Draft :=
  if d.tree.isAttached attr then
    let step := s.restyleAttribute attr d.tree
    let next := { d with tree := step.tree, seen := d.seen.note (d.tree.attributeName attr) }
    match step.failure with
    | none => .ok next
    | some e => next.report goOn e
  else .ok d

/-- Restyles the attributes that the module has at this moment. -/
def restyleAttributes (goOn : Bool) (s : Stylist) (d : Draft) : Except StyleError Draft :=
  let attributes := (d.tree.descendants Tree.root).filter fun id => d.tree.form id = .attr
  attributes.foldlM (restyleAttribute goOn s) d

/-- Restyles the references to the style builder. -/
def restyleReferences (goOn : Bool) (s : Stylist) (scope : Scope) (name : Text) (d : Draft) :
    Except StyleError Draft :=
  let (failures, tree) := s.restyleReferences scope (d.tree.referencesTo name) d.tree
  failures.foldlM (report goOn) { d with tree }

end Draft

namespace Settings

/-- The annotator that the settings ask for. -/
def annotator (s : Settings) : Annotator :=
  ⟨s.debug.enabled, s.debug.label⟩

/-- The stylist that the settings ask for. -/
def stylist (s : Settings) : Stylist :=
  ⟨Generator.runtimeCall s.generator.callee, s.annotator⟩

/-- Carries out the changes that the settings ask for. -/
def restyle (s : Settings) (stylist : Stylist) (tree : Tree) : Except StyleError Draft := do
  let goOn := s.options.continueOnError
  let found := tree.styleImport? s.options.importSources
  let draft : Draft := { tree }
  let draft ←
    if s.options.requireImport && found.isNone then pure draft
    else draft.restyleAttributes goOn stylist
  match found with
  | none => return draft
  | some found =>
    let scope := { allowAnywhere := s.options.allowStyleProp, builder := some found.name }
    let draft ← draft.restyleReferences goOn stylist scope found.name
    return if s.options.stripImport then { draft with tree := draft.tree.stripImport found }
      else draft

end Settings

/-- A compiled module. -/
structure Output where
  printed : Printed
  seen : Seen
  diagnostics : List Diagnostic
deriving DecidableEq, Repr

/-- The output of a module whose changes are done. -/
def Draft.output (d : Draft) (source : Text) : Output where
  printed := d.tree.print
  seen := d.seen
  diagnostics := d.failures.map fun e => ⟨e.position source, e.message⟩

/-- Compiles a module with a given stylist. -/
def compileWith (stylist : Stylist) (settings : Settings) (source : Text) :
    Except CompileError Output :=
  match Tree.ofSource source with
  | .error e => .error (.read (source.positionAt e.offset) e)
  | .ok tree =>
    match settings.restyle stylist tree with
    | .error e => .error (.style (e.position source) e)
    | .ok draft => .ok (draft.output source)

/-- Compiles a module. -/
def compile (settings : Settings) (source : Text) : Except CompileError Output :=
  compileWith settings.stylist settings source

/-- A module compiles if it can be read and restyled. -/
theorem compile_eq_ok {settings : Settings} {source : Text} {out : Output} :
    compile settings source = .ok out ↔ ∃ t d, Tree.ofSource source = .ok t ∧
      settings.restyle settings.stylist t = .ok d ∧ d.output source = out := by
  unfold compile compileWith
  cases Tree.ofSource source with
  | error e => simp
  | ok t => cases hrun : settings.restyle settings.stylist t <;> simp [hrun]

end JsxStyle
