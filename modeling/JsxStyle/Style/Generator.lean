import JsxStyle.Read.Module
import JsxStyle.Style.Error
import JsxStyle.Text.Blank

/-!
# Generators

A generator makes the style expression for a class string, or says why it
cannot.  The expression is a tree of its own; putting it where it belongs is
left to whoever asked for it.
-/

namespace JsxStyle

/-- What makes a style expression from a class string. -/
abbrev Generator := Text → Except StyleError Ast

namespace Generator

/-- Leaves the classes to a function that is called when the program runs. -/
def runtimeCall (callee : Text) : Generator := fun classes =>
  .ok (Ast.made (.call (Ast.made (.ident callee)) [Ast.made (.str classes.collapse '"')]))

/-- Reads the style expression from the source that `write` gives for the classes. -/
def ofSnippet (write : Text → Text) : Generator := fun classes =>
  match Read.snippet (write classes) with
  | .ok ast => .ok ast
  | .error e => .error ⟨.generator e.message, none⟩

/-- Fails with `message` on classes that `refuses` holds of. -/
def guarded (refuses : Text → Bool) (message : Text) (g : Generator) : Generator := fun classes =>
  if refuses classes then .error ⟨.generator message, none⟩ else g classes

end Generator

end JsxStyle
