import JsxStyle.Text.Blank
import JsxStyle.Text.Decimal
import JsxStyle.Text.Escape
import JsxStyle.Tree.Walk

/-!
# Templates known in advance

A template tagged with the style builder stands for a class string if each of
its holes holds a string or a number.  Numbers are not read as such: they
arrive as a fragment of opaque code and are taken over as they are spelled.
-/

namespace JsxStyle

namespace Tree

/-- The text that a literal contributes to a class string; other nodes contribute none. -/
def literalText (t : Tree) (id : NodeId) : Option Text :=
  match t.kind id with
  | .str value _ => some value
  | .fragment [only] =>
    match t.kind only with
    | .code code => if code.trim.isDecimal then some code.trim else none
    | _ => none
  | _ => none

/-- A hole is known if it is a string or a number. -/
theorem literalText_eq_some {t : Tree} {hole : NodeId} {value : Text} :
    t.literalText hole = some value ↔ (∃ quote, t.kind hole = .str value quote) ∨
      ∃ only code, t.kind hole = .fragment [only] ∧ t.kind only = .code code ∧
        code.trim.isDecimal = true ∧ code.trim = value := by
  unfold literalText
  cases hkind : t.kind hole with
  | str s quote => simp
  | fragment parts =>
    rcases parts with _ | ⟨only, _ | ⟨next, rest⟩⟩
    · simp
    · cases hcode : t.kind only <;> simp [hcode]
    · simp
  | _ => simp

/-- The chunks of a template, with the values of the holes between them. -/
def foldChunks (t : Tree) : List Text → List NodeId → Option Text
  | [], _ => some []
  | chunk :: chunks, [] => (chunk.unescape ++ ·) <$> t.foldChunks chunks []
  | chunk :: chunks, hole :: holes => do
    let value ← t.literalText hole
    let more ← t.foldChunks chunks holes
    return chunk.unescape ++ value ++ more

/-- The class string of a template, if `builder` tags it and all of it is known. -/
def staticClasses (t : Tree) (template : NodeId) (builder : Option Text) : Option Text :=
  match t.kind template with
  | .template tag chunks holes =>
    match t.kind tag with
    | .ident name => if some name = builder then t.foldChunks chunks holes else none
    | _ => none
  | _ => none

/-- A template is known in advance if the builder tags it and its holes are known. -/
theorem staticClasses_eq_some {t : Tree} {template : NodeId} {builder : Option Text}
    {classes : Text} : t.staticClasses template builder = some classes ↔
      ∃ tag chunks holes name, t.kind template = .template tag chunks holes ∧
        t.kind tag = .ident name ∧ some name = builder ∧
        t.foldChunks chunks holes = some classes := by
  unfold staticClasses
  cases hkind : t.kind template with
  | template tag chunks holes => cases htag : t.kind tag <;> simp [and_assoc, htag]
  | _ => simp

end Tree

end JsxStyle
