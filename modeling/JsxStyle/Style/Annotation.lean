import JsxStyle.Style.Error
import JsxStyle.Text.Blank
import JsxStyle.Tree.Edit

/-!
# Annotations

For debugging, an element can carry an attribute that lists the classes its
styles were made from.  New classes extend such an attribute if it is a plain
string, and otherwise a new one is added.  An annotation attribute
with a computed value belongs to the author and is left alone.
-/

namespace JsxStyle

/-- A tree after an attempt to change it, and what went wrong, if anything. -/
structure Step where
  tree : Tree
  failure : Option StyleError := none
deriving DecidableEq, Repr

/-- Whether elements are annotated, and the name of the attribute that is used. -/
structure Annotator where
  enabled : Bool
  label : Text
deriving DecidableEq, Repr

namespace Annotator

/-- The string of an annotation with more classes behind it. -/
def extended (existing classes : Text) : Text :=
  if existing.isEmpty then classes else existing ++ Text.ofString " | " ++ classes

/-- Extends the annotation among `attributes`; fails if there is none with a value. -/
def extend (a : Annotator) (attributes : List NodeId) (classes : Text) (t : Tree) :
    Option Tree := do
  let existing ← t.attributeNamed attributes a.label
  let value ← t.attributeValue existing
  match t.kind value with
  | .str text quote =>
    let (updated, t) := t.alloc (.str (extended text classes) quote) none
    return t.replace value updated
  | _ => return t

/-- Adds the node of a new annotation. -/
def fresh (a : Annotator) (classes : Text) (t : Tree) : NodeId × Tree :=
  let (value, t) := t.alloc (.str classes '"') none
  t.alloc (.attr a.label (some value)) none

/-- Extends the annotation among `attributes`, or puts a new one in with
`insert`; `target` is what an error points at. -/
def annotate (a : Annotator) (insert : NodeId → Tree → Option Tree) (target : NodeId)
    (attributes : List NodeId) (classes : Text) (t : Tree) : Step :=
  if a.enabled then
    match a.extend attributes classes.collapse t with
    | some extended => ⟨extended, none⟩
    | none =>
      let (new, t) := a.fresh classes.collapse t
      match insert new t with
      | some inserted => ⟨inserted, none⟩
      | none => ⟨t, some ⟨.missingElement, t.span target⟩⟩
  else ⟨t, none⟩

/-- Annotates an element behind its style attribute `style`. -/
def attachAfter (a : Annotator) (style : NodeId) (attributes : List NodeId) (classes : Text)
    (t : Tree) : Step :=
  a.annotate (fun new t => t.insertAfter style new) style attributes classes t

/-- Annotates the element that `opening` opens, behind its other attributes. -/
def attachTo (a : Annotator) (opening : NodeId) (attributes : List NodeId) (classes : Text)
    (t : Tree) : Step :=
  a.annotate (fun new t => t.append opening new) opening attributes classes t

end Annotator

end JsxStyle
