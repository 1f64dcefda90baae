import JsxStyle.Style.Annotation
import JsxStyle.Style.Generator
import JsxStyle.Style.Template
import JsxStyle.Style.Vocabulary

/-!
# Restyling attributes and references

A shorthand attribute becomes a style attribute in its place, or its style is
appended to the style attribute that the element has already.  A reference to
the style builder matters where it tags a template: the template becomes the
style it stands for.

What an attribute or reference is, and what stands beside it, is looked up in
the tree as it is at that moment, since earlier changes move things around.
-/

namespace JsxStyle

/-- What restyling delegates to. -/
structure Stylist where
  generate : Generator
  annotator : Annotator

/-- The circumstances under which references are restyled. -/
structure Scope where
  /-- Whether templates may stand outside the style attribute. -/
  allowAnywhere : Bool := false
  /-- The name that the style builder has in the module. -/
  builder : Option Text := none
deriving DecidableEq, Repr

/-- Which of the two attributes a module was seen to use. -/
structure Seen where
  style : Bool := false
  shorthand : Bool := false
deriving DecidableEq, Repr

namespace Seen

/-- The record after an attribute called `name`. -/
def note (seen : Seen) (name : Option Text) : Seen :=
  { style := seen.style || name == some Vocabulary.style
    shorthand := seen.shorthand || name == some Vocabulary.shorthand }

end Seen

namespace Tree

/-- The class string of a shorthand attribute: a string, a string in braces, or nothing. -/
def shorthandClasses (t : Tree) (attr : NodeId) : Except StyleError Text :=
  match t.attributeValue attr with
  | none => .ok []
  | some value =>
    match t.kind value with
    | .str classes _ => .ok classes
    | .container (some expression) =>
      match t.kind expression with
      | .str classes _ => .ok classes
      | _ => .error ⟨.invalidShorthand, t.span expression⟩
    | _ => .error ⟨.invalidShorthand, t.span value⟩

/-- The classes of a shorthand attribute are those of the string, and none without a value. -/
theorem shorthandClasses_eq_ok {t : Tree} {attr : NodeId} {classes : Text} :
    t.shorthandClasses attr = .ok classes ↔
      (t.attributeValue attr = none ∧ classes = []) ∨
      ∃ value, t.attributeValue attr = some value ∧
        ((∃ quote, t.kind value = .str classes quote) ∨
          ∃ expression quote, t.kind value = .container (some expression) ∧
            t.kind expression = .str classes quote) := by
  unfold shorthandClasses
  cases t.attributeValue attr with
  | none => simp [eq_comm]
  | some value =>
    cases hkind : t.kind value with
    | container inner =>
      cases inner with
      | none => simp [hkind]
      | some expression => cases hinner : t.kind expression <;> simp [hkind, hinner]
    | _ => simp [hkind]

/-- A shorthand attribute without a class string is at fault where its value is. -/
theorem exists_of_shorthandClasses_eq_error {t : Tree} {attr : NodeId} {e : StyleError}
    (h : t.shorthandClasses attr = .error e) : ∃ n, e = ⟨.invalidShorthand, t.span n⟩ := by
  unfold shorthandClasses at h
  cases hvalue : t.attributeValue attr with
  | none => simp [hvalue] at h
  | some value =>
    have hself : e = ⟨.invalidShorthand, t.span value⟩ → ∃ n, e = ⟨.invalidShorthand, t.span n⟩ :=
      fun he => ⟨value, he⟩
    cases hkind : t.kind value with
    | str s quote => simp [hvalue, hkind] at h
    | container inner =>
      cases inner with
      | none => exact hself (by simpa [hvalue, hkind, eq_comm] using h)
      | some expression =>
        cases hinner : t.kind expression with
        | str s quote => simp [hvalue, hkind, hinner] at h
        | _ => exact ⟨expression, by simpa [hvalue, hkind, hinner, eq_comm] using h⟩
    | _ => exact hself (by simpa [hvalue, hkind, eq_comm] using h)

/-- The expression between the braces of a style attribute. -/
def styleExpression (t : Tree) (style : NodeId) : Option NodeId :=
  match t.kind <$> t.attributeValue style with
  | some (.container expression) => expression
  | _ => none

end Tree

namespace Stylist

/-- Appends `styles` to the style expression of an element: into it if it is an
array, and otherwise behind it in a new one. -/
def mergeStyles (expression styles : NodeId) (t : Tree) : Tree :=
  if t.form expression = .array then (t.append expression styles).getD t
  else (t.replaceWith expression fun t => t.alloc (.array [expression, styles]) none).2

/-- Moves the classes of a shorthand attribute into the style attribute beside it. -/
def merge (s : Stylist) (attr style opening : NodeId) (classes : Text) (t : Tree) : Step :=
  match t.styleExpression style with
  | none => ⟨t, some ⟨.emptyStyle, t.span style⟩⟩
  | some expression =>
    match s.generate classes with
    | .error e => ⟨t, some e⟩
    | .ok ast =>
      let (styles, t) := (Tree.graft ast).run t
      let t := mergeStyles expression styles (t.remove attr)
      s.annotator.attachTo opening (t.attributes opening) classes t

/-- Puts a style attribute in the place of a shorthand attribute. -/
def convert (s : Stylist) (attr : NodeId) (attributes : List NodeId) (classes : Text)
    (t : Tree) : Step :=
  match s.generate classes with
  | .error e => ⟨t, some e⟩
  | .ok ast =>
    let (styles, t) := (Tree.graft ast).run t
    let (container, t) := t.alloc (.container (some styles)) none
    let (style, t) := t.alloc (.attr Vocabulary.style (some container)) none
    s.annotator.attachAfter style attributes classes (t.replaceAt attr style)

/-- Restyles an attribute if it is a shorthand attribute. -/
def restyleAttribute (s : Stylist) (attr : NodeId) (t : Tree) : Step :=
  if t.attributeName attr = some Vocabulary.shorthand then
    match t.shorthandClasses attr with
    | .error e => ⟨t, some e⟩
    | .ok classes =>
      match t.enclosing attr .opening with
      | none => ⟨t, some ⟨.missingElement, t.span attr⟩⟩
      | some opening =>
        let attributes := t.attributes opening
        match t.attributeNamed attributes Vocabulary.style with
        | some style => s.merge attr style opening classes t
        | none => s.convert attr attributes classes t
  else ⟨t, none⟩

/-- Whether a template stands where templates may stand. -/
def permits (scope : Scope) (template : NodeId) (t : Tree) : Bool :=
  scope.allowAnywhere ||
    (t.enclosing template .attr).bind t.attributeName == some Vocabulary.style

/-- Annotates the element around a reference, if there is one. -/
def annotateAround (s : Stylist) (reference : NodeId) (classes : Text) (t : Tree) : Step :=
  match t.enclosing reference .opening with
  | none => ⟨t, none⟩
  | some opening => s.annotator.attachTo opening (t.attributes opening) classes t

/-- Puts the style for `classes` in the place of a template. -/
def replaceTemplate (s : Stylist) (template : NodeId) (classes : Text) (t : Tree) : Step :=
  match s.generate classes with
  | .error e => ⟨t, some e⟩
  | .ok ast =>
    let (styles, t) := (Tree.graft ast).run t
    ⟨t.replaceAt template styles, none⟩

/-- Restyles a reference to the style builder if it tags a template that is known in advance. -/
def restyleReference (s : Stylist) (scope : Scope) (reference : NodeId) (t : Tree) : Step :=
  if t.isAttached reference then
    match t.enclosing reference .template with
    | none => ⟨t, none⟩
    | some template =>
      if permits scope template t then
        match t.staticClasses template scope.builder with
        | none => ⟨t, none⟩
        | some classes =>
          match s.annotateAround reference classes t with
          | ⟨t, some e⟩ => ⟨t, some e⟩
          | ⟨t, none⟩ => s.replaceTemplate template classes t
      else ⟨t, some ⟨.styleRestricted, t.span template⟩⟩
  else ⟨t, none⟩

/-- Restyles references one after the other, going on after failures, which are
answered in order. -/
def restyleReferences (s : Stylist) (scope : Scope) :
    List NodeId → Tree → List StyleError × Tree
  | [], t => ([], t)
  | reference :: rest, t =>
    let step := s.restyleReference scope reference t
    let (failures, t) := s.restyleReferences scope rest step.tree
    (step.failure.toList ++ failures, t)

end Stylist

end JsxStyle
