import JsxStyle.Tree.Store

/-!
# Looking up and down

`ancestors` follows the parent links upwards and `descendants` the children
downwards, in the order of the source.  A walk is bounded by the size of the
store: no chain of distinct nodes is longer, so in a store whose links have no
cycle the bound cuts nothing off.
-/

namespace JsxStyle

namespace Tree

/-- At most `depth` nodes above `id`, nearest first. -/
def ancestorsWithin (t : Tree) : (depth : Nat) → NodeId → List NodeId
  | 0, _ => []
  | depth + 1, id =>
    match t.parent id with
    | none => []
    | some above => above :: t.ancestorsWithin depth above

/-- The nodes above `id`, nearest first. -/
def ancestors (t : Tree) (id : NodeId) : List NodeId :=
  t.ancestorsWithin t.size id

/-- The nodes at most `depth` levels below `id`, each before those below it. -/
def descendantsWithin (t : Tree) : (depth : Nat) → NodeId → List NodeId
  | 0, _ => []
  | depth + 1, id => (t.children id).flatMap fun child => child :: t.descendantsWithin depth child

/-- The nodes below `id` in source order, each before those below it. -/
def descendants (t : Tree) (id : NodeId) : List NodeId :=
  t.descendantsWithin t.size id

/-- The nearest node above `id` that `p` accepts. -/
def findAncestor (t : Tree) (id : NodeId) (p : Node → Bool) : Option NodeId :=
  (t.ancestors id).find? fun above => p (t.node above)

/-- The nearest node above `id` of a given form. -/
def enclosing (t : Tree) (id : NodeId) (form : Form) : Option NodeId :=
  t.findAncestor id fun n => n.kind.form = form

/-- Whether `id` is the root or has the root above it. -/
def isAttached (t : Tree) (id : NodeId) : Bool :=
  id == root || (t.ancestors id).contains root

/-- The name of an attribute; other nodes have none. -/
def attributeName (t : Tree) (id : NodeId) : Option Text :=
  match t.kind id with
  | .attr name _ => some name
  | _ => none

/-- The value of an attribute that has one. -/
def attributeValue (t : Tree) (id : NodeId) : Option NodeId :=
  match t.kind id with
  | .attr _ value => value
  | _ => none

/-- The attributes of an opening tag; other nodes have none. -/
def attributes (t : Tree) (id : NodeId) : List NodeId :=
  match t.kind id with
  | .opening _ attributes _ => attributes
  | _ => []

/-- The first of `attributes` that is called `name`. -/
def attributeNamed (t : Tree) (attributes : List NodeId) (name : Text) : Option NodeId :=
  attributes.find? fun id => t.attributeName id == some name

/-- The index of the first of `attributes` that is called `name`. -/
def attributeIndex (t : Tree) (attributes : List NodeId) (name : Text) : Option Nat :=
  attributes.findIdx? fun id => t.attributeName id == some name

end Tree

end JsxStyle
