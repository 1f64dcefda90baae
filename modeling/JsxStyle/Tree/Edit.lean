import JsxStyle.Tree.Walk

/-!
# Edits

An edit changes what stands below some node and marks that node, and every
node above it, as changed.  A node that is replaced or removed loses its
parent but stays in the store, so it can be used again inside its replacement.
Where a node stands in a place that cannot be left empty, such as the tag of a
template, removing it only cuts the link upwards.
-/

namespace JsxStyle

namespace Tree

/-- Marks a node and every node above it as changed. -/
def markDirty (t : Tree) (id : NodeId) : Tree :=
  (id :: t.ancestors id).foldl (fun t id => t.update id ({ · with dirty := true })) t

/-- Puts the node that `build` makes where `old` stood.  By the time `build`
runs, `old` has no parent, so the new node may take it in. -/
def replaceWith (old : NodeId) (build : Tree → NodeId × Tree) (t : Tree) : NodeId × Tree :=
  let (new, built) := build (t.setParent none old)
  match t.parent old with
  | none => (new, built)
  | some above =>
    (new,
      ((built.mapKind above (·.replaceChild old new)).setParent (some above) new).markDirty above)

/-- Puts `new` where `old` stood. -/
def replace (old new : NodeId) (t : Tree) : Tree :=
  (t.replaceWith old fun t => (new, t)).2

/-- Puts `new` where `old` stood and gives it the place in the source that `old` had. -/
def replaceAt (old new : NodeId) (t : Tree) : Tree :=
  ((t.update new ({ · with span := t.span old })).replace old new).update new
    ({ · with dirty := true })

/-- Takes a node out of the node above it. -/
def remove (id : NodeId) (t : Tree) : Tree :=
  match t.parent id with
  | none => t
  | some above => ((t.setParent none id).mapKind above (·.dropChild id)).markDirty above

/-- The list with `new` behind the first occurrence of `anchor`. -/
def insertBehind (anchor new : NodeId) : List NodeId → List NodeId
  | [] => []
  | id :: rest => if id = anchor then id :: new :: rest else id :: insertBehind anchor new rest

/-- Puts `new` behind `anchor` in the list that `anchor` stands in; fails if it stands in none. -/
def insertAfter (anchor new : NodeId) (t : Tree) : Option Tree := do
  let above ← t.parent anchor
  let items ← (t.kind above).items?
  guard (items.contains anchor)
  let grown := t.mapKind above (·.setItems (insertBehind anchor new items))
  return (grown.setParent (some above) new).markDirty above

/-- Puts `new` at the end of the list of `holder`; fails if it has none. -/
def append (holder new : NodeId) (t : Tree) : Option Tree := do
  let items ← (t.kind holder).items?
  let grown := t.mapKind holder (·.setItems (items ++ [new]))
  return (grown.setParent (some holder) new).markDirty holder

end Tree

end JsxStyle
