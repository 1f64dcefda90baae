import JsxStyle.Tree.Ast

/-!
# The store of nodes

Restyling works on a `Tree`: the source it was read from and an array of nodes
that name each other by index.  Every node knows the node above it, so a
handler can look upwards, and every node remembers whether anything at or below
it was changed, so that untouched parts can be copied from the source.  Node
zero is the program and the root.

Nodes are only ever added.  Adding one makes it the parent of its children,
whichever lists they stand in already.

* `size_alloc`: adding a node makes the store one larger;
* `node_alloc_self`: the node added is found under the identifier it gets.
-/

namespace JsxStyle

/-- The index of a node in its store. -/
abbrev NodeId := Nat

/-- A node of the store. -/
structure Node where
  kind : Kind NodeId
  parent : Option NodeId := none
  span : Option Span := none
  /-- Whether the node or something below it is not as it was read. -/
  dirty : Bool := false
deriving DecidableEq, Repr

/-- A source text and the nodes over it. -/
structure Tree where
  source : Text
  nodes : Array Node
deriving DecidableEq, Repr

namespace Tree

/-- The identifier of the program node. -/
def root : NodeId := 0

/-- A tree with an empty program over `source`. -/
def new (source : Text) : Tree where
  source := source
  nodes := #[{ kind := .program [], span := some ⟨0, source.length⟩ }]

/-- The number of nodes in the store. -/
def size (t : Tree) : Nat :=
  t.nodes.size

/-- The node under an identifier; an identifier out of range names an empty fragment. -/
def node (t : Tree) (id : NodeId) : Node :=
  t.nodes.getD id { kind := .fragment [] }

/-- The kind of a node. -/
def kind (t : Tree) (id : NodeId) : Kind NodeId :=
  (t.node id).kind

/-- The form of a node. -/
def form (t : Tree) (id : NodeId) : Form :=
  (t.kind id).form

/-- The node above. -/
def parent (t : Tree) (id : NodeId) : Option NodeId :=
  (t.node id).parent

/-- The place of a node in the source. -/
def span (t : Tree) (id : NodeId) : Option Span :=
  (t.node id).span

/-- The nodes directly below. -/
def children (t : Tree) (id : NodeId) : List NodeId :=
  (t.kind id).children

/-- The tree with one node changed. -/
def update (t : Tree) (id : NodeId) (f : Node → Node) : Tree :=
  { t with nodes := t.nodes.modify id f }

/-- The tree with another parent for one node. -/
def setParent (t : Tree) (parent : Option NodeId) (id : NodeId) : Tree :=
  t.update id ({ · with parent })

/-- The tree with another kind for one node. -/
def mapKind (t : Tree) (id : NodeId) (f : Kind NodeId → Kind NodeId) : Tree :=
  t.update id fun n => { n with kind := f n.kind }

/-- Adds a node and makes it the parent of its children.  A node without a
place in the source is new text, so it counts as changed. -/
def alloc (kind : Kind NodeId) (span : Option Span) (t : Tree) : NodeId × Tree :=
  let adopted := kind.children.foldl (setParent · (some t.size)) t
  (t.size, { adopted with nodes := adopted.nodes.push { kind, span, dirty := span.isNone } })

/-- Adds a whole tree, children before parents, and answers with its root. -/
def graft : Ast → StateM Tree NodeId :=
  Ast.fold fun span kind => do
    let kind ← kind.traverse id
    modifyGet (alloc kind span)

/-- The tree with `body` as the contents of the program. -/
def setBody (t : Tree) (body : List NodeId) : Tree :=
  (body.foldl (setParent · (some root)) t).mapKind root fun _ => .program body

/-- The tree of a module whose program holds `body`. -/
def ofBody (source : Text) (body : List Ast) : Tree :=
  let (ids, t) := (body.mapM graft).run (new source)
  t.setBody ids

@[simp] theorem size_update (t : Tree) (id : NodeId) (f : Node → Node) :
    (t.update id f).size = t.size := by
  simp [update, size]

@[simp] theorem size_setParent (t : Tree) (p : Option NodeId) (id : NodeId) :
    (t.setParent p id).size = t.size :=
  size_update ..

@[simp] theorem size_foldl_setParent (t : Tree) (p : Option NodeId) (ids : List NodeId) :
    (ids.foldl (setParent · p) t).size = t.size := by
  induction ids generalizing t with
  | nil => rfl
  | cons id rest ih => rw [List.foldl_cons, ih, size_setParent]

/-- The identifier of an added node is the size of the store before. -/
theorem alloc_fst (kind : Kind NodeId) (span : Option Span) (t : Tree) :
    (alloc kind span t).1 = t.size :=
  rfl

theorem size_alloc (kind : Kind NodeId) (span : Option Span) (t : Tree) :
    (alloc kind span t).2.size = t.size + 1 := by
  have := size_foldl_setParent t (some t.size) kind.children
  simp only [size] at this
  simp [alloc, size, this]

/-- An added node is found under its identifier, with nothing above it yet. -/
theorem node_alloc_self (kind : Kind NodeId) (span : Option Span) (t : Tree) :
    (alloc kind span t).2.node t.size = { kind, span, dirty := span.isNone } := by
  have hsize := size_foldl_setParent t (some t.size) kind.children
  unfold alloc node
  generalize kind.children.foldl (setParent · (some t.size)) t = adopted at hsize
  rw [← hsize, size]
  simp

end Tree

end JsxStyle
