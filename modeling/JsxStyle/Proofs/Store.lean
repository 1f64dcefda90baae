import JsxStyle.Tree.Edit

/-!
# Looking into a store after a change

Every change to a store goes through `update`, `alloc` and `markDirty`.  This
file says what each node looks like afterwards, once and for all nodes, so that
no later proof has to look at the array.  An update or a mark reaches only the
node it names; an added node stands behind all others, and of the nodes before
it only the children get another parent.

* `node_update`, `node_alloc`: the node found under any identifier afterwards;
* `node_markDirty`: marking changes nothing but the mark, on the node and on the
  nodes above it.
-/

namespace JsxStyle

namespace Tree

/-- Whether a node is marked as changed. -/
def dirty (t : Tree) (id : NodeId) : Bool :=
  (t.node id).dirty

/-- What is found under an identifier that is out of range. -/
theorem node_of_size_le {t : Tree} {n : NodeId} (h : t.size ≤ n) :
    t.node n = { kind := .fragment [] } := by
  unfold node size at *
  rw [Array.getD_eq_getD_getElem?, Array.getElem?_eq_none h]
  rfl

/-- An id that the store does not have stands for an empty fragment. -/
theorem kind_of_size_le {t : Tree} {n : NodeId} (h : t.size ≤ n) : t.kind n = .fragment [] := by
  rw [kind, node_of_size_le h]

/-- Nothing is above an id that the store does not have. -/
theorem parent_of_size_le {t : Tree} {n : NodeId} (h : t.size ≤ n) : t.parent n = none := by
  rw [parent, node_of_size_le h]

/-- A node with another node above it is in range. -/
theorem lt_size_of_parent {t : Tree} {n p : NodeId} (h : t.parent n = some p) : n < t.size := by
  by_cases hn : n < t.size
  · exact hn
  · rw [parent_of_size_le (Nat.le_of_not_lt hn)] at h
    exact absurd h (by simp)

/-- A node with other nodes below it is in range. -/
theorem lt_size_of_mem_children {t : Tree} {n c : NodeId} (h : c ∈ t.children n) :
    n < t.size := by
  by_cases hn : n < t.size
  · exact hn
  · rw [children, kind_of_size_le (Nat.le_of_not_lt hn)] at h
    exact absurd h (by simp [Kind.children])

/-- A node of a form other than that of the empty fragment is in range. -/
theorem lt_size_of_form {t : Tree} {n : NodeId} (h : t.form n ≠ .fragment) : n < t.size := by
  by_cases hn : n < t.size
  · exact hn
  · rw [form, kind_of_size_le (Nat.le_of_not_lt hn)] at h
    exact absurd rfl h

/-- An update reaches the node it names and no other. -/
theorem node_update (t : Tree) (id : NodeId) (f : Node → Node) (n : NodeId) :
    (t.update id f).node n = if n = id ∧ n < t.size then f (t.node n) else t.node n := by
  unfold update node size
  rw [Array.getD_eq_getD_getElem?, Array.getD_eq_getD_getElem?, Array.getElem?_modify]
  by_cases hid : id = n
  · subst hid
    by_cases hn : id < t.nodes.size
    · simp [hn]
    · simp [hn]
  · simp [hid, Ne.symm hid]

/-- Changing a node keeps the source. -/
@[simp] theorem source_update (t : Tree) (id : NodeId) (f : Node → Node) :
    (t.update id f).source = t.source :=
  rfl

/-- Noting down what is above a node keeps the source. -/
@[simp] theorem source_setParent (t : Tree) (p : Option NodeId) (id : NodeId) :
    (t.setParent p id).source = t.source :=
  rfl

/-- Changing what a node is keeps the source. -/
@[simp] theorem source_mapKind (t : Tree) (id : NodeId) (f : Kind NodeId → Kind NodeId) :
    (t.mapKind id f).source = t.source :=
  rfl

/-- Changing what a node is adds no node. -/
@[simp] theorem size_mapKind (t : Tree) (id : NodeId) (f : Kind NodeId → Kind NodeId) :
    (t.mapKind id f).size = t.size :=
  size_update ..

/-- Only the node whose parent is noted down changes. -/
theorem node_setParent (t : Tree) (p : Option NodeId) (id n : NodeId) :
    (t.setParent p id).node n =
      if n = id ∧ n < t.size then { t.node n with parent := p } else t.node n :=
  node_update ..

/-- Only the node whose kind is changed changes. -/
theorem node_mapKind (t : Tree) (id : NodeId) (f : Kind NodeId → Kind NodeId) (n : NodeId) :
    (t.mapKind id f).node n =
      if n = id ∧ n < t.size then { t.node n with kind := f (t.kind n) } else t.node n :=
  node_update ..

/-- The node has the new parent, every other node the old one. -/
theorem parent_setParent (t : Tree) (p : Option NodeId) (id n : NodeId) :
    (t.setParent p id).parent n = if n = id ∧ n < t.size then p else t.parent n := by
  simp only [parent, node_setParent]
  split <;> rfl

/-- What is above a node has no say in what it is. -/
@[simp] theorem kind_setParent (t : Tree) (p : Option NodeId) (id n : NodeId) :
    (t.setParent p id).kind n = t.kind n := by
  simp only [kind, node_setParent]
  split <;> rfl

/-- Nor has it in its place. -/
@[simp] theorem span_setParent (t : Tree) (p : Option NodeId) (id n : NodeId) :
    (t.setParent p id).span n = t.span n := by
  simp only [span, node_setParent]
  split <;> rfl

/-- Nor in whether it has changed. -/
@[simp] theorem dirty_setParent (t : Tree) (p : Option NodeId) (id n : NodeId) :
    (t.setParent p id).dirty n = t.dirty n := by
  simp only [dirty, node_setParent]
  split <;> rfl

/-- The node is what the change makes of it, every other node what it was. -/
theorem kind_mapKind (t : Tree) (id : NodeId) (f : Kind NodeId → Kind NodeId) (n : NodeId) :
    (t.mapKind id f).kind n = if n = id ∧ n < t.size then f (t.kind n) else t.kind n := by
  simp only [kind, node_mapKind]
  split <;> rfl

/-- What a node is has no say in what is above it. -/
@[simp] theorem parent_mapKind (t : Tree) (id : NodeId) (f : Kind NodeId → Kind NodeId)
    (n : NodeId) : (t.mapKind id f).parent n = t.parent n := by
  simp only [parent, node_mapKind]
  split <;> rfl

/-- Nor has it in its place. -/
@[simp] theorem span_mapKind (t : Tree) (id : NodeId) (f : Kind NodeId → Kind NodeId)
    (n : NodeId) : (t.mapKind id f).span n = t.span n := by
  simp only [span, node_mapKind]
  split <;> rfl

/-- Nor in whether it has changed. -/
@[simp] theorem dirty_mapKind (t : Tree) (id : NodeId) (f : Kind NodeId → Kind NodeId)
    (n : NodeId) : (t.mapKind id f).dirty n = t.dirty n := by
  simp only [dirty, node_mapKind]
  split <;> rfl

/-- Giving several nodes a new parent reaches just those. -/
theorem node_foldl_setParent (p : Option NodeId) (ids : List NodeId) (t : Tree) (n : NodeId) :
    (ids.foldl (setParent · p) t).node n =
      if n ∈ ids ∧ n < t.size then { t.node n with parent := p } else t.node n := by
  induction ids generalizing t with
  | nil => simp
  | cons id rest ih =>
    rw [List.foldl_cons, ih, node_setParent, size_setParent]
    by_cases hlt : n < t.size
    · by_cases hid : n = id
      · subst hid
        by_cases hmem : n ∈ rest <;> simp [hlt, hmem]
      · by_cases hmem : n ∈ rest <;> simp [hlt, hid, hmem]
    · simp [hlt]

/-- Noting down what is above several nodes keeps the source. -/
theorem source_foldl_setParent (p : Option NodeId) (ids : List NodeId) (t : Tree) :
    (ids.foldl (setParent · p) t).source = t.source := by
  induction ids generalizing t with
  | nil => rfl
  | cons id rest ih => rw [List.foldl_cons, ih, source_setParent]

/-- A new node keeps the source. -/
@[simp] theorem source_alloc (kind : Kind NodeId) (span : Option Span) (t : Tree) :
    (alloc kind span t).2.source = t.source :=
  source_foldl_setParent ..

/-- Behind an added node nothing has changed but the parent of its children. -/
theorem node_alloc (kind : Kind NodeId) (span : Option Span) (t : Tree) (n : NodeId) :
    (alloc kind span t).2.node n =
      if n = t.size then { kind, span, dirty := span.isNone }
      else if n ∈ kind.children ∧ n < t.size then { t.node n with parent := some t.size }
      else t.node n := by
  by_cases hn : n = t.size
  · rw [hn, node_alloc_self, if_pos rfl]
  · rw [if_neg hn, ← node_foldl_setParent]
    have hsize := size_foldl_setParent t (some t.size) kind.children
    show node { kind.children.foldl (setParent · (some t.size)) t with nodes := _ } n = _
    unfold node
    rw [Array.getD_eq_getD_getElem?, Array.getD_eq_getD_getElem?]
    dsimp only
    rw [Array.getElem?_push, if_neg (by rw [← size, hsize]; exact hn)]

/-- The new node is what it was made as, and the others are what they were. -/
theorem kind_alloc (kind : Kind NodeId) (span : Option Span) (t : Tree) (n : NodeId) :
    (alloc kind span t).2.kind n = if n = t.size then kind else t.kind n := by
  simp only [Tree.kind, node_alloc]
  split
  · rfl
  · split <;> rfl

/-- The new node is above its children, and what is above the others stays. -/
theorem parent_alloc (kind : Kind NodeId) (span : Option Span) (t : Tree) (n : NodeId) :
    (alloc kind span t).2.parent n =
      if n ∈ kind.children ∧ n < t.size then some t.size else t.parent n := by
  simp only [Tree.parent, node_alloc]
  by_cases hn : n = t.size
  · subst hn
    simp [node_of_size_le]
  · rw [if_neg hn]
    split <;> rfl

/-- The new node has the place it was given, and the others keep theirs. -/
theorem span_alloc (kind : Kind NodeId) (span : Option Span) (t : Tree) (n : NodeId) :
    (alloc kind span t).2.span n = if n = t.size then span else t.span n := by
  simp only [Tree.span, node_alloc]
  split
  · rfl
  · split <;> rfl

/-- The new node counts as changed unless it has a place. -/
theorem dirty_alloc (kind : Kind NodeId) (span : Option Span) (t : Tree) (n : NodeId) :
    (alloc kind span t).2.dirty n = if n = t.size then span.isNone else t.dirty n := by
  simp only [Tree.dirty, node_alloc]
  split
  · rfl
  · split <;> rfl

/-- Marking changes nothing but the mark, on the nodes it goes over. -/
theorem node_foldl_mark (ids : List NodeId) (t : Tree) (n : NodeId) :
    (ids.foldl (fun t id => t.update id ({ · with dirty := true })) t).node n =
      if n ∈ ids ∧ n < t.size then { t.node n with dirty := true } else t.node n := by
  induction ids generalizing t with
  | nil => simp
  | cons id rest ih =>
    rw [List.foldl_cons, ih, node_update, size_update]
    by_cases hlt : n < t.size
    · by_cases hid : n = id
      · subst hid
        by_cases hmem : n ∈ rest <;> simp [hlt, hmem]
      · by_cases hmem : n ∈ rest <;> simp [hlt, hid, hmem]
    · simp [hlt]

/-- Marking reaches a node and the nodes above it. -/
theorem node_markDirty (t : Tree) (id n : NodeId) :
    (t.markDirty id).node n =
      if n ∈ id :: t.ancestors id ∧ n < t.size then { t.node n with dirty := true }
      else t.node n :=
  node_foldl_mark ..

/-- Marking nodes as changed adds none. -/
@[simp] theorem size_markDirty (t : Tree) (id : NodeId) : (t.markDirty id).size = t.size := by
  unfold markDirty
  generalize id :: t.ancestors id = ids
  induction ids generalizing t with
  | nil => rfl
  | cons id rest ih => rw [List.foldl_cons, ih, size_update]

/-- Marking nodes as changed keeps the source. -/
@[simp] theorem source_markDirty (t : Tree) (id : NodeId) :
    (t.markDirty id).source = t.source := by
  unfold markDirty
  generalize id :: t.ancestors id = ids
  induction ids generalizing t with
  | nil => rfl
  | cons id rest ih => rw [List.foldl_cons, ih, source_update]

/-- What is marked as changed stays what it is. -/
@[simp] theorem kind_markDirty (t : Tree) (id n : NodeId) :
    (t.markDirty id).kind n = t.kind n := by
  simp only [kind, node_markDirty]
  split <;> rfl

/-- It stays below what it is below. -/
@[simp] theorem parent_markDirty (t : Tree) (id n : NodeId) :
    (t.markDirty id).parent n = t.parent n := by
  simp only [parent, node_markDirty]
  split <;> rfl

/-- It keeps its place. -/
@[simp] theorem span_markDirty (t : Tree) (id n : NodeId) :
    (t.markDirty id).span n = t.span n := by
  simp only [span, node_markDirty]
  split <;> rfl

/-- A node counts as changed if it did before, is the node that is marked, or is above it. -/
theorem dirty_markDirty (t : Tree) (id n : NodeId) :
    (t.markDirty id).dirty n =
      (t.dirty n || decide (n ∈ id :: t.ancestors id ∧ n < t.size)) := by
  simp only [dirty, node_markDirty]
  by_cases h : n ∈ id :: t.ancestors id ∧ n < t.size
  · rw [if_pos h, decide_eq_true h, Bool.or_true]
  · rw [if_neg h, decide_eq_false h, Bool.or_false]

end Tree

end JsxStyle
