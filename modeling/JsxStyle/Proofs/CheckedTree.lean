import JsxStyle.Proofs.Access
import JsxStyle.Proofs.Moves
import JsxStyle.Style.Template

/-!
# Checked stores
-/

namespace JsxStyle

namespace Tree

/-- A mark makes no difference to the links. -/
theorem Linked.of_markDirty {t : Tree} {id : NodeId} (h : (t.markDirty id).Linked) : t.Linked :=
  h.congr (size_markDirty ..).symm (fun _ => (parent_markDirty ..).symm) fun _ => by
    rw [children, children, kind_markDirty]

/-- Putting one node in the place of another adds none. -/
theorem size_replace (old new : NodeId) (t : Tree) : (t.replace old new).size = t.size := by
  rw [replace, replaceWith]
  cases t.parent old with
  | none => simp
  | some above => simp

end Tree

namespace Checked

variable {ε : Type}

/-! ## Nodes -/

/-- The node under an identifier. -/
def nodeAt (t : Tree) (id : NodeId) : Checked ε Node :=
  match t.nodes[id]? with
  | some n => pure n
  | none => .error (.fault (.noNode id))

/-- The kind of a node. -/
def kindAt (t : Tree) (id : NodeId) : Checked ε (Kind NodeId) :=
  return (← nodeAt t id).kind

/-- The tree with one node changed. -/
def update (t : Tree) (id : NodeId) (f : Node → Node) : Checked ε Tree := do
  let n ← nodeAt t id
  return { t with nodes := t.nodes.setIfInBounds id (f n) }

/-- The tree with another parent for one node. -/
def setParent (t : Tree) (parent : Option NodeId) (id : NodeId) : Checked ε Tree :=
  update t id ({ · with parent })

/-- The tree with another kind for one node. -/
def mapKind (t : Tree) (id : NodeId) (f : Kind NodeId → Kind NodeId) : Checked ε Tree :=
  update t id fun n => { n with kind := f n.kind }

/-! ## Building -/

/-- Adds a node and makes it the parent of its children. -/
def alloc (kind : Kind NodeId) (span : Option Span) (t : Tree) : Checked ε (NodeId × Tree) := do
  let adopted ← kind.children.foldlM (setParent · (some t.size)) t
  return (t.size, { adopted with nodes := adopted.nodes.push { kind, span, dirty := span.isNone } })

/-- Adds a whole tree, children before parents, and answers with its root. -/
def graft : Ast → StateT Tree (Checked ε) NodeId :=
  Ast.fold fun span kind => do
    let kind ← kind.traverse id
    fun t => alloc kind span t

/-- The tree with `body` as the contents of the program. -/
def setBody (t : Tree) (body : List NodeId) : Checked ε Tree := do
  mapKind (← body.foldlM (setParent · (some Tree.root)) t) Tree.root fun _ => .program body

/-- The tree of a module whose program holds `body`. -/
def ofBody (source : Text) (body : List Ast) : Checked ε Tree := do
  let (ids, t) ← (body.mapM graft).run (Tree.new source)
  setBody t ids

/-! ## Walks -/

/-- The nearest node above `id`, at most `depth` steps away, that `p` accepts. -/
def findAbove (t : Tree) (p : NodeId → Node → Bool) :
    (depth : Nat) → NodeId → Checked ε (Option NodeId)
  | 0, id => .error (.fault (.endless id))
  | depth + 1, id => do
    match (← nodeAt t id).parent with
    | none => return none
    | some above =>
      if p above (← nodeAt t above) then return some above else findAbove t p depth above

/-- The nearest node above `id` of a given form. -/
def enclosing (t : Tree) (id : NodeId) (form : Form) : Checked ε (Option NodeId) :=
  findAbove t (fun _ n => n.kind.form = form) t.size id

/-- Whether `id` is the root or has the root above it. -/
def isAttached (t : Tree) (id : NodeId) : Checked ε Bool :=
  if id == Tree.root then pure true
  else return (← findAbove t (fun above _ => above == Tree.root) t.size id).isSome

/-- Marks a node and every node above it, at most `depth - 1` steps away, as changed. -/
def markWithin (t : Tree) : (depth : Nat) → NodeId → Checked ε Tree
  | 0, id => .error (.fault (.endless id))
  | depth + 1, id => do
    let t ← update t id ({ · with dirty := true })
    match (← nodeAt t id).parent with
    | none => return t
    | some above => markWithin t depth above

/-- Marks a node and every node above it as changed. -/
def markDirty (t : Tree) (id : NodeId) : Checked ε Tree :=
  markWithin t t.size id

/-- The nodes less than `depth` levels below `id`, each before those below it. -/
def descendantsWithin (t : Tree) : (depth : Nat) → NodeId → Checked ε (List NodeId)
  | 0, id => .error (.fault (.endless id))
  | depth + 1, id => do
    let below ← (← kindAt t id).children.mapM fun child =>
      return child :: (← descendantsWithin t depth child)
    return below.flatten

/-- The nodes below `id` in source order, each before those below it. -/
def descendants (t : Tree) (id : NodeId) : Checked ε (List NodeId) :=
  descendantsWithin t t.size id

/-! ## Edits -/

/-- Puts the node that `build` makes where `old` stood. -/
def replaceWith (old : NodeId) (build : Tree → Checked ε (NodeId × Tree)) (t : Tree) :
    Checked ε (NodeId × Tree) := do
  let above? := (← nodeAt t old).parent
  let (new, built) ← build (← setParent t none old)
  match above? with
  | none => return (new, built)
  | some above => do
    let grown ← mapKind built above (·.replaceChild old new)
    return (new, ← markDirty (← setParent grown (some above) new) above)

/-- Puts `new` where `old` stood. -/
def replace (old new : NodeId) (t : Tree) : Checked ε Tree :=
  return (← replaceWith old (fun t => pure (new, t)) t).2

/-- Puts `new` where `old` stood and gives it the place in the source that `old` had. -/
def replaceAt (old new : NodeId) (t : Tree) : Checked ε Tree := do
  let span := (← nodeAt t old).span
  let placed ← update t new ({ · with span })
  update (← replace old new placed) new ({ · with dirty := true })

/-- Takes a node out of the node above it. -/
def remove (id : NodeId) (t : Tree) : Checked ε Tree := do
  match (← nodeAt t id).parent with
  | none => return t
  | some above => markDirty (← mapKind (← setParent t none id) above (·.dropChild id)) above

/-- The list with another item at an index. -/
def insertAt (items : List NodeId) (i : Nat) (new : NodeId) : Checked ε (List NodeId) :=
  if i ≤ items.length then pure (items.insertIdx i new) else .error (.fault (.noItem i))

/-- Puts `new` behind `anchor` in the list that `anchor` stands in; fails if it stands in none. -/
def insertAfter (anchor new : NodeId) (t : Tree) : Checked ε (Option Tree) := do
  match (← nodeAt t anchor).parent with
  | none => return none
  | some above =>
    match (← kindAt t above).items? with
    | none => return none
    | some items =>
      match items.findIdx? (· == anchor) with
      | none => return none
      | some i => do
        let items ← insertAt items (i + 1) new
        let grown ← mapKind t above (·.setItems items)
        return some (← markDirty (← setParent grown (some above) new) above)

/-- Puts `new` at the end of the list of `holder`; fails if it has none. -/
def append (holder new : NodeId) (t : Tree) : Checked ε (Option Tree) := do
  match (← kindAt t holder).items? with
  | none => return none
  | some items => do
    let grown ← mapKind t holder (·.setItems (items ++ [new]))
    return some (← markDirty (← setParent grown (some holder) new) holder)

/-! ## Attributes and literals -/

/-- The name of an attribute; other nodes have none. -/
def attributeName (t : Tree) (id : NodeId) : Checked ε (Option Text) := do
  match ← kindAt t id with
  | .attr name _ => return some name
  | _ => return none

/-- The value of an attribute that has one. -/
def attributeValue (t : Tree) (id : NodeId) : Checked ε (Option NodeId) := do
  match ← kindAt t id with
  | .attr _ value => return value
  | _ => return none

/-- The attributes of an opening tag; other nodes have none. -/
def attributes (t : Tree) (id : NodeId) : Checked ε (List NodeId) := do
  match ← kindAt t id with
  | .opening _ attributes _ => return attributes
  | _ => return []

/-- The index of the first of `attributes` that is called `name`. -/
def attributeIndex (t : Tree) (name : Text) : List NodeId → Checked ε (Option Nat)
  | [] => return none
  | id :: rest => do
    if (← attributeName t id) == some name then return some 0
    else return (← attributeIndex t name rest).map (· + 1)

/-- The first of `attributes` that is called `name`. -/
def attributeNamed (t : Tree) (attributes : List NodeId) (name : Text) :
    Checked ε (Option NodeId) := do
  match ← attributeIndex t name attributes with
  | none => return none
  | some i =>
    match attributes[i]? with
    | some id => return some id
    | none => .error (.fault (.noItem i))

/-- The text that a literal contributes to a class string; other nodes contribute none. -/
def literalText (t : Tree) (id : NodeId) : Checked ε (Option Text) := do
  match ← kindAt t id with
  | .str value _ => return some value
  | .fragment [only] =>
    match ← kindAt t only with
    | .code code => return if code.trim.isDecimal then some code.trim else none
    | _ => return none
  | _ => return none

/-- The chunks of a template, with the values of the holes between them. -/
def foldChunks (t : Tree) : List Text → List NodeId → Checked ε (Option Text)
  | [], _ => return some []
  | chunk :: chunks, [] => return (chunk.unescape ++ ·) <$> (← foldChunks t chunks [])
  | chunk :: chunks, hole :: holes => do
    match ← literalText t hole with
    | none => return none
    | some value => return (chunk.unescape ++ value ++ ·) <$> (← foldChunks t chunks holes)

/-- The class string of a template, if `builder` tags it and all of it is known. -/
def staticClasses (t : Tree) (template : NodeId) (builder : Option Text) :
    Checked ε (Option Text) := do
  match ← kindAt t template with
  | .template tag chunks holes =>
    match ← kindAt t tag with
    | .ident name => if some name = builder then foldChunks t chunks holes else return none
    | _ => return none
  | _ => return none

/-! ## Accesses that are allowed -/

section

variable {t t' : Tree} {id old new : NodeId}

/-- A node of the store is there to be looked at. -/
theorem nodeAt_eq (h : id < t.size) : (nodeAt t id : Checked ε Node) = pure (t.node id) := by
  have hnode : t.nodes[id]? = some (t.node id) := by
    rw [Tree.node, Array.getD_eq_getD_getElem?, Array.getElem?_eq_getElem h]
    rfl
  rw [nodeAt, hnode]

/-- So what it is can be looked at. -/
theorem kindAt_eq (h : id < t.size) : (kindAt t id : Checked ε _) = pure (t.kind id) := by
  rw [kindAt, nodeAt_eq h]
  rfl

/-- A node of the store is there to be changed. -/
theorem update_eq (h : id < t.size) (f : Node → Node) :
    (update t id f : Checked ε Tree) = pure (t.update id f) := by
  have hnodes : t.nodes.setIfInBounds id (f (t.node id)) = t.nodes.modify id f := by
    refine Array.ext (by simp) fun i hi hi' => ?_
    rw [Array.getElem_setIfInBounds, Array.getElem_modify]
    split
    case isTrue heq =>
      subst heq
      rw [Tree.node, Array.getD_eq_getD_getElem?, Array.getElem?_eq_getElem h]
      rfl
    case isFalse => rfl
  rw [update, nodeAt_eq h, pure_bind, hnodes]
  rfl

/-- Noting down what is above a node of the store is such a change. -/
theorem setParent_eq (h : id < t.size) (parent : Option NodeId) :
    (setParent t parent id : Checked ε Tree) = pure (t.setParent parent id) :=
  update_eq h _

/-- Changing what a node of the store is, too. -/
theorem mapKind_eq (h : id < t.size) (f : Kind NodeId → Kind NodeId) :
    (mapKind t id f : Checked ε Tree) = pure (t.mapKind id f) :=
  update_eq h _

/-- What is above several nodes is noted down one after the other. -/
theorem foldlM_setParent_eq (parent : Option NodeId) {ids : List NodeId}
    (h : ∀ c ∈ ids, c < t.size) :
    (ids.foldlM (setParent · parent) t : Checked ε Tree) =
      pure (ids.foldl (Tree.setParent · parent) t) := by
  induction ids generalizing t with
  | nil => rfl
  | cons c rest ih =>
    obtain ⟨hc, hrest⟩ := List.forall_mem_cons.mp h
    rw [List.foldlM_cons, setParent_eq hc, pure_bind, List.foldl_cons]
    exact ih fun d hd => by rw [Tree.size_setParent]; exact hrest d hd

/-- A new node over nodes of the store is put in without fault. -/
theorem alloc_eq {kind : Kind NodeId} (h : ∀ c ∈ kind.children, c < t.size) (span : Option Span) :
    (alloc kind span t : Checked ε _) = pure (t.alloc kind span) := by
  rw [alloc, foldlM_setParent_eq _ h, pure_bind]
  rfl

end

/-! ## Building -/

/-- A checked run on a store that does what another run does where `P` is known to hold,
and `P` holds where it comes to. -/
def Agrees {σ α : Type} (P : σ → Prop) (x' : StateT σ (Checked ε) α) (x : StateM σ α) : Prop :=
  ∀ s, P s → x'.run s = pure (x.run s) ∧ P (x.run s).2

namespace Agrees

variable {σ α β γ : Type} {P : σ → Prop}

/-- A step that does nothing but answer has no fault. -/
theorem pure (a : α) : Agrees (ε := ε) P (Pure.pure a) (Pure.pure a) :=
  fun _ hs => ⟨rfl, hs⟩

/-- Two steps in a row agree if each of them does. -/
theorem bind {x' : StateT σ (Checked ε) α} {x : StateM σ α} {f' : α → StateT σ (Checked ε) β}
    {f : α → StateM σ β} (hx : Agrees P x' x) (hf : ∀ a, Agrees P (f' a) (f a)) :
    Agrees P (x' >>= f') (x >>= f) := by
  intro s hs
  obtain ⟨hrun, hs'⟩ := hx s hs
  rw [StateT.run_bind, hrun, pure_bind]
  exact hf _ _ hs'

/-- Steps over a list agree if each of them does. -/
theorem mapM {l : List α} {f' : α → StateT σ (Checked ε) β} {f : α → StateM σ β}
    (h : ∀ a ∈ l, Agrees P (f' a) (f a)) : Agrees P (l.mapM f') (l.mapM f) := by
  induction l with
  | nil => exact .pure []
  | cons a rest ih =>
    obtain ⟨ha, hrest⟩ := List.forall_mem_cons.mp h
    rw [List.mapM_cons, List.mapM_cons]
    exact ha.bind fun b => (ih hrest).bind fun bs => .pure (b :: bs)

/-- Runs below a kind agree if they do for each node below. -/
theorem traverse {k : Kind α} {f' : α → StateT σ (Checked ε) β} {f : α → StateM σ β}
    (h : ∀ a ∈ k.children, Agrees P (f' a) (f a)) :
    Agrees P ((k.map f').traverse id) ((k.map f).traverse id) := by
  have hlist {l : List α} (hl : ∀ a ∈ l, Agrees P (f' a) (f a)) :
      Agrees P ((l.map f').mapM id) ((l.map f).mapM id) := by
    rw [List.mapM_map, List.mapM_map]
    exact mapM hl
  cases k with
  | program items | array items | fragment items | opening _ items _ =>
    exact (hlist h).bind fun _ => .pure _
  | code | importing | text | str | ident => exact .pure _
  | element head items _ | call head items | template head _ items =>
    obtain ⟨hhead, hitems⟩ := List.forall_mem_cons.mp h
    exact Agrees.bind hhead fun _ => (hlist hitems).bind fun _ => .pure _
  | spread a | member a _ => exact Agrees.bind (h a (List.mem_singleton_self a)) fun _ => .pure _
  | attr _ value | container value =>
    cases value with
    | none => exact .pure _
    | some a =>
      refine Agrees.bind ?_ fun _ => .pure _
      exact Agrees.bind (h a (List.mem_singleton_self a)) fun b => .pure (some b)

end Agrees

/-- A tree is put in below its top first. -/
theorem graft_node_run (s : Option Span) (k : Kind Ast) (t : Tree) :
    (graft (.node s k) : StateT Tree (Checked ε) NodeId).run t =
      ((k.map graft).traverse id).run t >>= fun below => alloc below.1 s below.2 := by
  unfold graft
  rw [Ast.fold_node]
  rfl

/-- Grafting a tree names nodes that are there. -/
theorem agrees_graft (a : Ast) : Agrees (ε := ε) Tree.Linked (graft a) (Tree.graft a) := by
  induction a using Ast.induction with
  | h s k ih =>
    intro t ht
    refine ⟨?_, (Tree.graft_spec _ t ht).linked⟩
    obtain ⟨hrun, -⟩ := Agrees.traverse (ε := ε) ih t ht
    obtain ⟨z, rfl, hbelow, hids⟩ := Kind.runsTo Tree.graft k t
    have hspec := Tree.mapM_graft_spec (z.map Prod.fst).children t ht
    rw [graft_node_run, hrun, pure_bind, Tree.graft_node_run, hbelow]
    refine alloc_eq (fun c hc => ?_) s
    rw [Kind.children_map, ← hids] at hc
    exact (hspec.fresh c hc).2

/-- Putting a tree into a linked store has no fault. -/
theorem graft_eq (a : Ast) {t : Tree} (ht : t.Linked) :
    (graft a).run t = (pure ((Tree.graft a).run t) : Checked ε _) :=
  (agrees_graft a t ht).1

/-- The nodes of a program are put below its root without fault. -/
theorem setBody_eq {t : Tree} (hpos : 0 < t.size) {body : List NodeId}
    (h : ∀ c ∈ body, c < t.size) :
    (setBody t body : Checked ε Tree) = pure (t.setBody body) := by
  rw [setBody, foldlM_setParent_eq _ h, pure_bind,
    mapKind_eq (by rw [Tree.size_foldl_setParent]; exact hpos)]
  rfl

/-- The store of a module is built without access that is not allowed. -/
theorem ofBody_eq (source : Text) (body : List Ast) :
    (ofBody source body : Checked ε Tree) = pure (Tree.ofBody source body) := by
  have hnew := Tree.linked_new source
  have hspec := Tree.mapM_graft_spec body _ hnew
  obtain ⟨hrun, -⟩ := Agrees.mapM (ε := ε) (l := body) (fun a _ => agrees_graft a) _ hnew
  rw [ofBody, hrun, pure_bind]
  exact setBody_eq hspec.linked.nonempty fun c hc => (hspec.fresh c hc).2

/-! ## Walks -/

section Walks

variable {t t' : Tree} {n : NodeId}

/-- A walk up that is allowed as many steps as there are nodes above finds what it looks for. -/
theorem findAbove_eq (ht : t.Linked) (p : NodeId → Node → Bool) {d : Nat} (hn : n < t.size)
    (hd : (t.ancestorsWithin d n).length < d) :
    (findAbove t p d n : Checked ε _) =
      pure ((t.ancestorsWithin d n).find? fun above => p above (t.node above)) := by
  induction d generalizing n with
  | zero => exact absurd hd (Nat.not_lt_zero _)
  | succ d ih =>
    rw [findAbove, nodeAt_eq hn, pure_bind, Tree.ancestorsWithin] at *
    cases hparent : t.parent n with
    | none =>
      rw [show (t.node n).parent = none from hparent]
      rfl
    | some above =>
      have habove := ht.parent_lt_size hparent
      rw [hparent, List.length_cons, Nat.add_lt_add_iff_right] at hd
      rw [show (t.node n).parent = some above from hparent]
      dsimp only
      rw [nodeAt_eq habove, pure_bind, List.find?_cons]
      cases p above (t.node above) with
      | true => rfl
      | false => exact ih habove hd

/-- The search for an enclosing node goes up through nodes of the store. -/
theorem enclosing_eq (ht : t.Linked) (hn : n < t.size) (form : Form) :
    (enclosing t n form : Checked ε _) = pure (t.enclosing n form) :=
  findAbove_eq ht _ hn (ht.length_ancestorsWithin_lt ..)

/-- So does the search for the root. -/
theorem isAttached_eq (ht : t.Linked) (hn : n < t.size) :
    (isAttached t n : Checked ε Bool) = pure (t.isAttached n) := by
  rw [isAttached, Tree.isAttached, findAbove_eq ht _ hn (ht.length_ancestorsWithin_lt ..),
    pure_bind]
  split
  case isTrue hroot => rw [hroot, Bool.true_or]
  case isFalse hroot =>
    rw [Bool.not_eq_true] at hroot
    rw [hroot, Bool.false_or]
    refine congrArg Pure.pure (Bool.eq_iff_iff.mpr ?_)
    rw [List.find?_isSome, List.contains_iff_mem]
    constructor
    · rintro ⟨above, hmem, heq⟩
      exact beq_iff_eq.mp heq ▸ hmem
    · exact fun hmem => ⟨_, hmem, beq_self_eq_true _⟩

/-- A walk up that marks goes over the same nodes as one that only looks. -/
theorem markWithin_eq (ht : t.Linked) {d : Nat} (hn : n < t.size)
    (hd : (t.ancestorsWithin d n).length < d) :
    (markWithin t d n : Checked ε Tree) = pure ((n :: t.ancestorsWithin d n).foldl
      (fun t id => t.update id ({ · with dirty := true })) t) := by
  induction d generalizing t n with
  | zero => exact absurd hd (Nat.not_lt_zero _)
  | succ d ih =>
    have hparents (m : NodeId) : (t.update n ({ · with dirty := true })).parent m = t.parent m := by
      simp only [Tree.parent, Tree.node_update]
      split <;> rfl
    have hlinked : (t.update n ({ · with dirty := true })).Linked := by
      refine ht.congr (Tree.size_update ..) hparents fun m => ?_
      simp only [Tree.children, Tree.kind, Tree.node_update]
      split <;> rfl
    rw [markWithin, update_eq hn, pure_bind,
      nodeAt_eq (by rw [Tree.size_update]; exact hn), pure_bind]
    rw [Tree.ancestorsWithin] at hd ⊢
    cases hparent : t.parent n with
    | none =>
      rw [show ((t.update n _).node n).parent = none from (hparents n).trans hparent]
      rfl
    | some above =>
      have habove := ht.parent_lt_size hparent
      rw [hparent, List.length_cons, Nat.add_lt_add_iff_right] at hd
      rw [show ((t.update n _).node n).parent = some above from (hparents n).trans hparent]
      dsimp only
      rw [List.foldl_cons, ← Tree.ancestorsWithin_congr hparents] at *
      exact ih hlinked (by rw [Tree.size_update]; exact habove) hd

/-- The nodes above a node, which are marked with it, are in the store. -/
theorem markDirty_eq (ht : t.Linked) (hn : n < t.size) :
    (markDirty t n : Checked ε Tree) = pure (t.markDirty n) :=
  markWithin_eq ht hn (ht.length_ancestorsWithin_lt ..)

/-- A walk down that begins high enough does not run out of steps. -/
theorem descendantsWithin_eq (ht : t.Linked) {d : Nat} (hn : n < t.size)
    (hd : t.size ≤ d + (t.ancestors n).length) :
    (descendantsWithin t d n : Checked ε _) = pure (t.descendantsWithin d n) := by
  induction d generalizing n with
  | zero =>
    have hlt := ht.length_ancestorsWithin_lt t.size n
    rw [Nat.zero_add] at hd
    exact absurd hd (Nat.not_le.mpr hlt)
  | succ d ih =>
    have hbelow : ∀ c ∈ t.children n,
        (do return c :: (← descendantsWithin t d c) : Checked ε _) =
          pure (c :: t.descendantsWithin d c) := by
      intro c hc
      rw [ih (ht.lt_size_of_mem hc) ?_]
      · rw [pure_bind]
      · rw [ht.ancestors_eq_cons (ht.mem_children.mp hc), List.length_cons]
        omega
    rw [descendantsWithin, kindAt_eq hn, pure_bind]
    rw [show (t.kind n).children = t.children n from rfl, mapM_eq hbelow, pure_bind,
      Tree.descendantsWithin, List.flatMap_def]

/-- The nodes below a node are in the store. -/
theorem descendants_eq (ht : t.Linked) (hn : n < t.size) :
    (descendants t n : Checked ε _) = pure (t.descendants n) :=
  descendantsWithin_eq ht hn (Nat.le_add_right ..)

end Walks

/-! ## Edits -/

section Edits

variable {t t' : Tree} {old new id above holder anchor : NodeId}

/-- A node is taken out of the list that it is in. -/
theorem remove_eq (ht : t.Linked) (hid : id < t.size) (hr : (t.remove id).Linked) :
    (remove id t : Checked ε Tree) = pure (t.remove id) := by
  rw [Tree.remove] at hr
  rw [remove, Tree.remove, nodeAt_eq hid, pure_bind]
  cases hparent : t.parent id with
  | none => rw [show (t.node id).parent = none from hparent]
  | some above =>
    have habove := ht.parent_lt_size hparent
    rw [hparent] at hr
    rw [show (t.node id).parent = some above from hparent]
    dsimp only at hr ⊢
    rw [setParent_eq hid, pure_bind, mapKind_eq (by rwa [Tree.size_setParent]), pure_bind,
      markDirty_eq (Tree.Linked.of_markDirty hr) (by simpa using habove)]

/-- Putting a node where another stood, if what builds it runs without a fault. -/
theorem replaceWith_eq {build' : Tree → Checked ε (NodeId × Tree)} {build : Tree → NodeId × Tree}
    (ht : t.Linked) (hold : old < t.size)
    (hbuild : build' (t.setParent none old) = pure (build (t.setParent none old)))
    (hsize : t.size ≤ (build (t.setParent none old)).2.size)
    (hnew : (build (t.setParent none old)).1 < (build (t.setParent none old)).2.size)
    (hr : (t.replaceWith old build).2.Linked) :
    (replaceWith old build' t : Checked ε _) = pure (t.replaceWith old build) := by
  rw [Tree.replaceWith] at hr
  rw [replaceWith, Tree.replaceWith, nodeAt_eq hold, pure_bind, setParent_eq hold,
    pure_bind, hbuild,
    pure_bind]
  generalize build (t.setParent none old) = built at *
  cases hparent : t.parent old with
  | none => rw [show (t.node old).parent = none from hparent]
  | some above =>
    have habove := Nat.lt_of_lt_of_le (ht.parent_lt_size hparent) hsize
    rw [hparent] at hr
    rw [show (t.node old).parent = some above from hparent]
    dsimp only at hr ⊢
    rw [mapKind_eq habove, pure_bind, setParent_eq (by simpa using hnew), pure_bind,
      markDirty_eq (Tree.Linked.of_markDirty hr) (by simpa using habove), pure_bind]

/-- A node is put in the place of another without fault. -/
theorem replace_eq (ht : t.Linked) (hold : old < t.size) (hnew : new < t.size)
    (hr : (t.replace old new).Linked) :
    (replace old new t : Checked ε Tree) = pure (t.replace old new) := by
  have hwith : (replaceWith old (fun t => pure (new, t)) t : Checked ε _) =
      pure (t.replaceWith old fun t => (new, t)) :=
    replaceWith_eq ht hold rfl (by simp) (by simpa using hnew) hr
  rw [replace, hwith, pure_bind]
  rfl

/-- That it takes over the place in the source adds no fault. -/
theorem replaceAt_eq (ht : t.Linked) (hold : old < t.size) (hnew : new < t.size)
    (hr : (t.replaceAt old new).Linked) :
    (replaceAt old new t : Checked ε Tree) = pure (t.replaceAt old new) := by
  have hplaced := ht.place new (t.span old)
  have hsize : (t.update new ({ · with span := t.span old })).size = t.size := Tree.size_update ..
  have hswapped : ((t.update new ({ · with span := t.span old })).replace old new).Linked := by
    refine hr.congr (Tree.size_update ..).symm (fun m => ?_) fun m => ?_
    · simp only [Tree.replaceAt, Tree.parent, Tree.node_update]
      split <;> rfl
    · simp only [Tree.replaceAt, Tree.children, Tree.kind, Tree.node_update]
      split <;> rfl
  rw [replaceAt, nodeAt_eq hold, pure_bind]
  dsimp only
  rw [update_eq hnew, pure_bind]
  rw [show (t.node old).span = t.span old from rfl, replace_eq hplaced (by rwa [hsize])
    (by rwa [hsize]) hswapped, pure_bind, update_eq (by rwa [Tree.size_replace, hsize])]
  rfl

/-- What is inserted behind the first occurrence of an item comes within the list or at its end. -/
theorem insertAt_eq (new : NodeId) {items : List NodeId} {i : Nat}
    (h : items.findIdx? (· == anchor) = some i) :
    (insertAt items (i + 1) new : Checked ε _) = pure (Tree.insertBehind anchor new items) := by
  have hinsert :
      items.insertIdx (i + 1) new = Tree.insertBehind anchor new items ∧ i < items.length := by
    induction items generalizing i with
    | nil => exact absurd h (by simp)
    | cons id rest ih =>
      rw [List.findIdx?_cons] at h
      rw [Tree.insertBehind]
      split at h
      case isTrue heq =>
        obtain rfl := Option.some.inj h
        rw [if_pos (beq_iff_eq.mp heq)]
        exact ⟨rfl, Nat.succ_pos _⟩
      case isFalse hne =>
        obtain ⟨j, hj, rfl⟩ := Option.map_eq_some_iff.mp h
        obtain ⟨hinsert, hlt⟩ := ih hj
        rw [if_neg fun heq => hne (beq_iff_eq.mpr heq), List.insertIdx_succ_cons, hinsert]
        exact ⟨rfl, Nat.succ_lt_succ hlt⟩
  rw [insertAt, if_pos (Nat.succ_le_of_lt hinsert.2), hinsert.1]

/-- A node is put in behind another without fault, if the other is in a list. -/
theorem insertAfter_eq (ht : t.Linked) (hanchor : anchor < t.size) (hnew : new < t.size)
    (hr : ∀ t', t.insertAfter anchor new = some t' → t'.Linked) :
    (insertAfter anchor new t : Checked ε _) = pure (t.insertAfter anchor new) := by
  rw [insertAfter, Tree.insertAfter, nodeAt_eq hanchor, pure_bind]
  rw [Tree.insertAfter] at hr
  cases hparent : t.parent anchor with
  | none =>
    rw [show (t.node anchor).parent = none from hparent]
    rfl
  | some above =>
    have habove := ht.parent_lt_size hparent
    rw [hparent] at hr
    rw [show (t.node anchor).parent = some above from hparent]
    dsimp only [Option.bind_eq_bind, Option.bind_some] at hr ⊢
    rw [kindAt_eq habove, pure_bind]
    cases hitems : (t.kind above).items? with
    | none => rfl
    | some items =>
      rw [hitems] at hr
      dsimp only [Option.bind_some] at hr ⊢
      cases hfind : items.findIdx? (· == anchor) with
      | none =>
        have hout : items.contains anchor = false := by
          rw [List.findIdx?_eq_none_iff] at hfind
          simpa using fun hmem => absurd (hfind _ hmem) (by simp)
        rw [hout]
        rfl
      | some i =>
        have hin : items.contains anchor = true := by
          obtain ⟨hlt, heq, -⟩ := List.findIdx?_eq_some_iff_getElem.mp hfind
          rw [List.contains_iff_mem, ← beq_iff_eq.mp heq]
          exact List.getElem_mem hlt
        rw [hin] at hr ⊢
        have hlinked := Tree.Linked.of_markDirty (hr _ rfl)
        dsimp only
        rw [insertAt_eq new hfind, pure_bind, mapKind_eq habove, pure_bind,
          setParent_eq (by simpa using hnew), pure_bind,
          markDirty_eq hlinked (by simpa using habove),
          pure_bind]
        rfl

/-- A node is put in at the end of a list without fault. -/
theorem append_eq (hholder : holder < t.size) (hnew : new < t.size)
    (hr : ∀ t', t.append holder new = some t' → t'.Linked) :
    (append holder new t : Checked ε _) = pure (t.append holder new) := by
  rw [append, Tree.append, kindAt_eq hholder, pure_bind]
  rw [Tree.append] at hr
  cases hitems : (t.kind holder).items? with
  | none => rfl
  | some items =>
    rw [hitems] at hr
    have hlinked := Tree.Linked.of_markDirty (hr _ rfl)
    dsimp only
    rw [mapKind_eq hholder, pure_bind, setParent_eq (by simpa using hnew), pure_bind,
      markDirty_eq hlinked (by simpa using hholder), pure_bind]
    rfl

end Edits

/-! ## Attributes and literals -/

section Lookups

variable {t : Tree} {id : NodeId}

/-- The name of an attribute is read off the node. -/
theorem attributeName_eq (h : id < t.size) :
    (attributeName t id : Checked ε _) = pure (t.attributeName id) := by
  rw [attributeName, Tree.attributeName, kindAt_eq h, pure_bind]
  cases t.kind id <;> rfl

/-- The value of an attribute is read off the node. -/
theorem attributeValue_eq (h : id < t.size) :
    (attributeValue t id : Checked ε _) = pure (t.attributeValue id) := by
  rw [attributeValue, Tree.attributeValue, kindAt_eq h, pure_bind]
  cases t.kind id <;> rfl

/-- The attributes of an opening tag are read off the node. -/
theorem attributes_eq (h : id < t.size) :
    (attributes t id : Checked ε _) = pure (t.attributes id) := by
  rw [attributes, Tree.attributes, kindAt_eq h, pure_bind]
  cases t.kind id <;> rfl

/-- An attribute of a name is looked for among nodes of the store. -/
theorem attributeIndex_eq (name : Text) {ids : List NodeId} (h : ∀ id ∈ ids, id < t.size) :
    (attributeIndex t name ids : Checked ε _) = pure (t.attributeIndex ids name) := by
  induction ids with
  | nil => rfl
  | cons id rest ih =>
    obtain ⟨hid, hrest⟩ := List.forall_mem_cons.mp h
    rw [attributeIndex, attributeName_eq hid, pure_bind, Tree.attributeIndex, List.findIdx?_cons]
    split
    · rfl
    · rw [ih hrest]
      rfl

/-- The index at which an attribute is found is one of the list. -/
theorem attributeNamed_eq (name : Text) {ids : List NodeId} (h : ∀ id ∈ ids, id < t.size) :
    (attributeNamed t ids name : Checked ε _) = pure (t.attributeNamed ids name) := by
  rw [attributeNamed, attributeIndex_eq name h, pure_bind, Tree.attributeNamed, Tree.attributeIndex]
  cases hfind : ids.findIdx? fun id => t.attributeName id == some name with
  | none =>
    rw [List.find?_eq_none.mpr fun id hid h => ?_]
    rw [List.findIdx?_eq_none_iff] at hfind
    exact absurd (hfind id hid) (by rw [h]; simp)
  | some i =>
    obtain ⟨hlt, hname, hbefore⟩ := List.findIdx?_eq_some_iff_getElem.mp hfind
    have hfound : (ids.find? fun id => t.attributeName id == some name) = some ids[i] :=
      List.find?_eq_some_iff_getElem.mpr
        ⟨hname, i, hlt, rfl, fun j hj => by simpa using hbefore j hj⟩
    dsimp only
    rw [hfound, List.getElem?_eq_getElem hlt]

/-- The text of a literal is read off the nodes of the literal. -/
theorem literalText_eq (ht : t.Linked) (h : id < t.size) :
    (literalText t id : Checked ε _) = pure (t.literalText id) := by
  rw [literalText, Tree.literalText, kindAt_eq h, pure_bind]
  cases hkind : t.kind id with
  | fragment parts =>
    rcases parts with _ | ⟨only, _ | ⟨_, _⟩⟩
    · rfl
    · have honly : only ∈ t.children id := by
        rw [Tree.children, hkind]
        exact List.mem_singleton_self only
      dsimp only
      rw [kindAt_eq (ht.lt_size_of_mem honly), pure_bind]
      cases t.kind only <;> rfl
    · rfl
  | _ => rfl

/-- The chunks and the literals of a template are put together without fault. -/
theorem foldChunks_eq (ht : t.Linked) (chunks : List Text) {holes : List NodeId}
    (h : ∀ hole ∈ holes, hole < t.size) :
    (foldChunks t chunks holes : Checked ε _) = pure (t.foldChunks chunks holes) := by
  induction chunks generalizing holes with
  | nil => rfl
  | cons chunk chunks ih =>
    cases holes with
    | nil =>
      rw [foldChunks, ih h, pure_bind, Tree.foldChunks]
    | cons hole holes =>
      obtain ⟨hhole, hholes⟩ := List.forall_mem_cons.mp h
      rw [foldChunks, literalText_eq ht hhole, pure_bind, Tree.foldChunks]
      cases t.literalText hole with
      | none => rfl
      | some value =>
        dsimp only
        rw [ih hholes, pure_bind]
        cases t.foldChunks chunks holes <;> rfl

/-- The classes of an attribute are read without fault. -/
theorem staticClasses_eq (ht : t.Linked) (h : id < t.size) (builder : Option Text) :
    (staticClasses t id builder : Checked ε _) = pure (t.staticClasses id builder) := by
  rw [staticClasses, Tree.staticClasses, kindAt_eq h, pure_bind]
  cases hkind : t.kind id with
  | template tag chunks holes =>
    have hchild {c : NodeId} (hc : c ∈ tag :: holes) : c < t.size := by
      refine ht.lt_size_of_mem (show c ∈ t.children id from ?_)
      rw [Tree.children, hkind]
      exact hc
    dsimp only
    rw [kindAt_eq (hchild List.mem_cons_self), pure_bind]
    cases t.kind tag with
    | ident name =>
      dsimp only
      split
      · exact foldChunks_eq ht chunks fun hole hhole => hchild (List.mem_cons_of_mem tag hhole)
      · rfl
    | _ => rfl
  | _ => rfl

end Lookups

end Checked

end JsxStyle
