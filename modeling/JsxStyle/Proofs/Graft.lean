import JsxStyle.Proofs.Edits
import Mathlib.Data.List.Forall2

/-!
# Grafting a tree into a store

Grafting adds the nodes of an `Ast` to a store, children before parents.  The
nodes that were there before stay as they are, the new ones form a tree of their
own that nothing holds yet, and that tree shows the `Ast` it was made from.

`Depicts t id a` says that the nodes of `t` from `id` down show `a`.  Since
identifiers stand in a kind where trees stood, two kinds of one shape are
compared through a kind of pairs.

* `graft_spec`: what grafting one tree leaves behind;
* `mapM_graft_spec`: the same for several trees, one after the other.
-/

namespace JsxStyle

/-- A run over a list answers once for each entry. -/
theorem length_mapM_run {α β σ : Type} (f : α → StateM σ β) (l : List α) (s : σ) :
    ((l.mapM f).run s).1.length = l.length := by
  induction l generalizing s with
  | nil => rfl
  | cons a rest ih =>
    simp only [List.mapM_cons, StateT.run_bind, StateT.run_pure, List.length_cons]
    exact congrArg (· + 1) (ih _)

namespace Kind

variable {α β σ : Type}

/-- Paired with the answers of a run over it, a list is still there. -/
theorem map_fst_zip_run (f : α → StateM σ β) (l : List α) (s : σ) :
    (l.zip ((l.mapM f).run s).1).map Prod.fst = l :=
  List.map_fst_zip (Nat.le_of_eq (length_mapM_run f l s).symm)

/-- Paired with the list it runs over, the answers of a run are still there. -/
theorem map_snd_zip_run (f : α → StateM σ β) (l : List α) (s : σ) :
    (l.zip ((l.mapM f).run s).1).map Prod.snd = ((l.mapM f).run s).1 :=
  List.map_snd_zip (Nat.le_of_eq (length_mapM_run f l s))

/-- What a run below a kind answers: the kind of the answers, paired with the
kind itself, and the state that the run over the children ends in. -/
def RunsTo (f : α → StateM σ β) (k : Kind α) (s : σ) : Prop :=
  ∃ z : Kind (α × β), z.map Prod.fst = k ∧
    ((k.map f).traverse id).run s = (z.map Prod.snd, ((k.children.mapM f).run s).2) ∧
    ((k.children.mapM f).run s).1 = z.children.map Prod.snd

/-- A kind that is made from the list of its children. -/
theorem runsTo_list (f : α → StateM σ β) (l : List α) (s : σ)
    (make : {γ : Type} → List γ → Kind γ) (hc : ∀ {γ : Type} (xs : List γ), (make xs).children = xs)
    (hm : ∀ {γ δ : Type} (g : γ → δ) (xs : List γ), (make xs).map g = make (xs.map g))
    (ht : ∀ xs : List (StateM σ β), (make xs).traverse id = make <$> xs.mapM id) :
    RunsTo f (make l) s := by
  refine ⟨make (l.zip ((l.mapM f).run s).1), ?_, ?_, ?_⟩
  · rw [hm, map_fst_zip_run]
  · rw [hm, hm, map_snd_zip_run, hc, ht, List.mapM_map]
    rfl
  · rw [hc, hc, map_snd_zip_run]

/-- A kind that is made from a first child and the list of the others. -/
theorem runsTo_cons (f : α → StateM σ β) (a : α) (l : List α) (s : σ)
    (make : {γ : Type} → γ → List γ → Kind γ)
    (hc : ∀ {γ : Type} (x : γ) (xs : List γ), (make x xs).children = x :: xs)
    (hm : ∀ {γ δ : Type} (g : γ → δ) (x : γ) (xs : List γ),
      (make x xs).map g = make (g x) (xs.map g))
    (ht : ∀ (x : StateM σ β) (xs : List (StateM σ β)),
      (make x xs).traverse id = do return make (← x) (← xs.mapM id)) :
    RunsTo f (make a l) s := by
  refine ⟨make (a, ((f a).run s).1) (l.zip ((l.mapM f).run ((f a).run s).2).1), ?_, ?_, ?_⟩
  · rw [hm, map_fst_zip_run]
  · rw [hm, hm, map_snd_zip_run, hc, ht, List.mapM_map, List.mapM_cons]
    rfl
  · rw [hc, hc, List.map_cons, map_snd_zip_run, List.mapM_cons]
    rfl

/-- Running below a kind is running over its children in order. -/
theorem runsTo (f : α → StateM σ β) (k : Kind α) (s : σ) : RunsTo f k s := by
  cases k with
  | program body =>
    exact runsTo_list f body s program (fun _ => rfl) (fun _ _ => rfl) fun _ => by simp [traverse]
  | code t => exact ⟨code t, rfl, rfl, rfl⟩
  | importing decl => exact ⟨importing decl, rfl, rfl, rfl⟩
  | element head children closing =>
    exact runsTo_cons f head children s (element · · closing) (fun _ _ => rfl) (fun _ _ _ => rfl)
      fun _ _ => rfl
  | opening name attributes selfClosing =>
    exact runsTo_list f attributes s (opening name · selfClosing) (fun _ => rfl) (fun _ _ => rfl)
      fun _ => by simp [traverse]
  | text t => exact ⟨text t, rfl, rfl, rfl⟩
  | attr name value =>
    cases value with
    | none => exact ⟨attr name none, rfl, rfl, rfl⟩
    | some v => exact ⟨attr name (some (v, ((f v).run s).1)), rfl, rfl, rfl⟩
  | spread argument => exact ⟨spread (argument, ((f argument).run s).1), rfl, rfl, rfl⟩
  | container expression =>
    cases expression with
    | none => exact ⟨container none, rfl, rfl, rfl⟩
    | some v => exact ⟨container (some (v, ((f v).run s).1)), rfl, rfl, rfl⟩
  | str value quote => exact ⟨str value quote, rfl, rfl, rfl⟩
  | ident name => exact ⟨ident name, rfl, rfl, rfl⟩
  | array elements =>
    exact runsTo_list f elements s array (fun _ => rfl) (fun _ _ => rfl) fun _ => by simp [traverse]
  | member object property =>
    exact ⟨member (object, ((f object).run s).1) property, rfl, rfl, rfl⟩
  | call callee arguments =>
    exact runsTo_cons f callee arguments s call (fun _ _ => rfl) (fun _ _ _ => rfl) fun _ _ => rfl
  | template tag chunks holes =>
    exact runsTo_cons f tag holes s (template · chunks ·) (fun _ _ => rfl) (fun _ _ _ => rfl)
      fun _ _ => rfl
  | fragment parts =>
    exact runsTo_list f parts s fragment (fun _ => rfl) (fun _ _ => rfl) fun _ => by simp [traverse]

/-- A child is smaller than the node it is in. -/
theorem sizeOf_lt_of_mem_children {k : Kind Ast} {c : Ast} (h : c ∈ k.children) :
    sizeOf c < sizeOf k := by
  cases k with
  | attr name value =>
    obtain rfl : value = some c := by simpa [Kind.children] using h
    simp
    omega
  | container expression =>
    obtain rfl : expression = some c := by simpa [Kind.children] using h
    simp
    omega
  | spread argument =>
    obtain rfl : c = argument := by simpa [Kind.children] using h
    simp
  | member object property =>
    obtain rfl : c = object := by simpa [Kind.children] using h
    simp
    omega
  | element head children closing =>
    rcases List.mem_cons.mp h with rfl | h
    · simp
      omega
    · have := List.sizeOf_lt_of_mem h
      simp
      omega
  | call callee arguments =>
    rcases List.mem_cons.mp h with rfl | h
    · simp
      omega
    · have := List.sizeOf_lt_of_mem h
      simp
      omega
  | template tag chunks holes =>
    rcases List.mem_cons.mp h with rfl | h
    · simp
      omega
    · have := List.sizeOf_lt_of_mem h
      simp
      omega
  | program body =>
    have := List.sizeOf_lt_of_mem h
    simp [Kind.children] at *
    omega
  | opening name attributes selfClosing =>
    have := List.sizeOf_lt_of_mem h
    simp [Kind.children] at *
    omega
  | array elements =>
    have := List.sizeOf_lt_of_mem h
    simp [Kind.children] at *
    omega
  | fragment parts =>
    have := List.sizeOf_lt_of_mem h
    simp [Kind.children] at *
    omega
  | _ => simp [Kind.children] at h

end Kind

namespace Ast

/-- Induction over a tree, whatever the kinds of its nodes. -/
theorem induction {P : Ast → Prop}
    (h : ∀ (s : Option Span) (k : Kind Ast), (∀ c ∈ k.children, P c) → P (node s k)) (a : Ast) :
    P a :=
  match a with
  | node s k => h s k fun c _hc => induction h c
termination_by sizeOf a
decreasing_by
  have := Kind.sizeOf_lt_of_mem_children _hc
  simp
  omega

/-- `b` is `a` or a tree somewhere inside it. -/
def Sub (b a : Ast) : Prop :=
  Relation.ReflTransGen (fun c p : Ast => c ∈ p.kind.children) b a

/-- What is inside a child is inside the node. -/
theorem Sub.of_mem {b c : Ast} {s : Option Span} {k : Kind Ast} (h : b.Sub c)
    (hc : c ∈ k.children) : b.Sub (node s k) :=
  h.tail hc

/-- A property of every node of a tree. -/
def Every (P : Ast → Prop) (a : Ast) : Prop :=
  ∀ b, b.Sub a → P b

/-- A property holds throughout a tree when the node has it and its children throughout. -/
theorem every_node {P : Ast → Prop} {s : Option Span} {k : Kind Ast} :
    Every P (node s k) ↔ P (node s k) ∧ ∀ c ∈ k.children, Every P c := by
  constructor
  · intro h
    exact ⟨h _ .refl, fun c hc b hb => h b (hb.of_mem hc)⟩
  · intro h b hb
    obtain ⟨hself, hbelow⟩ := h
    rcases Relation.ReflTransGen.cases_tail hb with rfl | ⟨c, hbc, hc⟩
    · exact hself
    · exact hbelow c hc b hbc

end Ast

namespace Tree

/-- The nodes of `t` from `id` down show the tree `a`, places included. -/
inductive Depicts (t : Tree) : NodeId → Ast → Prop
  | node {id : NodeId} (z : Kind (Ast × NodeId)) (hlt : id < t.size)
      (hkind : t.kind id = z.map Prod.snd) (hbelow : ∀ p ∈ z.children, Depicts t p.2 p.1) :
      Depicts t id (.node (t.span id) (z.map Prod.fst))

/-- What a tree shows does not change when only nodes behind it are added. -/
theorem Depicts.mono {t t' : Tree} {id : NodeId} {a : Ast} (h : t.Depicts id a)
    (hsize : t.size ≤ t'.size) (hkind : ∀ n < t.size, t'.kind n = t.kind n)
    (hspan : ∀ n < t.size, t'.span n = t.span n) : t'.Depicts id a := by
  induction h with
  | node z hlt hk _ ih =>
    rw [← hspan _ hlt]
    exact .node z (Nat.lt_of_lt_of_le hlt hsize) ((hkind _ hlt).trans hk) ih

/-- What adding detached trees to `t` leaves behind: `t'` is linked and has all
of `t` as it was, the nodes `ids` stand at the top of the trees added, and every
node added shows a part of one of `as`. -/
structure Grafted (t t' : Tree) (ids : List NodeId) (as : List Ast) : Prop where
  linked : t'.Linked
  source : t'.source = t.source
  size_le : t.size ≤ t'.size
  old : ∀ n < t.size, t'.node n = t.node n
  nodup : ids.Nodup
  fresh : ∀ id ∈ ids, t.size ≤ id ∧ id < t'.size
  free : ∀ id ∈ ids, t'.parent id = none
  depicts : List.Forall₂ t'.Depicts ids as
  added : ∀ n, t.size ≤ n → n < t'.size →
    ∃ a ∈ as, ∃ b : Ast, b.Sub a ∧ t'.Depicts n b ∧ t'.dirty n = b.span.isNone

namespace Grafted

variable {t t' u : Tree} {ids : List NodeId} {as : List Ast}

theorem nil (ht : t.Linked) : Grafted t t [] [] where
  linked := ht
  source := rfl
  size_le := Nat.le_refl _
  old _ _ := rfl
  nodup := List.nodup_nil
  fresh := by simp
  free := by simp
  depicts := .nil
  added n h h' := absurd h' (Nat.not_lt.mpr h)

/-- One tree and then others. -/
theorem cons {id : NodeId} {a : Ast} (h : Grafted t u [id] [a]) (h' : Grafted u t' ids as) :
    Grafted t t' (id :: ids) (a :: as) := by
  have hkind (n : NodeId) (hn : n < u.size) : t'.kind n = u.kind n :=
    congrArg Node.kind (h'.old n hn)
  have hspan (n : NodeId) (hn : n < u.size) : t'.span n = u.span n :=
    congrArg Node.span (h'.old n hn)
  obtain ⟨hid, hidlt⟩ := h.fresh id (by simp)
  refine ⟨h'.linked, h'.source.trans h.source,
    Nat.le_trans h.size_le h'.size_le, ?_, ?_, ?_, ?_, ?_, ?_⟩
  · intro n hn
    rw [h'.old n (Nat.lt_of_lt_of_le hn h.size_le), h.old n hn]
  · refine List.nodup_cons.mpr ⟨fun hmem => ?_, h'.nodup⟩
    exact absurd hidlt (Nat.not_lt.mpr (h'.fresh id hmem).1)
  · intro n hn
    rcases List.mem_cons.mp hn with rfl | hn
    · exact ⟨hid, Nat.lt_of_lt_of_le hidlt h'.size_le⟩
    · exact ⟨Nat.le_trans h.size_le (h'.fresh n hn).1, (h'.fresh n hn).2⟩
  · intro n hn
    rcases List.mem_cons.mp hn with rfl | hn
    · exact (congrArg Node.parent (h'.old n hidlt)).trans (h.free n (by simp))
    · exact h'.free n hn
  · refine .cons ?_ h'.depicts
    obtain ⟨hd, -⟩ := List.forall₂_cons.mp h.depicts
    exact hd.mono h'.size_le hkind hspan
  · intro n hn hlt
    by_cases hnu : n < u.size
    · obtain ⟨b, hb, c, hc, hd, hdirty⟩ := h.added n hn hnu
      obtain rfl : b = a := by simpa using hb
      refine ⟨b, by simp, c, hc, hd.mono h'.size_le hkind hspan, ?_⟩
      exact (congrArg Node.dirty (h'.old n hnu)).trans hdirty
    · obtain ⟨b, hb, rest⟩ := h'.added n (Nat.le_of_not_lt hnu) hlt
      exact ⟨b, List.mem_cons_of_mem _ hb, rest⟩

/-- Trees and then a node above them all. -/
theorem node (ht : t.Linked) {z : Kind (Ast × NodeId)}
    (h : Grafted t u (z.children.map Prod.snd) (z.children.map Prod.fst)) (s : Option Span) :
    Grafted t (alloc (z.map Prod.snd) s u).2 [u.size] [.node s (z.map Prod.fst)] := by
  have hchildren : (z.map Prod.snd).children = z.children.map Prod.snd := Kind.children_map ..
  have hfree : ∀ c ∈ (z.map Prod.snd).children, u.parent c = none ∧ c < u.size ∧ c ≠ root := by
    intro c hc
    rw [hchildren] at hc
    have hfresh := h.fresh c hc
    exact ⟨h.free c hc, hfresh.2, Nat.ne_of_gt (Nat.lt_of_lt_of_le ht.nonempty hfresh.1)⟩
  have hkind (n : NodeId) (hn : n < u.size) : (alloc (z.map Prod.snd) s u).2.kind n = u.kind n := by
    rw [kind_alloc, if_neg (Nat.ne_of_lt hn)]
  have hspan (n : NodeId) (hn : n < u.size) : (alloc (z.map Prod.snd) s u).2.span n = u.span n := by
    rw [span_alloc, if_neg (Nat.ne_of_lt hn)]
  have hsize : u.size ≤ (alloc (z.map Prod.snd) s u).2.size := by
    rw [size_alloc]
    exact Nat.le_succ _
  have hself : (alloc (z.map Prod.snd) s u).2.Depicts u.size (.node s (z.map Prod.fst)) := by
    have hs : (alloc (z.map Prod.snd) s u).2.span u.size = s := by rw [span_alloc, if_pos rfl]
    have hpairs := h.depicts
    rw [List.forall₂_map_left_iff, List.forall₂_map_right_iff, List.forall₂_same] at hpairs
    have hd : (alloc (z.map Prod.snd) s u).2.Depicts u.size
        (.node ((alloc (z.map Prod.snd) s u).2.span u.size) (z.map Prod.fst)) :=
      .node z (by rw [size_alloc]; exact Nat.lt_succ_self _) (by rw [kind_alloc, if_pos rfl])
        fun p hp => (hpairs p hp).mono hsize hkind hspan
    rwa [hs] at hd
  refine ⟨linked_alloc h.linked s hfree (hchildren ▸ h.nodup), ?_, ?_, ?_, by simp, ?_, ?_, ?_, ?_⟩
  · rw [source_alloc, h.source]
  · exact Nat.le_trans h.size_le hsize
  · intro n hn
    have hnu : n < u.size := Nat.lt_of_lt_of_le hn h.size_le
    have hnc : n ∉ (z.map Prod.snd).children := by
      intro hc
      rw [hchildren] at hc
      exact absurd (h.fresh n hc).1 (Nat.not_le.mpr hn)
    rw [node_alloc, if_neg (Nat.ne_of_lt hnu), if_neg fun hc => hnc hc.1, h.old n hn]
  · intro id hid
    obtain rfl : id = u.size := by simpa using hid
    exact ⟨h.size_le, by rw [size_alloc]; exact Nat.lt_succ_self _⟩
  · intro id hid
    obtain rfl : id = u.size := by simpa using hid
    rw [parent_alloc, if_neg fun hc => absurd hc.2 (Nat.lt_irrefl _),
      parent_of_size_le (Nat.le_refl _)]
  · exact .cons hself .nil
  · intro n hn hlt
    rw [size_alloc] at hlt
    by_cases hnu : n < u.size
    · obtain ⟨a, ha, b, hb, hd, hdirty⟩ := h.added n hn hnu
      refine ⟨.node s (z.map Prod.fst), by simp, b, hb.of_mem ?_, hd.mono hsize hkind hspan, ?_⟩
      · rwa [Kind.children_map]
      · rw [dirty_alloc, if_neg (Nat.ne_of_lt hnu), hdirty]
    · obtain rfl : n = u.size := by omega
      refine ⟨.node s (z.map Prod.fst), by simp, _, .refl, hself, ?_⟩
      rw [dirty_alloc, if_pos rfl]
      rfl

end Grafted

/-- A node is grafted by grafting its children and allocating it over them. -/
theorem graft_node_run (s : Option Span) (k : Kind Ast) (t : Tree) :
    (graft (.node s k)).run t =
      let below := ((k.map graft).traverse id).run t
      alloc below.1 s below.2 := by
  unfold graft
  rw [Ast.fold_node]
  rfl

/-- Grafting trees one after the other, if grafting each of them does what it should. -/
theorem mapM_graft_of_each {as : List Ast}
    (h : ∀ a ∈ as, ∀ t : Tree, t.Linked → ∃ id, ((graft a).run t).1 = id ∧
      Grafted t ((graft a).run t).2 [id] [a]) (t : Tree) (ht : t.Linked) :
    Grafted t ((as.mapM graft).run t).2 ((as.mapM graft).run t).1 as := by
  induction as generalizing t with
  | nil => exact .nil ht
  | cons a rest ih =>
    obtain ⟨id, hid, hfirst⟩ := h a (by simp) t ht
    have hrest := ih (fun b hb => h b (List.mem_cons_of_mem _ hb)) _ hfirst.linked
    have hrun : ((a :: rest).mapM graft).run t =
        (id :: ((rest.mapM graft).run ((graft a).run t).2).1,
          ((rest.mapM graft).run ((graft a).run t).2).2) := by
      rw [List.mapM_cons, ← hid]
      rfl
    rw [hrun]
    exact hfirst.cons hrest

/-- Grafting a tree adds it, detached, and leaves everything else as it was. -/
theorem graft_spec (a : Ast) (t : Tree) (ht : t.Linked) :
    Grafted t ((graft a).run t).2 [((graft a).run t).1] [a] := by
  induction a using Ast.induction generalizing t with
  | h s k ih =>
    obtain ⟨z, rfl, hrun, hids⟩ := Kind.runsTo graft k t
    have hbelow := mapM_graft_of_each (fun a ha t ht => ⟨_, rfl, ih a ha t ht⟩) t ht
    rw [hids, Kind.children_map] at hbelow
    rw [graft_node_run, hrun, Kind.children_map]
    exact hbelow.node ht s

/-- Grafting trees one after the other adds all of them. -/
theorem mapM_graft_spec (as : List Ast) (t : Tree) (ht : t.Linked) :
    Grafted t ((as.mapM graft).run t).2 ((as.mapM graft).run t).1 as :=
  mapM_graft_of_each (fun a _ t ht => ⟨_, rfl, graft_spec a t ht⟩) t ht

theorem linked_new (source : Text) : (new source).Linked := by
  have hsize : (new source).size = 1 := rfl
  have hkind (n : NodeId) : (new source).children n = [] := by
    by_cases hn : n = 0
    · subst hn
      rfl
    · rw [children, kind_of_size_le (hsize ▸ Nat.pos_of_ne_zero hn)]
      rfl
  have hparent (n : NodeId) : (new source).parent n = none := by
    by_cases hn : n = 0
    · subst hn
      rfl
    · exact parent_of_size_le (hsize ▸ Nat.pos_of_ne_zero hn)
  refine ⟨by rw [hsize]; exact Nat.one_pos, hparent root, ?_, ?_, ?_⟩
  · intro p c
    rw [hkind, hparent]
    simp
  · intro p
    rw [hkind]
    exact List.nodup_nil
  · intro n
    refine Acc.intro n fun p hp => ?_
    have hup : (new source).parent n = some p := hp
    rw [hparent] at hup
    exact absurd hup (by simp)

section Body

variable {t : Tree} (body : List NodeId)

theorem size_setBody : (t.setBody body).size = t.size := by
  rw [setBody, size_mapKind, size_foldl_setParent]

/-- Giving the program a body changes the kind of the root alone. -/
theorem kind_setBody (hpos : 0 < t.size) (n : NodeId) :
    (t.setBody body).kind n = if n = root then .program body else t.kind n := by
  rw [setBody, kind_mapKind, size_foldl_setParent]
  have hkind : (body.foldl (setParent · (some root)) t).kind n = t.kind n := by
    simp only [kind, node_foldl_setParent]
    split <;> rfl
  by_cases hn : n = root
  · subst hn
    rw [if_pos ⟨rfl, hpos⟩, if_pos rfl]
  · rw [if_neg fun h => hn h.1, if_neg hn, hkind]

/-- Giving the program a body hangs the nodes of it under the root. -/
theorem parent_setBody (hlt : ∀ c ∈ body, c < t.size) (n : NodeId) :
    (t.setBody body).parent n = if n ∈ body then some root else t.parent n := by
  rw [setBody, parent_mapKind]
  simp only [parent, node_foldl_setParent]
  by_cases hn : n ∈ body
  · rw [if_pos ⟨hn, hlt n hn⟩, if_pos hn]
  · rw [if_neg fun h => hn h.1, if_neg hn]

theorem span_setBody (n : NodeId) : (t.setBody body).span n = t.span n := by
  rw [setBody, span_mapKind]
  simp only [span, node_foldl_setParent]
  split <;> rfl

theorem dirty_setBody (n : NodeId) : (t.setBody body).dirty n = t.dirty n := by
  rw [setBody, dirty_mapKind]
  simp only [dirty, node_foldl_setParent]
  split <;> rfl

/-- Detached nodes become the contents of an empty program. -/
theorem linked_setBody (ht : t.Linked) (hempty : t.children root = [])
    (hfree : ∀ c ∈ body, t.parent c = none ∧ c < t.size ∧ c ≠ root) (hnodup : body.Nodup) :
    (t.setBody body).Linked := by
  have hparent := parent_setBody body fun c hc => (hfree c hc).2.1
  have hchildren (n : NodeId) : (t.setBody body).children n =
      if n = root then body else t.children n := by
    rw [children, kind_setBody body ht.nonempty]
    split <;> rfl
  have hrootparent : (t.setBody body).parent root = none := by
    rw [hparent, if_neg fun h => (hfree _ h).2.2 rfl]
    exact ht.root_free
  refine ⟨by rw [size_setBody]; exact ht.nonempty, hrootparent, ?_, ?_, ?_⟩
  · intro p c
    rw [hparent, hchildren]
    by_cases hp : p = root
    · subst hp
      by_cases hc : c ∈ body
      · simp [hc]
      · have hout : t.parent c ≠ some root := by
          intro h
          rw [← ht.mem_children, hempty] at h
          exact absurd h (by simp)
        simp [hc, hout]
    · rw [if_neg hp, ht.mem_children]
      by_cases hc : c ∈ body
      · simp [hc, (hfree c hc).1, Ne.symm hp]
      · simp [hc]
  · intro p
    rw [hchildren]
    split
    · exact hnodup
    · exact ht.nodup p
  · refine acc_of_moved ht.grounded (· ∈ body) (fun n hn p hp => ?_) fun n hn => ?_
    · rwa [hparent, if_neg hn] at hp
    · refine Acc.intro _ fun p hp => ?_
      have hp' : (t.setBody body).parent n = some p := hp
      rw [hparent, if_pos hn] at hp'
      obtain rfl := Option.some.inj hp'
      refine Acc.intro _ fun q hq => ?_
      exact absurd (hrootparent.symm.trans hq) (by simp)

end Body

/-- What the store of a module looks like: it is linked, the program holds the
trees of the body in order, and every other node shows a part of one of them. -/
structure Holds (t : Tree) (source : Text) (body : List Ast) : Prop where
  linked : t.Linked
  source_eq : t.source = source
  program : ∃ ids, t.kind root = .program ids ∧ List.Forall₂ t.Depicts ids body
  root_span : t.span root = some ⟨0, source.length⟩
  root_clean : t.dirty root = false
  others : ∀ n, n ≠ root → n < t.size →
    ∃ a ∈ body, ∃ b : Ast, b.Sub a ∧ t.Depicts n b ∧ t.dirty n = b.span.isNone

/-- The store that is made of a body holds it. -/
theorem ofBody_holds (source : Text) (body : List Ast) :
    (ofBody source body).Holds source body := by
  have hg := mapM_graft_spec body (new source) (linked_new source)
  have hdef : ofBody source body = ((body.mapM graft).run (new source)).2.setBody
      ((body.mapM graft).run (new source)).1 := rfl
  rw [hdef]
  generalize ((body.mapM graft).run (new source)).2 = u at hg
  generalize ((body.mapM graft).run (new source)).1 = ids at hg
  have hsize : (new source).size = 1 := rfl
  have hnode : u.node root = (new source).node root := hg.old root (by rw [hsize]; decide)
  have hfree : ∀ c ∈ ids, u.parent c = none ∧ c < u.size ∧ c ≠ root := by
    intro c hc
    have hfresh := hg.fresh c hc
    rw [hsize] at hfresh
    exact ⟨hg.free c hc, hfresh.2, Nat.ne_of_gt hfresh.1⟩
  have hempty : u.children root = [] := by
    rw [children, kind, hnode]
    rfl
  have hpos : 0 < u.size := hg.linked.nonempty
  have hlinked := linked_setBody ids hg.linked hempty hfree hg.nodup
  -- No tree holds the program, so each still shows what it showed.
  have hdep : ∀ {n : NodeId} {a : Ast}, u.Depicts n a → n ≠ root →
      (u.setBody ids).Depicts n a := by
    intro n a hd
    induction hd with
    | @node id z hlt hkind hbelow ih =>
      intro hne
      have hkind' : (u.setBody ids).kind id = z.map Prod.snd := by
        rw [kind_setBody ids hpos, if_neg hne, hkind]
      rw [← span_setBody ids id]
      refine .node z (by rw [size_setBody]; exact hlt) hkind' fun p hp => ih p hp fun hroot => ?_
      have hup : u.parent p.2 = some id := by
        rw [← hg.linked.mem_children, children, hkind, Kind.children_map]
        exact List.mem_map_of_mem hp
      rw [hroot, hg.linked.root_free] at hup
      exact absurd hup (by simp)
  refine ⟨hlinked, ?_, ⟨ids, ?_, ?_⟩, ?_, ?_, ?_⟩
  · rw [setBody, source_mapKind, source_foldl_setParent, hg.source]
    rfl
  · rw [kind_setBody ids hpos, if_pos rfl]
  · have hds := (List.forall₂_and_left ids body).mpr ⟨fun c hc => (hfree c hc).2.2, hg.depicts⟩
    exact hds.imp fun n a h => hdep h.2 h.1
  · rw [span_setBody, span, hnode]
    rfl
  · rw [dirty_setBody, dirty, hnode]
    rfl
  · intro n hne hlt
    rw [size_setBody] at hlt
    obtain ⟨a, ha, b, hb, hd, hdirty⟩ :=
      hg.added n (hsize ▸ Nat.pos_of_ne_zero hne) hlt
    exact ⟨a, ha, b, hb, hdep hd hne, (dirty_setBody ids n).trans hdirty⟩

end Tree

end JsxStyle
