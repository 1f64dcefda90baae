import JsxStyle.Proofs.Shape
import JsxStyle.Tree.Edit

/-!
# Moves

Whatever restyling does to a store is a sequence of a few moves: nodes without a
place in the source are added, a node is taken out of a list, and detached nodes
are put in, in the place of another node, around it, behind it or at the end of
a list.  `Move` says which moves there are and what must hold for them, so that
a property of stores has to be checked once for each move and not for each
handler.

A store is *sound* when it is linked and every node stands where its form may
stand.

* `Move.sound`, `Moves.sound`: moves keep a store sound;
* `Move.keeps`, `Moves.keeps`: moves add nodes at most, and every node keeps what
  does not depend on its children, such as its form and its name.
-/

namespace JsxStyle

namespace Kind

variable {α : Type}

/-- The form of a kind and its name, if it is a tag or an attribute. -/
def outline (k : Kind α) : Form × Option Text :=
  (k.form, match k with
    | opening name _ _ | attr name _ => some name
    | _ => none)

/-- What the edits of children leave of a kind. -/
structure Lasting {β : Type} (f : Kind NodeId → β) : Prop where
  setItems : ∀ items k, f (k.setItems items) = f k
  replaceChild : ∀ old new k, f (k.replaceChild old new) = f k
  dropChild : ∀ child k, f (k.dropChild child) = f k

/-- The outline of a node survives a change of its children. -/
theorem lasting_outline : Lasting outline where
  setItems _ k := by cases k <;> rfl
  replaceChild _ _ k := by
    cases k with
    | element head children closing => simp only [Kind.replaceChild]; split <;> rfl
    | call callee arguments => simp only [Kind.replaceChild]; split <;> rfl
    | template tag chunks holes => simp only [Kind.replaceChild]; split <;> rfl
    | _ => rfl
  dropChild _ k := by cases k <;> rfl

/-- Whether a node is paired survives a change of its children. -/
theorem lasting_paired : Lasting Paired where
  setItems _ k := by cases k <;> rfl
  replaceChild _ _ k := by
    cases k with
    | element head children closing => simp only [Kind.replaceChild]; split <;> rfl
    | call callee arguments => simp only [Kind.replaceChild]; split <;> rfl
    | template tag chunks holes =>
      simp only [Kind.replaceChild]
      split
      · rfl
      · simp [Paired]
    | _ => rfl
  dropChild _ k := by cases k <;> rfl

end Kind

namespace Tree

/-- Every node stands where its form may stand. -/
def Shaped (t : Tree) : Prop :=
  ∀ {p c : NodeId}, c ∈ t.children p → (t.form p).Admits (t.form c)

/-- A store whose links agree and whose nodes stand where they may. -/
structure Sound (t : Tree) : Prop where
  linked : t.Linked
  shaped : t.Shaped

/-- A detached node that can be put somewhere below `above`. -/
structure Free (t : Tree) (new above : NodeId) : Prop where
  lt_size : new < t.size
  parent : t.parent new = none
  ne_root : new ≠ root
  not_within : ¬ t.Within above new

/-- One change to a store. -/
inductive Move : Tree → Tree → Prop
  | graft {t : Tree} (a : Ast) (hshape : a.WellShaped) (hplace : a.Every fun b => b.span = none) :
      Move t ((graft a).run t).2
  | alloc {t : Tree} {kind : Kind NodeId}
      (hfree : ∀ c ∈ kind.children, t.parent c = none ∧ c < t.size ∧ c ≠ root)
      (hnodup : kind.children.Nodup) (hadm : ∀ c ∈ kind.children, kind.form.Admits (t.form c)) :
      Move t (alloc kind none t).2
  | remove {t : Tree} {id above : NodeId} (hid : t.parent id = some above)
      (hitems : (t.kind above).items? = some (t.children above)) : Move t (t.remove id)
  | replace {t : Tree} {old new above : NodeId} (hold : t.parent old = some above)
      (hfree : t.Free new above) (hadm : (t.form above).Admits (t.form new)) :
      Move t (t.replace old new)
  | wrap {t : Tree} {old new above : NodeId} (hold : t.parent old = some above)
      (hfree : t.Free new above) (hloose : (t.form old).Loose) (hnew : (t.form new).Loose) :
      Move t (t.replaceWith old fun t => t.alloc (.array [old, new]) none).2
  | insertAfter {t t' : Tree} {anchor new above : NodeId} (h : t.insertAfter anchor new = some t')
      (habove : t.parent anchor = some above) (hfree : t.Free new above)
      (hadm : (t.form above).Admits (t.form new)) : Move t t'
  | append {t t' : Tree} {holder new : NodeId} (h : t.append holder new = some t')
      (hholder : holder < t.size) (hfree : t.Free new holder)
      (hadm : (t.form holder).Admits (t.form new)) : Move t t'
  | place {t : Tree} {id : NodeId} (s : Option Span) (hdirty : t.dirty id = true) :
      Move t (t.update id ({ · with span := s }))

/-- Several changes, one after the other. -/
def Moves : Tree → Tree → Prop :=
  Relation.ReflTransGen Move

section Shapes

variable {t t' : Tree}

/-- A node whose kind is kept keeps its form. -/
theorem form_eq_of_kind {n : NodeId} (h : t'.kind n = t.kind n) : t'.form n = t.form n :=
  congrArg Kind.form h

theorem Depicts.form_eq {n : NodeId} {a : Ast} (h : t.Depicts n a) : t.form n = a.kind.form := by
  cases h with
  | node z hlt hkind hbelow => rw [form, hkind, Ast.kind, Kind.form_map, Kind.form_map]

/-- A node that shows a well-shaped tree has its children where they may stand. -/
theorem Depicts.admits {n : NodeId} {a : Ast} (h : t.Depicts n a)
    (ha : ∀ c ∈ a.kind.children, a.kind.form.Admits c.kind.form) {c : NodeId}
    (hc : c ∈ t.children n) : (t.form n).Admits (t.form c) := by
  have hform := h.form_eq
  cases h with
  | node z hlt hkind hbelow =>
    rw [children, hkind, Kind.children_map] at hc
    obtain ⟨p, hp, rfl⟩ := List.mem_map.mp hc
    rw [hform, (hbelow p hp).form_eq]
    refine ha p.1 ?_
    rw [Ast.kind, Kind.children_map]
    exact List.mem_map_of_mem hp

/-- A sound store in which well-shaped trees are grafted is shaped. -/
theorem Shaped.grafted (ht : t.Sound) {ids : List NodeId} {as : List Ast}
    (hg : Grafted t t' ids as) (has : ∀ a ∈ as, a.WellShaped) : t'.Shaped := by
  intro p c hc
  by_cases hp : p < t.size
  · have hkind : t'.kind p = t.kind p := congrArg Node.kind (hg.old p hp)
    have hc' : c ∈ t.children p := by
      rw [children, ← hkind]
      exact hc
    have hlt := ht.linked.lt_size_of_mem hc'
    rw [form_eq_of_kind hkind, form_eq_of_kind (congrArg Node.kind (hg.old c hlt))]
    exact ht.shaped hc'
  · obtain ⟨a, ha, b, hb, hd, -⟩ := hg.added p (Nat.le_of_not_lt hp) (lt_size_of_mem_children hc)
    exact hd.admits (has a ha b hb) hc

/-- A node is added above others that may stand below it. -/
theorem Shaped.alloc (ht : t.Sound) {kind : Kind NodeId} (s : Option Span)
    (hlt : ∀ c ∈ kind.children, c < t.size)
    (hadm : ∀ c ∈ kind.children, kind.form.Admits (t.form c)) : (alloc kind s t).2.Shaped := by
  have hold {n : NodeId} (hn : n < t.size) : (Tree.alloc kind s t).2.kind n = t.kind n := by
    rw [kind_alloc, if_neg (Nat.ne_of_lt hn)]
  intro p c hc
  rw [children, kind_alloc] at hc
  by_cases hp : p = t.size
  · subst hp
    rw [if_pos rfl] at hc
    rw [form_eq_of_kind (hold (hlt c hc)), form, kind_alloc, if_pos rfl]
    exact hadm c hc
  · rw [if_neg hp] at hc
    rw [form_eq_of_kind (hold (lt_size_of_mem_children hc)),
      form_eq_of_kind (hold (ht.linked.lt_size_of_mem hc))]
    exact ht.shaped hc

/-- An edit that keeps the form of the node it changes. -/
theorem Shaped.editAt (ht : t.Shaped) {above : NodeId} {k : Kind NodeId}
    {up : NodeId → Option NodeId} (he : EditAt t t' above k up) (hform : k.form = t.form above)
    (hadm : ∀ c ∈ k.children, c ∈ t.children above ∨ (t.form above).Admits (t.form c)) :
    t'.Shaped := by
  have hforms (n : NodeId) : t'.form n = t.form n := by
    rw [form, he.kind]
    split
    case isTrue h => rw [h, hform]
    case isFalse => rfl
  intro p c hc
  rw [hforms, hforms]
  by_cases hp : p = above
  · subst hp
    rw [he.children_self] at hc
    rcases hadm c hc with h | h
    · exact ht h
    · exact h
  · rw [he.children_of_ne hp] at hc
    exact ht hc

end Shapes

section Sounding

variable {t t' : Tree}

/-- Grafting a well-shaped tree keeps the store sound. -/
theorem Sound.graft (ht : t.Sound) {a : Ast} (ha : a.WellShaped) :
    ((Tree.graft a).run t).2.Sound := by
  have hg := graft_spec a t ht.linked
  refine ⟨hg.linked, Shaped.grafted ht hg fun b hb => ?_⟩
  obtain rfl : b = a := by simpa using hb
  exact ha

/-- Removing a node from a parent that lists its items keeps the store sound. -/
theorem Sound.remove (ht : t.Sound) {id above : NodeId} (hid : t.parent id = some above)
    (hitems : (t.kind above).items? = some (t.children above)) : (t.remove id).Sound := by
  refine ⟨linked_remove ht.linked hid hitems, ?_⟩
  refine Shaped.editAt ht.shaped (editAt_remove ht.linked hid) (Kind.form_dropChild ..)
    fun c hc => ?_
  rw [Kind.children_dropChild hitems, List.mem_filter] at hc
  exact Or.inl hc.1

/-- Replacing a node by a free one that its parent admits keeps the store sound. -/
theorem Sound.replace (ht : t.Sound) {old new above : NodeId} (hold : t.parent old = some above)
    (hfree : t.Free new above) (hadm : (t.form above).Admits (t.form new)) :
    (t.replace old new).Sound := by
  refine ⟨linked_replace ht.linked hold hfree.lt_size hfree.parent hfree.ne_root hfree.not_within,
    ?_⟩
  refine Shaped.editAt ht.shaped (editAt_replace ht.linked hold hfree.lt_size)
    (Kind.form_replaceChild ..) fun c hc => ?_
  rw [Kind.children_replaceChild] at hc
  have hmem := ht.linked.mem_children.mpr hold
  rcases (mem_replace_iff (ht.linked.nodup above) hmem).mp hc with rfl | ⟨hc, -⟩
  · exact Or.inr hadm
  · exact Or.inl hc

/-- Replacing an expression by the array of it and another keeps the store sound. -/
theorem Sound.wrap (ht : t.Sound) {old new above : NodeId} (hold : t.parent old = some above)
    (hfree : t.Free new above) (hloose : (t.form old).Loose) (hnew : (t.form new).Loose) :
    (t.replaceWith old fun t => t.alloc (.array [old, new]) none).2.Sound := by
  refine ⟨linked_wrap ht.linked hold hfree.parent hfree.lt_size hfree.ne_root hfree.not_within, ?_⟩
  obtain ⟨-, -, hkind, -, -, -⟩ := editAt_wrap ht.linked hold hfree.lt_size
  have hform {n : NodeId} (hn : n < t.size) :
      (t.replaceWith old fun t => t.alloc (.array [old, new]) none).2.form n = t.form n := by
    rw [form, hkind, if_neg (Nat.ne_of_lt hn)]
    split
    case isTrue h =>
      rw [Kind.form_replaceChild, h]
      rfl
    case isFalse => rfl
  have hself : (t.replaceWith old fun t => t.alloc (.array [old, new]) none).2.form t.size =
      .array := by
    rw [form, hkind, if_pos rfl]
    rfl
  intro p c hc
  rw [children, hkind] at hc
  by_cases hp : p = t.size
  · subst hp
    rw [if_pos rfl] at hc
    simp only [Kind.children, List.mem_cons, List.not_mem_nil, or_false] at hc
    rcases hc with rfl | rfl
    · rw [hform (lt_size_of_parent hold)]
      exact hloose.admits _
    · rw [hform hfree.lt_size]
      exact hnew.admits _
  · rw [if_neg hp] at hc
    by_cases hpa : p = above
    · subst hpa
      rw [if_pos rfl, Kind.children_replaceChild] at hc
      have hmem := ht.linked.mem_children.mpr hold
      rcases (mem_replace_iff (ht.linked.nodup p) hmem).mp hc with rfl | ⟨hc, -⟩
      · rw [hself]
        exact trivial
      · rw [hform (ht.linked.parent_lt_size hold), hform (ht.linked.lt_size_of_mem hc)]
        exact ht.shaped hc
    · rw [if_neg hpa] at hc
      rw [hform (lt_size_of_mem_children hc), hform (ht.linked.lt_size_of_mem hc)]
      exact ht.shaped hc

/-- Setting the list of a node to one that has one more entry keeps forms in place. -/
theorem Shaped.setItems (ht : t.Shaped) {holder new : NodeId} {items items' : List NodeId}
    (hitems : (t.kind holder).items? = some items)
    (hsub : ∀ c ∈ items', c = new ∨ c ∈ items) (hholder : holder < t.size) (hnew : new < t.size)
    (hadm : (t.form holder).Admits (t.form new)) :
    (((t.mapKind holder (·.setItems items')).setParent (some holder) new).markDirty
      holder).Shaped := by
  obtain ⟨lead, hlead, hset⟩ := Kind.exists_lead hitems
  refine Shaped.editAt ht (editAt_setItems hholder hnew items') (Kind.form_setItems ..)
    fun c hc => ?_
  rw [hset] at hc
  rw [children, hlead]
  rcases List.mem_append.mp hc with hc | hc
  · exact Or.inl (List.mem_append_left _ hc)
  · rcases hsub c hc with rfl | hc
    · exact Or.inr hadm
    · exact Or.inl (List.mem_append_right _ hc)

/-- Putting a free node behind its anchor keeps the store sound. -/
theorem Sound.insertAfter (ht : t.Sound) {anchor new above : NodeId}
    (h : t.insertAfter anchor new = some t') (habove : t.parent anchor = some above)
    (hfree : t.Free new above) (hadm : (t.form above).Admits (t.form new)) : t'.Sound := by
  have hlinked : t'.Linked := by
    refine linked_insertAfter ht.linked h hfree.lt_size hfree.parent hfree.ne_root fun a ha => ?_
    obtain rfl := Option.some.inj (habove.symm.trans ha)
    exact hfree.not_within
  refine ⟨hlinked, ?_⟩
  obtain ⟨above', items, habove', hitems, hmem, rfl⟩ := insertAfter_eq_some h
  obtain rfl := Option.some.inj (habove.symm.trans habove')
  obtain ⟨xs, ys, rfl, hxs⟩ := List.eq_append_cons_of_mem hmem
  refine Shaped.setItems ht.shaped hitems (fun c hc => ?_) (ht.linked.parent_lt_size habove)
    hfree.lt_size hadm
  rw [insertBehind_append hxs] at hc
  grind

/-- Appending a free node to a holder that admits it keeps the store sound. -/
theorem Sound.append (ht : t.Sound) {holder new : NodeId} (h : t.append holder new = some t')
    (hholder : holder < t.size) (hfree : t.Free new holder)
    (hadm : (t.form holder).Admits (t.form new)) : t'.Sound := by
  refine ⟨linked_append ht.linked h hholder hfree.lt_size hfree.parent hfree.ne_root
    hfree.not_within, ?_⟩
  obtain ⟨items, hitems, rfl⟩ := append_eq_some h
  refine Shaped.setItems ht.shaped hitems (fun c hc => ?_) hholder hfree.lt_size hadm
  grind

theorem kind_place (t : Tree) (id : NodeId) (s : Option Span) (n : NodeId) :
    (t.update id ({ · with span := s })).kind n = t.kind n := by
  simp only [kind, node_update]
  split <;> rfl

theorem parent_place (t : Tree) (id : NodeId) (s : Option Span) (n : NodeId) :
    (t.update id ({ · with span := s })).parent n = t.parent n := by
  simp only [parent, node_update]
  split <;> rfl

/-- Giving a node a span keeps the links in order. -/
theorem Linked.place (ht : t.Linked) (id : NodeId) (s : Option Span) :
    (t.update id ({ · with span := s })).Linked :=
  ht.congr (size_update ..) (parent_place t id s) fun _ => congrArg Kind.children (kind_place ..)

/-- Giving a node a span keeps the store sound. -/
theorem Sound.place (ht : t.Sound) (id : NodeId) (s : Option Span) :
    (t.update id ({ · with span := s })).Sound := by
  refine ⟨ht.linked.place id s, ?_⟩
  intro p c hc
  rw [children, kind_place] at hc
  rw [form, kind_place, form, kind_place]
  exact ht.shaped hc

/-- Every move keeps a store sound. -/
theorem Move.sound (h : Move t t') (ht : t.Sound) : t'.Sound := by
  cases h with
  | graft a hshape _ => exact ht.graft hshape
  | alloc hfree hnodup hadm =>
    exact ⟨linked_alloc ht.linked none hfree hnodup,
      Shaped.alloc ht none (fun c hc => (hfree c hc).2.1) hadm⟩
  | remove hid hitems => exact ht.remove hid hitems
  | replace hold hfree hadm => exact ht.replace hold hfree hadm
  | wrap hold hfree hloose hnew => exact ht.wrap hold hfree hloose hnew
  | insertAfter h habove hfree hadm => exact ht.insertAfter h habove hfree hadm
  | append h hholder hfree hadm => exact ht.append h hholder hfree hadm
  | place s _ => exact ht.place _ s

/-- A sequence of moves keeps the store sound. -/
theorem Moves.sound (h : Moves t t') (ht : t.Sound) : t'.Sound := by
  induction h with
  | refl => exact ht
  | tail _ hmove ih => exact hmove.sound ih

end Sounding

section Outlines

variable {t t' : Tree}

/-- An edit at one node keeps what it keeps of that node's kind, at every node. -/
theorem EditAt.keeps {β : Type} {f : Kind NodeId → β} {above : NodeId} {k : Kind NodeId}
    {up : NodeId → Option NodeId} (he : EditAt t t' above k up) (hk : f k = f (t.kind above))
    (n : NodeId) : f (t'.kind n) = f (t.kind n) := by
  rw [he.kind]
  split
  case isTrue h => rw [h, hk]
  case isFalse => rfl

/-- A move adds nodes at most, and leaves what lasts of those that were there as it is. -/
theorem Move.keeps {β : Type} {f : Kind NodeId → β} (hf : Kind.Lasting f) (h : Move t t')
    (ht : t.Sound) : t.size ≤ t'.size ∧ ∀ n < t.size, f (t'.kind n) = f (t.kind n) := by
  have hedit {above : NodeId} {k : Kind NodeId} {up : NodeId → Option NodeId}
      (he : EditAt t t' above k up) (hk : f k = f (t.kind above)) :
      t.size ≤ t'.size ∧ ∀ n < t.size, f (t'.kind n) = f (t.kind n) :=
    ⟨Nat.le_of_eq he.size.symm, fun n _ => he.keeps hk n⟩
  cases h with
  | graft a hshape hplace =>
    have hg := graft_spec a t ht.linked
    exact ⟨hg.size_le, fun n hn => congrArg (fun m => f m.kind) (hg.old n hn)⟩
  | alloc hfree hnodup hadm =>
    refine ⟨by rw [size_alloc]; exact Nat.le_succ _, fun n hn => ?_⟩
    rw [kind_alloc, if_neg (Nat.ne_of_lt hn)]
  | remove hid hitems => exact hedit (editAt_remove ht.linked hid) (hf.dropChild ..)
  | replace hold hfree hadm =>
    exact hedit (editAt_replace ht.linked hold hfree.lt_size) (hf.replaceChild ..)
  | wrap hold hfree hloose hnew =>
    obtain ⟨hsize, -, hkind, -, -, -⟩ := editAt_wrap ht.linked hold hfree.lt_size
    refine ⟨by rw [hsize]; exact Nat.le_succ _, fun n hn => ?_⟩
    rw [hkind, if_neg (Nat.ne_of_lt hn)]
    split
    case isTrue h => rw [hf.replaceChild, h]
    case isFalse => rfl
  | insertAfter h habove hfree hadm =>
    obtain ⟨above, items, habove', hitems, hmem, rfl⟩ := insertAfter_eq_some h
    exact hedit (editAt_setItems (ht.linked.parent_lt_size habove') hfree.lt_size _)
      (hf.setItems ..)
  | append h hholder hfree hadm =>
    obtain ⟨items, hitems, rfl⟩ := append_eq_some h
    exact hedit (editAt_setItems hholder hfree.lt_size _) (hf.setItems ..)
  | place s _ =>
    exact ⟨Nat.le_of_eq (size_update ..).symm, fun n _ => by rw [kind_place]⟩

/-- What survives a change of children is kept, by a sequence of moves, at every node there was. -/
theorem Moves.keeps {β : Type} {f : Kind NodeId → β} (hf : Kind.Lasting f) (h : Moves t t')
    (ht : t.Sound) : t.size ≤ t'.size ∧ ∀ n < t.size, f (t'.kind n) = f (t.kind n) := by
  induction h with
  | refl => exact ⟨Nat.le_refl _, fun _ _ => rfl⟩
  | tail hmoves hmove ih =>
    obtain ⟨hle, hout⟩ := hmove.keeps hf (Moves.sound hmoves ht)
    refine ⟨Nat.le_trans ih.1 hle, fun n hn => ?_⟩
    rw [hout n (Nat.lt_of_lt_of_le hn ih.1), ih.2 n hn]

/-- No move takes a node out of the store. -/
theorem Moves.size_le (h : Moves t t') (ht : t.Sound) : t.size ≤ t'.size :=
  (h.keeps Kind.lasting_outline ht).1

theorem Moves.form_eq (h : Moves t t') (ht : t.Sound) {n : NodeId} (hn : n < t.size) :
    t'.form n = t.form n :=
  congrArg Prod.fst ((h.keeps Kind.lasting_outline ht).2 n hn)

/-- A sequence of moves keeps which nodes are paired. -/
theorem Moves.paired_iff (h : Moves t t') (ht : t.Sound) {n : NodeId} (hn : n < t.size) :
    (t'.kind n).Paired ↔ (t.kind n).Paired :=
  Iff.of_eq ((h.keeps Kind.lasting_paired ht).2 n hn)

/-- A sequence of moves keeps the names of the attributes. -/
theorem Moves.attributeName_eq (h : Moves t t') (ht : t.Sound) {n : NodeId} (hn : n < t.size) :
    t'.attributeName n = t.attributeName n := by
  have hout := (h.keeps Kind.lasting_outline ht).2 n hn
  unfold attributeName
  cases hk : t.kind n <;> cases hk' : t'.kind n <;> simp_all [Kind.outline, Kind.form]

end Outlines

end Tree

end JsxStyle
