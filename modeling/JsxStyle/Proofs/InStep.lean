import JsxStyle.Proofs.Alike

/-!
# Edits made in two alike stores

What is done to a store is done to an alike store as well: nodes are added to
both, and the edits of both are at corresponding nodes.  The renaming stays the
same, since it had the nodes to come in step from the beginning.

* `Alike.step`: a change that leaves annotations alone and changes the others
  in the same way;
* `Alike.alloc`, `Alike.graft`: adding;
* `Alike.replaceAt`, `Alike.remove`, `Alike.mergeStyles`: edits.
-/

namespace JsxStyle

/-- An item may be replaced before or after an injective renaming. -/
theorem map_replace {α β : Type} [DecidableEq α] [DecidableEq β] {f : α → β}
    (hf : Function.Injective f) (old new : α) (l : List α) :
    (l.replace old new).map f = (l.map f).replace (f old) (f new) := by
  induction l with
  | nil => rfl
  | cons c rest ih =>
    rw [List.map_cons, Kind.replace_cons_eq_ite, Kind.replace_cons_eq_ite]
    by_cases hc : c = old
    · rw [if_pos hc, if_pos (congrArg f hc), List.map_cons]
    · rw [if_neg hc, if_neg fun e => hc (hf e), List.map_cons, ih]

/-- After a replacement a list has the new item and old ones only. -/
theorem mem_of_mem_replace {α : Type} [DecidableEq α] {c old new : α} {l : List α}
    (h : c ∈ l.replace old new) : c = new ∨ c ∈ l := by
  induction l with
  | nil => exact absurd h (by simp)
  | cons b rest ih =>
    rw [Kind.replace_cons_eq_ite] at h
    split at h
    · exact (List.mem_cons.mp h).imp_right (List.mem_cons_of_mem _)
    · rcases List.mem_cons.mp h with rfl | h
      · exact Or.inr List.mem_cons_self
      · exact (ih h).imp_right (List.mem_cons_of_mem _)

namespace Kind

variable {α β : Type} [DecidableEq α] [DecidableEq β] {f : α → β}

/-- A child may be replaced before or after an injective renaming. -/
theorem map_replaceChild (hf : Function.Injective f) (old new : α) (k : Kind α) :
    (k.replaceChild old new).map f = (k.map f).replaceChild (f old) (f new) := by
  cases k with
  | element head children closing =>
    by_cases h : head = old <;> simp [replaceChild, map, map_replace hf, hf.eq_iff, h]
  | call callee arguments =>
    by_cases h : callee = old <;> simp [replaceChild, map, map_replace hf, hf.eq_iff, h]
  | template tag chunks holes =>
    by_cases h : tag = old <;> simp [replaceChild, map, map_replace hf, hf.eq_iff, h]
  | attr name value =>
    cases value with
    | none => rfl
    | some v => by_cases h : v = old <;> simp [replaceChild, map, hf.eq_iff, h]
  | container expression =>
    cases expression with
    | none => rfl
    | some v => by_cases h : v = old <;> simp [replaceChild, map, hf.eq_iff, h]
  | spread argument => by_cases h : argument = old <;> simp [replaceChild, map, hf.eq_iff, h]
  | member object property => by_cases h : object = old <;> simp [replaceChild, map, hf.eq_iff, h]
  | _ => simp [replaceChild, map, map_replace hf]

/-- An item may be left out before or after an injective renaming. -/
theorem map_filter_ne (hf : Function.Injective f) (child : α) (l : List α) :
    (l.filter (· ≠ child)).map f = (l.map f).filter (· ≠ f child) := by
  rw [List.filter_map]
  refine congrArg (List.map f) (List.filter_congr fun c _ => ?_)
  simp [hf.eq_iff]

/-- A child may be dropped before or after an injective renaming. -/
theorem map_dropChild (hf : Function.Injective f) (child : α) (k : Kind α) :
    (k.dropChild child).map f = (k.map f).dropChild (f child) := by
  have hlist := map_filter_ne hf child
  cases k with
  | attr name value =>
    cases value with
    | none => rfl
    | some v => by_cases h : v = child <;> simp [dropChild, items?, map, hf.eq_iff, h]
  | container expression =>
    cases expression with
    | none => rfl
    | some v => by_cases h : v = child <;> simp [dropChild, items?, map, hf.eq_iff, h]
  | _ => simp only [dropChild, items?, setItems, map, hlist]

omit [DecidableEq β] in
/-- A kept attribute may be replaced by another before or after the rest is left out. -/
theorem keepAttributes_replaceChild {q : α → Bool} {old new : α} (hold : q old = true)
    (hnew : q new = true) (k : Kind α) :
    (k.replaceChild old new).keepAttributes q = (k.keepAttributes q).replaceChild old new := by
  cases k with
  | opening name attributes selfClosing =>
    simp only [replaceChild, keepAttributes, Tree.filter_replace hold hnew]
  | _ =>
    rw [keepAttributes_of_form (by rw [form_replaceChild]; simp [form]),
      keepAttributes_of_form (by simp [form])]

omit [DecidableEq β] in
/-- A child may be dropped before or after attributes are left out. -/
theorem keepAttributes_dropChild (q : α → Bool) (child : α) (k : Kind α) :
    (k.dropChild child).keepAttributes q = (k.keepAttributes q).dropChild child := by
  cases k with
  | opening name attributes selfClosing =>
    simp only [dropChild, items?, setItems, keepAttributes]
    rw [List.filter_comm]
  | _ => rfl

omit [DecidableEq β] in
/-- Dropping a child adds none. -/
theorem mem_children_of_dropChild {child c : α} {k : Kind α}
    (h : c ∈ (k.dropChild child).children) : c ∈ k.children := by
  cases k with
  | attr name value =>
    cases value with
    | none => exact h
    | some v => by_cases hv : v = child <;> simp_all [dropChild, items?, Kind.children]
  | container expression =>
    cases expression with
    | none => exact h
    | some v => by_cases hv : v = child <;> simp_all [dropChild, items?, Kind.children]
  | _ => simp_all [dropChild, items?, setItems, Kind.children] <;> tauto

omit [DecidableEq α] in
/-- A kind is known by its shape and its children. -/
theorem eq_of_children {k k' : Kind α} (hshape : (k.map fun _ => ()) = k'.map fun _ => ())
    (hchildren : k.children = k'.children) : k = k' := by
  have hoption (v v' : Option α) : v.toList = v'.toList ↔ v = v' := by
    cases v <;> cases v' <;> simp
  cases k <;> cases k' <;> simp_all [map, Kind.children]

end Kind

namespace Tree

/-- Of a node that has the same kind but for annotations, what the renaming does not reach is
an attribute. -/
theorem mem_attributes_of_unreached {f : NodeId → NodeId} {a : Tree} {n e : NodeId}
    {k : Kind NodeId} (hsame : (a.kind n).keepAttributes (reaches f) = k.map f)
    (he : e ∈ a.children n) (hreach : reaches f e = false) : e ∈ a.attributes n := by
  by_cases hform : a.form n = .opening
  · rwa [attributes_eq_children hform]
  · rw [Kind.keepAttributes_of_form hform] at hsame
    rw [children, hsame, Kind.children_map] at he
    obtain ⟨c, -, rfl⟩ := List.mem_map.mp he
    exact absurd (reaches_self f c) (by simp [hreach])

/-- A node that is not reached differs from those that are. -/
theorem ne_of_unreached {f : NodeId → NodeId} {e n : NodeId} (he : reaches f e = false) :
    e ≠ f n := by
  rintro rfl
  exact absurd (reaches_self f n) (by simp [he])

/-- A string is not the node that is added next. -/
theorem ne_size_of_str {t : Tree} {n : NodeId} (hn : t.form n = .str) : n ≠ t.size :=
  Nat.ne_of_lt (lt_size_of_form (by rw [hn]; decide))

namespace Alike

variable {label : Text} {f : NodeId → NodeId} {a p a' p' : Tree}

theorem size_eq (h : Alike label f a p) : f p.size = a.size :=
  h.ahead 0

/-- Only the first node to be added is called as the other's first. -/
theorem eq_size_iff (h : Alike label f a p) {n : NodeId} : f n = a.size ↔ n = p.size := by
  rw [← h.size_eq, h.injective.eq_iff]

/-- Nodes that are there are called as nodes that are there. -/
theorem lt_size_iff (h : Alike label f a p) {n : NodeId} : f n < a.size ↔ n < p.size := by
  refine ⟨fun hlt => ?_, h.lt_size n⟩
  rcases Nat.lt_or_ge n p.size with hn | hn
  · exact hn
  · obtain ⟨k, rfl⟩ := Nat.exists_eq_add_of_le hn
    rw [h.ahead] at hlt
    exact absurd hlt (Nat.not_lt.mpr (Nat.le_add_right ..))

/-- Stores stay alike when as many nodes are added to both, annotations and strings stay what
they are, and what changes besides is alike afterwards. -/
theorem step (h : Alike label f a p) (d : Nat) (hsize : p'.size = p.size + d)
    (hsize' : a'.size = a.size + d) (hspan : ∀ n, a'.span (f n) = p'.span n)
    (hstr : ∀ n, p.form n = .str → p'.form n = .str)
    (hstr' : ∀ e, a.form e = .str → a'.form e = .str)
    (hspare : ∀ e, reaches f e = false → a'.kind e = a.kind e)
    (hkind : ∀ n, a'.kind (f n) = a.kind (f n) ∧ p'.kind n = p.kind n ∨
      (a'.kind (f n)).keepAttributes (reaches f) = (p'.kind n).map f ∧
        ∀ e ∈ (a'.kind (f n)).children, reaches f e = false → e ∈ a.attributes (f n)) :
    Alike label f a' p' where
  injective := h.injective
  ahead k := by rw [hsize, hsize', Nat.add_assoc, Nat.add_assoc, h.ahead]
  lt_size n hn := by
    rcases Nat.lt_or_ge n p.size with hlt | hge
    · rw [hsize']
      exact Nat.lt_of_lt_of_le (h.lt_size n hlt) (Nat.le_add_right ..)
    · obtain ⟨k, rfl⟩ := Nat.exists_eq_add_of_le hge
      rw [hsize] at hn
      rw [h.ahead, hsize']
      exact Nat.add_lt_add_left (Nat.lt_of_add_lt_add_left hn) _
  root_eq := h.root_eq
  span_eq := hspan
  twins n := by
    rcases hkind n with ⟨hk', hk⟩ | ⟨hsame, -⟩
    · rcases h.twins n with hsame | ⟨hold, hform, hold', hform', hnew⟩
      · exact .same (by rw [hk, hk', hsame])
      · exact .extended (hk.trans hold) (hstr _ hform) (hk'.trans hold') (hstr' _ hform') hnew
    · exact .same hsame
  spare e he := by
    cases h.spare e he with
    | string hform => exact .string (hstr' e hform)
    | note hold hform hnew => exact .note ((hspare e he).trans hold) (hstr' _ hform) hnew
  listed n e hmem he := by
    have hname : a'.attributeName e = a.attributeName e := by
      rw [attributeName, hspare e he, attributeName]
    rw [hname]
    cases hn : reaches f n with
    | false =>
      rw [attributes, hspare n hn, ← attributes] at hmem
      exact h.listed n e hmem he
    | true =>
      obtain ⟨m, rfl⟩ := reaches_iff.mp hn
      rcases hkind m with ⟨hk', -⟩ | ⟨-, hlist⟩
      · rw [attributes, hk', ← attributes] at hmem
        exact h.listed _ e hmem he
      · refine h.listed (f m) e (hlist e ?_ he) he
        unfold attributes at hmem
        cases hk : a'.kind (f m) <;> simp_all [Kind.children]

/-- A change of corresponding nodes that leaves kinds alone. -/
theorem update (h : Alike label f a p) (id : NodeId) {change : Node → Node}
    (hkind : ∀ n, (change n).kind = n.kind) (place : Option Span → Option Span)
    (hplace : ∀ n, (change n).span = place n.span) :
    Alike label f (a.update (f id) change) (p.update id change) := by
  have hsame (t : Tree) (m n : NodeId) : (t.update m change).kind n = t.kind n := by
    simp only [kind, node_update]
    split
    · exact hkind _
    · rfl
  have hspan (t : Tree) (m n : NodeId) : (t.update m change).span n =
      if n = m ∧ n < t.size then place (t.span n) else t.span n := by
    simp only [span, node_update]
    split
    · exact hplace _
    · rfl
  refine h.step 0 (size_update ..) (size_update ..) (fun n => ?_) (fun n hn => ?_) (fun e he => ?_)
    (fun e _ => hsame ..) fun n => Or.inl ⟨hsame .., hsame ..⟩
  · rw [hspan, hspan, h.span_eq]
    simp only [h.injective.eq_iff, h.lt_size_iff]
  · rwa [form, hsame]
  · rwa [form, hsame]

/-- A node is added to both stores, above corresponding nodes. -/
theorem alloc (h : Alike label f a p) (k : Kind NodeId) (s : Option Span) :
    Alike label f (Tree.alloc (k.map f) s a).2 (Tree.alloc k s p).2 := by
  refine h.step 1 (size_alloc ..) (size_alloc ..) (fun n => ?_) (fun n hn => ?_) (fun e he => ?_)
    (fun e he => ?_) fun n => ?_
  · rw [span_alloc, span_alloc, h.span_eq]
    simp only [h.eq_size_iff]
  · rwa [form, kind_alloc, if_neg (ne_size_of_str hn)]
  · rwa [form, kind_alloc, if_neg (ne_size_of_str he)]
  · rw [kind_alloc, if_neg (h.size_eq ▸ ne_of_unreached he)]
  · by_cases hn : n = p.size
    · refine Or.inr ?_
      rw [kind_alloc, kind_alloc, if_pos (h.eq_size_iff.mpr hn), if_pos hn, Kind.children_map]
      refine ⟨?_, fun e he hreach => ?_⟩
      · rw [Kind.keepAttributes_map,
          Kind.keepAttributes_of_all (q := reaches f ∘ f) (reaches_self f)]
      · obtain ⟨c, -, rfl⟩ := List.mem_map.mp he
        exact absurd rfl (ne_of_unreached hreach)
    · refine Or.inl ?_
      rw [kind_alloc, kind_alloc, if_neg fun e => hn (h.eq_size_iff.mp e), if_neg hn]
      exact ⟨rfl, rfl⟩

/-- An edit is made at corresponding nodes. -/
theorem edit (h : Alike label f a p) {above : NodeId} {k k' : Kind NodeId}
    {up up' : NodeId → Option NodeId} (hedit : EditAt p p' above k up)
    (hedit' : EditAt a a' (f above) k' up') (hform : k.form = p.form above)
    (hform' : k'.form = a.form (f above)) (hsame : k'.keepAttributes (reaches f) = k.map f)
    (hlist : ∀ e ∈ k'.children, reaches f e = false → e ∈ a.attributes (f above)) :
    Alike label f a' p' := by
  refine h.step 0 hedit.size hedit'.size (fun n => ?_) (fun n hn => ?_) (fun e he => ?_)
    (fun e he => ?_) fun n => ?_
  · rw [hedit.span, hedit'.span, h.span_eq]
  · rw [form, hedit.kind]
    split
    case isTrue heq => rwa [hform, ← heq]
    case isFalse => exact hn
  · rw [form, hedit'.kind]
    split
    case isTrue heq => rwa [hform', ← heq]
    case isFalse => exact he
  · rw [hedit'.kind, if_neg (ne_of_unreached he)]
  · by_cases hn : n = above
    · subst hn
      refine Or.inr ?_
      rw [hedit.kind, hedit'.kind, if_pos rfl, if_pos rfl]
      exact ⟨hsame, hlist⟩
    · refine Or.inl ?_
      rw [hedit.kind, hedit'.kind, if_neg fun e => hn (h.injective e), if_neg hn]
      exact ⟨rfl, rfl⟩

/-- A node is put in the place of another. -/
theorem replace (h : Alike label f a p) (ha : a.Linked) (hp : p.Linked) (old : NodeId)
    {new : NodeId} (hnew : new < p.size) (hold : p.form old ≠ .str) :
    Alike label f (a.replace (f old) (f new)) (p.replace old new) := by
  have hparent' := h.parent_eq ha hp hold
  cases hparent : p.parent old with
  | none =>
    rw [hparent] at hparent'
    rw [replace_of_free hparent, replace_of_free hparent']
    exact h
  | some above =>
    obtain ⟨hparent', hsame⟩ := h.parent_of_child ha hp hparent (Or.inl hold)
    refine h.edit (editAt_replace hp hparent hnew) (editAt_replace ha hparent' (h.lt_size new hnew))
      (Kind.form_replaceChild ..) (Kind.form_replaceChild ..) ?_ fun e he hreach => ?_
    · rw [Kind.keepAttributes_replaceChild (reaches_self ..) (reaches_self ..), hsame,
        Kind.map_replaceChild h.injective]
    · rw [Kind.children_replaceChild] at he
      rcases mem_of_mem_replace he with rfl | he
      · exact absurd (reaches_self f new) (by simp [hreach])
      · exact mem_attributes_of_unreached hsame he hreach

/-- A node is put in the place of another and takes over its place in the source. -/
theorem replaceAt (h : Alike label f a p) (ha : a.Linked) (hp : p.Linked) (old : NodeId)
    {new : NodeId} (hnew : new < p.size) (hold : p.form old ≠ .str) :
    Alike label f (a.replaceAt (f old) (f new)) (p.replaceAt old new) := by
  have hplaced : Alike label f (a.update (f new) ({ · with span := a.span (f old) }))
      (p.update new ({ · with span := p.span old })) := by
    rw [h.span_eq]
    exact h.update new (fun _ => rfl) (fun _ => p.span old) fun _ => rfl
  have hreplaced := hplaced.replace (ha.place ..) (hp.place ..) old
    (by rwa [size_update]) (by rwa [form, kind_place])
  exact hreplaced.update new (fun _ => rfl) id fun _ => rfl

/-- A node is taken out. -/
theorem remove (h : Alike label f a p) (ha : a.Linked) (hp : p.Linked) (id : NodeId)
    (hid : p.form id ≠ .str) : Alike label f (a.remove (f id)) (p.remove id) := by
  have hparent' := h.parent_eq ha hp hid
  cases hparent : p.parent id with
  | none =>
    rw [hparent] at hparent'
    unfold Tree.remove
    rw [hparent, hparent']
    exact h
  | some above =>
    obtain ⟨hparent', hsame⟩ := h.parent_of_child ha hp hparent (Or.inl hid)
    refine h.edit (editAt_remove hp hparent) (editAt_remove ha hparent') (Kind.form_dropChild ..)
      (Kind.form_dropChild ..) ?_ fun e he hreach => ?_
    · rw [Kind.keepAttributes_dropChild, hsame, Kind.map_dropChild h.injective]
    · exact mem_attributes_of_unreached hsame (Kind.mem_children_of_dropChild he) hreach

/-- A style is put into the array that is there. -/
theorem append (h : Alike label f a p) {array new : NodeId} {elements : List NodeId}
    (harray : p.kind array = .array elements) (hnew : new < p.size) :
    Alike label f ((a.append (f array) (f new)).getD a) ((p.append array new).getD p) := by
  have harray' := h.kind_eq harray (by simp [Kind.form]) (by simp)
  have hlt : array < p.size := lt_size_of_form (by rw [form, harray]; simp [Kind.form])
  have hgrown {t : Tree} {n m : NodeId} {items : List NodeId} (hn : t.kind n = .array items) :
      (t.append n m).getD t =
        ((t.mapKind n (·.setItems (items ++ [m]))).setParent (some n) m).markDirty
        n := by
    unfold Tree.append
    rw [hn]
    rfl
  rw [hgrown harray, hgrown harray']
  refine h.edit (editAt_setItems hlt hnew _)
    (editAt_setItems (h.lt_size _ hlt) (h.lt_size _ hnew) _)
    (Kind.form_setItems ..) (Kind.form_setItems ..) ?_ fun e he hreach => ?_
  · rw [harray, harray']
    simp [Kind.map, Kind.setItems, Kind.keepAttributes]
  · rw [harray'] at he
    have hmem : e ∈ (elements ++ [new]).map f := by
      simpa [Kind.map, Kind.setItems, Kind.children] using he
    obtain ⟨m, -, rfl⟩ := List.mem_map.mp hmem
    exact absurd (reaches_self f m) (by simp [hreach])

/-- A style is put behind another one, in a new array. -/
theorem wrap (h : Alike label f a p) (ha : a.Linked) (hp : p.Linked) {old styles above : NodeId}
    (hparent : p.parent old = some above) (habove : p.form above = .container)
    (hstyles : styles < p.size) :
    Alike label f (a.replaceWith (f old) fun t => t.alloc (.array [f old, f styles]) none).2
      (p.replaceWith old fun t => t.alloc (.array [old, styles]) none).2 := by
  obtain ⟨hparent', hsame⟩ := h.parent_of_child ha hp hparent (Or.inr (by simp [habove]))
  have htaken : Alike label f (a.setParent none (f old)) (p.setParent none old) :=
    h.update old (fun _ => rfl) id fun _ => rfl
  have hgrown := htaken.alloc (.array [old, styles]) none
  have hedit := editAt_wrapped hp hparent hstyles
  have hedit' := editAt_wrapped ha hparent' (h.lt_size _ hstyles)
  have hkind {t : Tree} (k : Kind NodeId) {n : NodeId} (m : NodeId) (hn : n < t.size) :
      (Tree.alloc k none (t.setParent none m)).2.kind n = t.kind n := by
    rw [kind_alloc, size_setParent, if_neg (Nat.ne_of_lt hn), kind_setParent]
  have hlt := hp.parent_lt_size hparent
  have hlt' := ha.parent_lt_size hparent'
  refine hgrown.edit hedit hedit' ?_ ?_ ?_ fun e he hreach => ?_
  · rw [Kind.form_replaceChild, form, hkind _ _ hlt]
  · rw [Kind.form_replaceChild, form]
    exact congrArg Kind.form (hkind _ _ hlt').symm
  · rw [← h.size_eq, Kind.keepAttributes_replaceChild (reaches_self ..) (reaches_self ..), hsame,
      Kind.map_replaceChild h.injective]
  · rw [Kind.children_replaceChild] at he
    have hmem := (mem_of_mem_replace he).resolve_left (h.size_eq ▸ ne_of_unreached hreach)
    rw [attributes_congr (hkind _ _ hlt')]
    exact mem_attributes_of_unreached hsame hmem hreach

/-- A style joins a style expression. -/
theorem mergeStyles (h : Alike label f a p) (ha : a.Linked) (hp : p.Linked)
    {expression styles container : NodeId} (hparent : p.parent expression = some container)
    (hcontainer : p.form container = .container) (hstyles : styles < p.size) :
    Alike label f (Stylist.mergeStyles (f expression) (f styles) a)
      (Stylist.mergeStyles expression styles p) := by
  unfold Stylist.mergeStyles
  rw [h.form_eq]
  split
  case isTrue hform =>
    unfold form at hform
    cases hk : p.kind expression with
    | array elements => exact h.append hk hstyles
    | _ => exact absurd hform (by simp [hk, Kind.form])
  case isFalse => exact h.wrap ha hp hparent hcontainer hstyles

/-- A list of trees is added to both stores, if that can be done with each of them. -/
theorem mapM_graft_of_each {as : List Ast}
    (heach : ∀ x ∈ as, ∀ {a p : Tree}, Alike label f a p →
      ((Tree.graft x).run a).1 = f ((Tree.graft x).run p).1 ∧
        Alike label f ((Tree.graft x).run a).2 ((Tree.graft x).run p).2) {a p : Tree}
    (h : Alike label f a p) :
    ((as.mapM Tree.graft).run a).1 = ((as.mapM Tree.graft).run p).1.map f ∧
      Alike label f ((as.mapM Tree.graft).run a).2 ((as.mapM Tree.graft).run p).2 := by
  induction as generalizing a p with
  | nil => exact ⟨rfl, h⟩
  | cons x rest ih =>
    have hrun (t : Tree) : ((x :: rest).mapM Tree.graft).run t =
        (((Tree.graft x).run t).1 :: ((rest.mapM Tree.graft).run ((Tree.graft x).run t).2).1,
          ((rest.mapM Tree.graft).run ((Tree.graft x).run t).2).2) := by
      rw [List.mapM_cons]
      rfl
    obtain ⟨hid, hfirst⟩ := heach x List.mem_cons_self h
    obtain ⟨hids, hrest⟩ := ih (fun y hy => heach y (List.mem_cons_of_mem _ hy)) hfirst
    rw [hrun, hrun, hids, hid]
    exact ⟨rfl, hrest⟩

/-- A tree is added to both stores. -/
theorem graft (h : Alike label f a p) (ast : Ast) :
    ((Tree.graft ast).run a).1 = f ((Tree.graft ast).run p).1 ∧
      Alike label f ((Tree.graft ast).run a).2 ((Tree.graft ast).run p).2 := by
  induction ast using Ast.induction generalizing a p with
  | h s k ih =>
    obtain ⟨z, hz, hrun, hids⟩ := Kind.runsTo Tree.graft k p
    obtain ⟨z', hz', hrun', hids'⟩ := Kind.runsTo Tree.graft k a
    obtain ⟨hchildren, hbelow⟩ := mapM_graft_of_each (fun x hx _ _ h => ih x hx h) h
    have hkind : z'.map Prod.snd = (z.map Prod.snd).map f := by
      refine Kind.eq_of_children ?_ ?_
      · rw [Kind.map_map, Kind.map_map, Kind.map_map]
        exact (Kind.map_map Prod.fst (fun _ => ()) z').symm.trans
          ((congrArg _ (hz'.trans hz.symm)).trans (Kind.map_map Prod.fst (fun _ => ()) z))
      · rw [Kind.children_map, Kind.children_map, Kind.children_map, ← hids, ← hids', hchildren]
    rw [graft_node_run, graft_node_run, hrun, hrun', hkind]
    exact ⟨hbelow.size_eq.symm, hbelow.alloc ..⟩

end Alike

end Tree

end JsxStyle
