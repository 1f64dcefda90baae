import JsxStyle.Proofs.Handlers

/-!
# What an annotation changes

An annotation puts in one attribute at most, or gives the one that is there
another string.  It always finds a place in the tag it is meant for, so it never
fails, and the only link that it cuts is that to the string it replaces.

* `Annotated`: what an annotation changes in the nodes;
* `Noted`: what it leaves of the links, and what it adds;
* `annotated_attachTo`, `annotated_attachAfter`: both, for the two places that an
  annotation may be put in.
-/

namespace JsxStyle

namespace Tree

/-- The attributes of a tag are its children. -/
theorem attributes_eq_children {t : Tree} {n : NodeId} (h : t.form n = .opening) :
    t.attributes n = t.children n := by
  unfold form at h
  unfold attributes children
  cases hk : t.kind n <;> simp_all [Kind.form, Kind.children]

/-- What an annotation of the tag `opening` leaves behind: one attribute more at
most, or another string in one that was there. -/
structure Annotated (label : Text) (t t' : Tree) (opening : NodeId) : Prop where
  moves : Moves t t'
  span : ∀ n < t.size, t'.span n = t.span n
  kind : ∀ n < t.size, n ≠ opening → t'.kind n = t.kind n ∨
    t.parent n = some opening ∧ ∃ value text quote, t.kind n = .attr label (some value) ∧
      t.kind value = .str text quote
  self : ∃ before after new : List NodeId, t.attributes opening = before ++ after ∧
    t'.attributes opening = before ++ new ++ after ∧
    ∀ a ∈ new, t.size ≤ a ∧ t'.attributeName a = some label

theorem Annotated.refl (label : Text) (t : Tree) (opening : NodeId) :
    Annotated label t t opening where
  moves := .refl
  span _ _ := rfl
  kind _ _ _ := Or.inl rfl
  self := ⟨t.attributes opening, [], [], by simp⟩

theorem attributes_congr {t t' : Tree} {n : NodeId} (h : t'.kind n = t.kind n) :
    t'.attributes n = t.attributes n := by
  rw [attributes, h, attributes]

/-- The annotation of a tag is extended. -/
theorem annotated_extend {t t' : Tree} (ht : t.Sound) {a : Annotator} {attributes : List NodeId}
    {classes : Text} {opening : NodeId} (hopening : t.form opening = .opening)
    (hattributes : ∀ b ∈ attributes, t.attributeName b = some a.label → t.parent b = some opening)
    (h : a.extend attributes classes t = some t') : Annotated a.label t t' opening := by
  have hmoves := moves_extend ht h
  obtain rfl | ⟨existing, value, text, quote, hmem, hkind, hstr, hbelow, hresult⟩ :=
    extend_cases ht h
  · exact .refl ..
  · have hparent : t.parent existing = some opening :=
      hattributes existing hmem (by rw [attributeName, hkind])
    have hne : existing ≠ opening := by
      intro heq
      subst heq
      rw [form, hkind] at hopening
      exact absurd hopening (by simp [Kind.form])
    have hadds : Adds t (t.alloc (.str (Annotator.extended text classes) quote) none).2 t.size :=
      .leaf t rfl
    have hgrown := (hadds.moves.sound ht).linked
    have hvaluelt := lt_size_of_parent hbelow
    have hedit := editAt_replace hgrown ((hadds.parent_eq hvaluelt).trans hbelow) hadds.lt_size
    have hspan (n : NodeId) (hn : n < t.size) :
        (t.alloc (.str (Annotator.extended text classes) quote) none).2.span n = t.span n :=
      congrArg Node.span (hadds.old n hn)
    subst hresult
    refine ⟨hmoves, fun n hn => (hedit.span n).trans (hspan n hn), fun n hn hno => ?_, ?_⟩
    · by_cases hnx : n = existing
      · subst hnx
        exact Or.inr ⟨hparent, value, text, quote, hkind, hstr⟩
      · rw [hedit.kind, if_neg hnx, hadds.kind_eq hn]
        exact Or.inl rfl
    · refine ⟨t.attributes opening, [], [], by simp, ?_, by simp⟩
      have hopeninglt := ht.linked.parent_lt_size hparent
      rw [attributes_congr, List.append_nil, List.append_nil]
      rw [hedit.kind, if_neg hne.symm, hadds.kind_eq hopeninglt]

/-- A fresh annotation has the name of annotations. -/
theorem attributeName_fresh (a : Annotator) (classes : Text) (t : Tree) :
    (a.fresh classes t).2.attributeName (a.fresh classes t).1 = some a.label := by
  show (alloc (.attr a.label (some t.size)) none
    (t.alloc (.str classes '"') none).2).2.attributeName
    (t.alloc (.str classes '"') none).2.size = _
  rw [attributeName, kind_alloc, if_pos rfl]

/-- A new annotation is put somewhere into the list of attributes. -/
theorem Annotated.insert {t u u' : Tree} (ht : t.Sound) {label : Text} {opening new : NodeId}
    (hopening : t.form opening = .opening) (hadds : Adds t u new)
    (hname : u.attributeName new = some label) (hmove : Move u u') {before after : List NodeId}
    (hattributes : t.attributes opening = before ++ after)
    {items : List NodeId} (hitems : items = before ++ [new] ++ after) {up : NodeId → Option NodeId}
    (hedit : EditAt u u' opening ((u.kind opening).setItems items) up) :
    Annotated label t u' opening := by
  subst hitems
  have hlt : opening < t.size := lt_size_of_form (by rw [hopening]; decide)
  refine ⟨hadds.moves.tail hmove, fun n hn => ?_, fun n hn hne => ?_, before, after, [new],
    hattributes, ?_, fun b hb => ?_⟩
  · rw [hedit.span]
    exact congrArg Node.span (hadds.old n hn)
  · rw [hedit.kind, if_neg hne, hadds.kind_eq hn]
    exact Or.inl rfl
  · unfold attributes
    rw [hedit.kind, if_pos rfl, hadds.kind_eq hlt]
    unfold form at hopening
    cases hk : t.kind opening <;> simp_all [Kind.form, Kind.setItems]
  · obtain rfl := List.mem_singleton.mp hb
    refine ⟨hadds.behind, ?_⟩
    rw [Moves.attributeName_eq (.single hmove) (hadds.moves.sound ht) hadds.lt_size, hname]

/-- The nodes behind those of `t` are no templates and no shorthand attributes. -/
def Supplies (t t' : Tree) : Prop :=
  ∀ n, t.size ≤ n → t'.form n ≠ .template ∧ t'.attributeName n ≠ some Vocabulary.shorthand

section Supplies

variable {t u t' : Tree}

/-- Where no node is added, nothing is supplied. -/
theorem Supplies.of_size_le (h : t'.size ≤ t.size) : Supplies t t' := by
  intro n hn
  have hkind : t'.kind n = .fragment [] := kind_of_size_le (Nat.le_trans h hn)
  rw [form, attributeName, hkind]
  simp [Kind.form]

theorem Supplies.trans (h : Supplies t u) (h' : Supplies u t') (hu : u.Sound)
    (hmoves : Moves u t') :
    Supplies t t' := by
  intro n hn
  by_cases hlt : n < u.size
  · rw [hmoves.form_eq hu hlt, hmoves.attributeName_eq hu hlt]
    exact h n hn
  · exact h' n (Nat.le_of_not_lt hlt)

/-- Allocating no template and no shorthand attribute supplies neither. -/
theorem Supplies.alloc (t : Tree) {kind : Kind NodeId} (hform : kind.form ≠ .template)
    (hname : ∀ value, kind ≠ .attr Vocabulary.shorthand value) :
    Supplies t (alloc kind none t).2 := by
  intro n hn
  by_cases hself : n = t.size
  · rw [form, attributeName, kind_alloc, if_pos hself]
    refine ⟨hform, ?_⟩
    cases kind with
    | attr name value =>
      intro heq
      exact hname value (congrArg (Kind.attr · value) (Option.some.inj heq))
    | _ => simp
  · refine Supplies.of_size_le (Nat.le_refl _) n ?_
    rw [size_alloc]
    exact Nat.lt_of_le_of_ne hn (Ne.symm hself)

end Supplies

/-- What an annotation of the tag `opening` leaves of the links, what it supplies,
and that it comes in behind `anchor`. -/
structure Noted (label : Text) (t t' : Tree) (opening anchor : NodeId) : Prop where
  supplies : label ≠ Vocabulary.shorthand → Supplies t t'
  parent : ∀ n < t.size, t.form n ≠ .str → t'.parent n = t.parent n
  behind : ∃ before after new : List NodeId, t.attributes opening = before ++ after ∧
    t'.attributes opening = before ++ new ++ after ∧
    (anchor ∈ t.attributes opening → anchor ∈ before)

theorem Noted.refl (label : Text) (t : Tree) (opening anchor : NodeId) :
    Noted label t t opening anchor where
  supplies _ := .of_size_le (Nat.le_refl _)
  parent _ _ _ := rfl
  behind := ⟨t.attributes opening, [], [], by simp, by simp, id⟩

/-- Extending an annotation that is there keeps every link. -/
theorem noted_extend {t t' : Tree} (ht : t.Sound) {a : Annotator} {attributes : List NodeId}
    {classes : Text} {opening : NodeId} (hopening : t.form opening = .opening)
    (h : a.extend attributes classes t = some t') (anchor : NodeId) :
    Noted a.label t t' opening anchor := by
  have hmoves := moves_extend ht h
  obtain rfl | ⟨existing, value, text, quote, -, hkind, hstr, hparent, hresult⟩ :=
    extend_cases ht h
  · exact .refl ..
  · have hne : opening ≠ existing := by
      rintro rfl
      rw [form, hkind] at hopening
      exact absurd hopening (by simp [Kind.form])
    have hadds : Adds t (t.alloc (.str (Annotator.extended text classes) quote) none).2 t.size :=
      .leaf t rfl
    have hsupplies : Supplies t (t.alloc (.str (Annotator.extended text classes) quote) none).2 :=
      .alloc t (by simp [Kind.form]) (by simp)
    have hgrown := hadds.moves.sound ht
    have hvaluelt := lt_size_of_parent hparent
    have hreplace : Move (t.alloc (.str (Annotator.extended text classes) quote) none).2
        ((t.alloc (.str (Annotator.extended text classes) quote) none).2.replace value t.size) := by
      refine .replace ((hadds.parent_eq hvaluelt).trans hparent)
        (hadds.free ht.linked (ht.linked.parent_lt_size hparent)) ?_
      rw [form_alloc_self]
      exact trivial
    have hedit := editAt_replace hgrown.linked ((hadds.parent_eq hvaluelt).trans hparent)
      hadds.lt_size
    subst hresult
    refine ⟨fun _ => ?_, fun n hn hform => ?_, t.attributes opening, [], [], by simp, ?_, id⟩
    · exact hsupplies.trans (.of_size_le (Nat.le_of_eq hedit.size)) hgrown (.single hreplace)
    · have hnv : n ≠ value := by
        rintro rfl
        exact hform (congrArg Kind.form hstr)
      rw [hedit.parent, if_neg (Nat.ne_of_lt hn), if_neg hnv, hadds.parent_eq hn]
    · have hlt : opening < t.size := lt_size_of_form (by rw [hopening]; decide)
      rw [List.append_nil, List.append_nil, attributes_congr]
      rw [hedit.kind, if_neg hne, hadds.kind_eq hlt]

/-- A new annotation is put somewhere into the list of attributes. -/
theorem Noted.insert {t u u' : Tree} (ht : t.Sound) {label : Text} {opening new anchor : NodeId}
    (hopening : t.form opening = .opening) (hadds : Adds t u new)
    (hsupplies : label ≠ Vocabulary.shorthand → Supplies t u) (hmove : Move u u')
    {before after : List NodeId} (hattributes : t.attributes opening = before ++ after)
    (hanchor : anchor ∈ t.attributes opening → anchor ∈ before) {items : List NodeId}
    (hitems : items = before ++ [new] ++ after)
    (hedit : EditAt u u' opening ((u.kind opening).setItems items)
      fun n => if n = new then some opening else u.parent n) :
    Noted label t u' opening anchor := by
  subst hitems
  have hlt : opening < t.size := lt_size_of_form (by rw [hopening]; decide)
  refine ⟨fun hlabel => ?_, fun n hn _ => ?_, before, after, [new], hattributes, ?_, hanchor⟩
  · exact (hsupplies hlabel).trans (.of_size_le (Nat.le_of_eq hedit.size)) (hadds.moves.sound ht)
      (.single hmove)
  · rw [hedit.parent, if_neg (Nat.ne_of_lt (Nat.lt_of_lt_of_le hn hadds.behind)),
      hadds.parent_eq hn]
  · unfold attributes
    rw [hedit.kind, if_pos rfl, hadds.kind_eq hlt]
    unfold form at hopening
    cases hk : t.kind opening <;> simp_all [Kind.form, Kind.setItems]

/-- A fresh annotation supplies no template and no shorthand attribute. -/
theorem supplies_fresh {t : Tree} (ht : t.Sound) {a : Annotator}
    (hlabel : a.label ≠ Vocabulary.shorthand) (classes : Text) :
    Supplies t (a.fresh classes t).2 := by
  have hvalue : Adds t (t.alloc (.str classes '"') none).2 t.size := .leaf t rfl
  have hsupplies : Supplies t (t.alloc (.str classes '"') none).2 :=
    .alloc t (by simp [Kind.form]) (by simp)
  refine hsupplies.trans (.alloc _ (by simp [Kind.form]) fun _ heq => ?_) (hvalue.moves.sound ht)
    (.single (.alloc (fun c hc => ?_) (by simp [Kind.children]) fun c hc => ?_))
  · rw [Kind.attr.injEq] at heq
    exact hlabel heq.1
  · obtain rfl : c = t.size := by simpa [Kind.children] using hc
    exact ⟨hvalue.parent, hvalue.lt_size, (hvalue.free ht.linked ht.linked.nonempty).ne_root⟩
  · obtain rfl : c = t.size := by simpa [Kind.children] using hc
    rw [form_alloc_self]
    exact trivial

/-- A node can be appended where there are items. -/
theorem exists_append {t : Tree} {holder : NodeId} {items : List NodeId}
    (hitems : (t.kind holder).items? = some items) (new : NodeId) :
    ∃ t', t.append holder new = some t' := by
  unfold append
  rw [hitems]
  exact ⟨_, rfl⟩

/-- A node can be put behind an item of a parent that lists it. -/
theorem exists_insertAfter {t : Tree} {anchor above : NodeId} {items : List NodeId}
    (habove : t.parent anchor = some above) (hitems : (t.kind above).items? = some items)
    (hmem : anchor ∈ items) (new : NodeId) : ∃ t', t.insertAfter anchor new = some t' := by
  unfold insertAfter
  rw [habove]
  dsimp only [Option.bind_eq_bind, Option.bind_some]
  rw [hitems]
  simp [guard, hmem]

/-- Annotating ends where the annotation there was is extended, where a new one is
put in, or where nothing is to be done.  It fails nowhere. -/
theorem annotate_cases {t : Tree} (ht : t.Sound) (a : Annotator)
    {insert : NodeId → Tree → Option Tree} {P : Tree → Prop} (target : NodeId)
    (attributes : List NodeId) (classes : Text) (hoff : P t)
    (hextend : ∀ t', a.extend attributes classes.collapse t = some t' → P t')
    (hinsert : ∀ {u new}, Adds t u new → (a.label ≠ Vocabulary.shorthand → Supplies t u) →
      u.form new = .attr → u.attributeName new = some a.label →
      ∃ u', insert new u = some u' ∧ P u') :
    (a.annotate insert target attributes classes t).failure = none ∧
      P (a.annotate insert target attributes classes t).tree := by
  unfold Annotator.annotate
  split
  case isTrue =>
    cases hextended : a.extend attributes classes.collapse t with
    | some t' => exact ⟨rfl, hextend _ hextended⟩
    | none =>
      obtain ⟨hadds, hform⟩ := adds_fresh ht.linked a classes.collapse
      have hname := attributeName_fresh a classes.collapse t
      have hsupplies (hlabel : a.label ≠ Vocabulary.shorthand) :=
        supplies_fresh ht hlabel classes.collapse
      generalize a.fresh classes.collapse t = run at *
      obtain ⟨new, u⟩ := run
      dsimp only at *
      obtain ⟨u', hinserted, hu'⟩ := hinsert hadds hsupplies hform hname
      rw [hinserted]
      exact ⟨rfl, hu'⟩
  case isFalse => exact ⟨rfl, hoff⟩

/-- What a tag lists is what it listed before nodes were added. -/
theorem Adds.attributes_eq {t u : Tree} {new opening : NodeId} (hadds : Adds t u new)
    (hopening : t.form opening = .opening) (hlt : opening < t.size) {items : List NodeId}
    (hitems : (u.kind opening).items? = some items) : t.attributes opening = items := by
  have hopeningu : u.form opening = .opening := by rw [hadds.form_eq hlt, hopening]
  have hchildren := Option.some.inj ((items_eq_children (Or.inl hopeningu)).symm.trans hitems)
  rw [attributes_eq_children hopening, ← hchildren, children, children, hadds.kind_eq hlt]

/-- A tag is annotated at its end. -/
theorem annotated_attachTo {t : Tree} (ht : t.Sound) (a : Annotator) {opening : NodeId}
    (hopening : t.form opening = .opening) {attributes : List NodeId}
    (hattributes : ∀ b ∈ attributes, t.attributeName b = some a.label → t.parent b = some opening)
    (classes : Text) (anchor : NodeId) :
    (a.attachTo opening attributes classes t).failure = none ∧
      Annotated a.label t (a.attachTo opening attributes classes t).tree opening ∧
      Noted a.label t (a.attachTo opening attributes classes t).tree opening anchor := by
  have hlt : opening < t.size := lt_size_of_form (by rw [hopening]; decide)
  refine annotate_cases (P := fun t' => Annotated a.label t t' opening ∧
    Noted a.label t t' opening anchor) ht a _ attributes classes ⟨.refl .., .refl ..⟩
    (fun t' h => ⟨annotated_extend ht hopening hattributes h, noted_extend ht hopening h anchor⟩) ?_
  intro u new hadds hsupplies hform hname
  have hopeningu : u.form opening = .opening := by rw [hadds.form_eq hlt, hopening]
  obtain ⟨u', happend⟩ := exists_append (items_eq_children (Or.inl hopeningu)) new
  refine ⟨u', happend, ?_⟩
  have hmove : Move u u' := by
    refine .append happend (lt_size_of_form (by rw [hopeningu]; decide))
      (hadds.free ht.linked hlt) ?_
    rw [hopeningu, hform]
    rfl
  obtain ⟨items, hitems, rfl⟩ := append_eq_some happend
  have hlist : t.attributes opening = items := hadds.attributes_eq hopening hlt hitems
  have hedit := editAt_setItems (lt_size_of_form (by rw [hopeningu]; decide)) hadds.lt_size
    (items ++ [new])
  have hsplit : t.attributes opening = items ++ [] := hlist.trans (List.append_nil _).symm
  have hend : items ++ [new] = items ++ [new] ++ [] := (List.append_nil _).symm
  exact ⟨.insert ht hopening hadds hname hmove hsplit hend hedit,
    .insert ht hopening hadds hsupplies hmove hsplit (hlist ▸ id) hend hedit⟩

/-- A tag is annotated behind one of its attributes. -/
theorem annotated_attachAfter {t : Tree} (ht : t.Sound) (a : Annotator) {style opening : NodeId}
    (hparent : t.parent style = some opening) (hopening : t.form opening = .opening)
    {attributes : List NodeId}
    (hattributes : ∀ b ∈ attributes, t.attributeName b = some a.label → t.parent b = some opening)
    (classes : Text) :
    (a.attachAfter style attributes classes t).failure = none ∧
      Annotated a.label t (a.attachAfter style attributes classes t).tree opening ∧
      Noted a.label t (a.attachAfter style attributes classes t).tree opening style := by
  have hlt : opening < t.size := ht.linked.parent_lt_size hparent
  refine annotate_cases (P := fun t' => Annotated a.label t t' opening ∧
    Noted a.label t t' opening style) ht a _ attributes classes ⟨.refl .., .refl ..⟩
    (fun t' h => ⟨annotated_extend ht hopening hattributes h, noted_extend ht hopening h style⟩) ?_
  intro u new hadds hsupplies hform hname
  have hopeningu : u.form opening = .opening := by rw [hadds.form_eq hlt, hopening]
  have hparentu : u.parent style = some opening := by
    rw [hadds.parent_eq (lt_size_of_parent hparent), hparent]
  obtain ⟨u', hinsert⟩ := exists_insertAfter hparentu (items_eq_children (Or.inl hopeningu))
    ((hadds.moves.sound ht).linked.mem_children.mpr hparentu) new
  refine ⟨u', hinsert, ?_⟩
  have hmove : Move u u' := by
    refine .insertAfter hinsert hparentu (hadds.free ht.linked hlt) ?_
    rw [hopeningu, hform]
    rfl
  obtain ⟨above, items, habove, hitems, hmem, rfl⟩ := insertAfter_eq_some hinsert
  obtain rfl := Option.some.inj (hparentu.symm.trans habove)
  have hlist : t.attributes opening = items := hadds.attributes_eq hopening hlt hitems
  obtain ⟨xs, ys, rfl, hxs⟩ := List.eq_append_cons_of_mem hmem
  have hsplit : t.attributes opening = (xs ++ [style]) ++ ys := by
    rw [hlist, List.append_assoc, List.singleton_append]
  have hinserted : insertBehind style new (xs ++ style :: ys) = xs ++ [style] ++ [new] ++ ys := by
    rw [insertBehind_append hxs]
    simp
  have hedit := editAt_setItems (lt_size_of_form (by rw [hopeningu]; decide)) hadds.lt_size
    (insertBehind style new (xs ++ style :: ys))
  exact ⟨.insert ht hopening hadds hname hmove hsplit hinserted hedit,
    .insert ht hopening hadds hsupplies hmove hsplit (fun _ => by simp) hinserted hedit⟩

end Tree

end JsxStyle
