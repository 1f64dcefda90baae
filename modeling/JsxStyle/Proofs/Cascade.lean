import JsxStyle.Compile
import JsxStyle.Proofs.Forest
import JsxStyle.Proofs.Restyled

/-!
# The order of styles after all attributes

All attributes of a module are restyled, in the order of the source.  Seen from
one tag, only its own attributes with a class string count: the first becomes a
style attribute if the tag has none, and every other one adds its style behind
those that are there.  Whatever happens to other tags in between, also to tags
inside the style expression, does not show here, since restyling an attribute
changes nothing but what belongs to its own tag.

A tag goes through two stages.  It is *plain* as long as it is as it was read, and
it is *styled* when it has a style attribute with an expression; a third kind of
tag, with a style attribute that has none, is *blocked* for good.

* `styled_convert`, `Styled.merge`: what one attribute with a class string does;
* `Styled.elsewhere`, `Blocked.elsewhere`: what the others do not;
* `plain_run`, `Styled.run`, `Blocked.run`: all attributes later;
* `styles_in_order`: what the stages say at the end.
-/

namespace JsxStyle

/-- Restyles one attribute and goes on if that fails. -/
def Draft.visit (s : Stylist) (d : Draft) (attr : NodeId) : Draft :=
  if d.tree.isAttached attr then
    let step := s.restyleAttribute attr d.tree
    { tree := step.tree
      seen := d.seen.note (d.tree.attributeName attr)
      failures := d.failures ++ step.failure.toList }
  else d

/-- With failures noted down, restyling an attribute is visiting it. -/
theorem Draft.restyleAttribute_eq_visit (s : Stylist) (d : Draft) (attr : NodeId) :
    d.restyleAttribute true s attr = .ok (d.visit s attr) := by
  unfold restyleAttribute visit
  split
  · dsimp only
    cases hf : (s.restyleAttribute attr d.tree).failure with
    | none => simp
    | some e => simp [report]
  · rfl

/-- Going on after failures, restyling attributes always comes to an end. -/
theorem Draft.foldlM_eq_visits (s : Stylist) (attributes : List NodeId) (d : Draft) :
    attributes.foldlM (restyleAttribute true s) d = .ok (attributes.foldl (visit s) d) := by
  induction attributes generalizing d with
  | nil => rfl
  | cons attr rest ih =>
    rw [List.foldlM_cons, restyleAttribute_eq_visit, List.foldl_cons]
    exact ih _

namespace Tree

/-- A node shows the call that stands for the class string `r` at run time. -/
def Shows (t : Tree) (callee : Text) (n : NodeId) (r : Text) : Prop :=
  ∃ ast, Generator.runtimeCall callee r = .ok ast ∧ t.Depicts n ast

/-- The parts of a style expression: the elements of an array, or the expression itself. -/
def parts (t : Tree) (expression : NodeId) : List NodeId :=
  match t.kind expression with
  | .array elements => elements
  | _ => [expression]

section Frames

variable {label : Text} {t t' : Tree} {p : NodeId}

/-- A style is nothing that has to stay where it is. -/
theorem StylePart.not_steady {n : NodeId} (h : t.StylePart label p n)
    (hp : t.form p = .opening) : ¬ (t.form n).Steady := by
  cases h with
  | tag => rw [hp]; exact id
  | labelled _ hkind => rw [form, hkind]; exact id
  | braces _ _ hform => rw [hform]; exact id
  | array _ _ _ hform => rw [hform]; exact id

/-- Calls stay what they are. -/
theorem Reworked.shows (h : Reworked label t t' p) (ht : t.Sound) (hp : t.form p = .opening)
    {callee r : Text} {n : NodeId} (hn : t.Shows callee n r) : t'.Shows callee n r := by
  obtain ⟨ast, hast, hdepicts⟩ := hn
  refine ⟨ast, hast, hdepicts.keep (Generator.steady_runtimeCall hast) (h.moves.size_le ht) ?_⟩
  intro m hm hsteady
  refine ⟨?_, h.span m hm⟩
  rcases h.kind m hm with hk | hpart
  · exact hk
  · exact absurd hsteady (hpart.not_steady hp)

/-- A tag is not changed by what happens to another one. -/
theorem Reworked.kind_tag (h : Reworked label t t' p) {o : NodeId} (ho : t.form o = .opening)
    (hne : o ≠ p) : t'.kind o = t.kind o := by
  rcases h.kind o (lt_size_of_form (by rw [ho]; decide)) with hk | hpart
  · exact hk
  · cases hpart with
    | tag => exact absurd rfl hne
    | labelled _ hkind =>
      exact absurd (ho.symm.trans (congrArg Kind.form hkind)) (by simp [Kind.form])
    | braces _ _ hform => exact absurd (ho.symm.trans hform) (by decide)
    | array _ _ _ hform => exact absurd (ho.symm.trans hform) (by decide)

/-- Neither are its attributes, not even its annotations. -/
theorem Reworked.kind_attribute (h : Reworked label t t' p) (ht : t.Sound)
    (hp : t.form p = .opening)
    {o a : NodeId} (ho : t.form o = .opening) (hne : o ≠ p) (ha : t.parent a = some o) :
    t'.kind a = t.kind a := by
  rcases h.kind a (lt_size_of_parent ha) with hk | hpart
  · exact hk
  · -- Whatever the restyled tag may change hangs elsewhere.
    cases hpart with
    | tag =>
      have hadm := ht.shaped (ht.linked.mem_children.mpr ha)
      rw [ho, hp] at hadm
      exact absurd hadm (by simp [Form.Admits])
    | labelled ha' _ => exact absurd (Option.some.inj (ha.symm.trans ha')) hne
    | braces _ hkind _ =>
      have ha' := ht.linked.parent_of_kind hkind (c := a) (by simp [Kind.children])
      obtain rfl := Option.some.inj (ha.symm.trans ha')
      exact absurd (ho.symm.trans (congrArg Kind.form hkind)) (by simp [Kind.form])
    | array _ _ hkind _ =>
      have ha' := ht.linked.parent_of_kind hkind (c := a) (by simp [Kind.children])
      obtain rfl := Option.some.inj (ha.symm.trans ha')
      exact absurd (ho.symm.trans (congrArg Kind.form hkind)) (by simp [Kind.form])

/-- Its style attributes have the expressions that they had. -/
theorem Reworked.styleExpression_eq (h : Reworked label t t' p) (ht : t.Sound)
    (hp : t.form p = .opening) {o style : NodeId} (ho : t.form o = .opening) (hne : o ≠ p)
    (hstyle : t.parent style = some o) : t'.styleExpression style = t.styleExpression style := by
  have hvalue : t'.attributeValue style = t.attributeValue style := by
    rw [attributeValue, h.kind_attribute ht hp ho hne hstyle, attributeValue]
  unfold styleExpression
  rw [hvalue]
  cases hc : t.attributeValue style with
  | none => rfl
  | some c =>
    obtain ⟨name, hkind⟩ := attributeValue_eq_some hc
    have hcstyle : t.parent c = some style :=
      ht.linked.parent_of_kind hkind (by simp [Kind.children])
    have hform : t.form style = .attr := congrArg Kind.form hkind
    have hck : t'.kind c = t.kind c := by
      rcases h.kind c (lt_size_of_parent hcstyle) with hk | hpart
      · exact hk
      · cases hpart with
        | tag =>
          have hadm := ht.shaped (ht.linked.mem_children.mpr hcstyle)
          rw [hform, hp] at hadm
          exact absurd hadm (by simp [Form.Admits])
        | labelled hc' _ =>
          obtain rfl := Option.some.inj (hcstyle.symm.trans hc')
          exact absurd (hform.symm.trans hp) (by decide)
        | braces hstyle' hkind' _ =>
          have hc' := ht.linked.parent_of_kind hkind' (c := c) (by simp [Kind.children])
          obtain rfl := Option.some.inj (hcstyle.symm.trans hc')
          exact absurd (Option.some.inj (hstyle.symm.trans hstyle')) hne
        | array _ _ hcontainer _ =>
          have hc' := ht.linked.parent_of_kind hcontainer (c := c) (by simp [Kind.children])
          obtain rfl := Option.some.inj (hcstyle.symm.trans hc')
          exact absurd (hform.symm.trans (congrArg Kind.form hcontainer)) (by simp [Kind.form])
    rw [Option.map_eq_map, Option.map_eq_map, Option.map_some, Option.map_some, hck]

/-- Neither are the braces of a style attribute of its own, nor an array in them. -/
theorem Reworked.kind_style (h : Reworked label t t' p) (ht : t.Sound) (hp : t.form p = .opening)
    (hlabel : label ≠ Vocabulary.style) {o style c e : NodeId}
    (hstyle : t.parent style = some o) (hne : o ≠ p)
    (hkind : t.kind style = .attr Vocabulary.style (some c))
    (hc : t.kind c = .container (some e)) :
    t'.kind style = t.kind style ∧ t'.kind c = t.kind c ∧
      (t.form e = .array → t'.kind e = t.kind e) := by
  have hcstyle : t.parent c = some style := ht.linked.parent_of_kind hkind (by simp [Kind.children])
  have hec : t.parent e = some c := ht.linked.parent_of_kind hc (by simp [Kind.children])
  have hother {style' : NodeId} (hstyle' : t.parent style' = some p)
      (hkind' : t.kind style' = .attr Vocabulary.style (some c)) : False := by
    have hc' : t.parent c = some style' := ht.linked.parent_of_kind hkind' (by simp [Kind.children])
    obtain rfl := Option.some.inj (hcstyle.symm.trans hc')
    exact hne (Option.some.inj (hstyle.symm.trans hstyle'))
  refine ⟨?_, ?_, fun harray => ?_⟩
  · rcases h.kind style (lt_size_of_parent hstyle) with hk | hpart
    · exact hk
    · exact absurd (hpart.label_of_attr hp hkind).symm hlabel
  · rcases h.kind c (lt_size_of_parent hcstyle) with hk | hpart
    · exact hk
    · have hform : t.form c = .container := congrArg Kind.form hc
      cases hpart with
      | tag => exact absurd (hp.symm.trans hform) (by decide)
      | labelled _ hkind' =>
        exact absurd (hform.symm.trans (congrArg Kind.form hkind')) (by simp [Kind.form])
      | braces hstyle' hkind' _ => exact (hother hstyle' hkind').elim
      | array _ _ _ hform' => exact absurd (hform.symm.trans hform') (by decide)
  · rcases h.kind e (lt_size_of_parent hec) with hk | hpart
    · exact hk
    · cases hpart with
      | tag => exact absurd (hp.symm.trans harray) (by decide)
      | labelled _ hkind' =>
        exact absurd (harray.symm.trans (congrArg Kind.form hkind')) (by simp [Kind.form])
      | braces _ _ hform' => exact absurd (harray.symm.trans hform') (by decide)
      | array hstyle' hkind' hcontainer _ =>
        have he' := ht.linked.parent_of_kind hcontainer (c := e) (by simp [Kind.children])
        obtain rfl := Option.some.inj (hec.symm.trans he')
        exact (hother hstyle' hkind').elim

end Frames

/-- What the stages below take for granted: styles are calls left to run time, the
annotation has a name of its own, and the store to begin with is a sound module. -/
structure Regular (s : Stylist) (callee : Text) (t₀ : Tree) : Prop where
  generate : s.generate = Generator.runtimeCall callee
  label : s.annotator.label ≠ Vocabulary.shorthand ∧ s.annotator.label ≠ Vocabulary.style
  sound : t₀.Sound
  program : t₀.form root = .program

/-- A store on the way from `t₀`, with the places that nodes and the class strings that
attributes had there. -/
structure Underway (t₀ t : Tree) : Prop where
  moves : Moves t₀ t
  span : ∀ n < t₀.size, t.span n = t₀.span n
  classes : ∀ n < t₀.size, t.classes n = t₀.classes n

theorem Underway.refl (t : Tree) : Underway t t :=
  ⟨.refl, fun _ _ => rfl, fun _ _ => rfl⟩

/-- A tag with a style attribute that has an expression.  `others` are its attributes
besides the annotation, `style` is the first style attribute among them, and in its
braces stand `base` and the calls for `rs`, in an array unless it is only one and
never was in one. -/
structure Styled (label callee : Text) (t : Tree) (o style : NodeId) (wasArray : Prop)
    (base others : List NodeId) (rs : List Text) : Prop where
  attached : t.isAttached o = true
  besides : t.besides label o = others
  named : t.attributeNamed others Vocabulary.style = some style
  holds : ∃ c e gs, t.kind style = .attr Vocabulary.style (some c) ∧
    t.kind c = .container (some e) ∧ List.Forall₂ (t.Shows callee) gs rs ∧
    (t.kind e = .array (base ++ gs) ∧ (wasArray ∨ 2 ≤ (base ++ gs).length) ∨
      ¬ wasArray ∧ base ++ gs = [e] ∧ t.form e ≠ .array)

section Steps

variable {s : Stylist} {callee : Text} {t₀ : Tree} {d : Draft} {o x : NodeId}

/-- The attribute of a name depends on nothing but the names. -/
theorem attributeNamed_congr {t t' : Tree} {l : List NodeId} {name : Text}
    (h : ∀ a ∈ l, t'.attributeName a = t.attributeName a) :
    t'.attributeNamed l name = t.attributeNamed l name := by
  unfold attributeNamed
  induction l with
  | nil => rfl
  | cons a rest ih =>
    rw [List.find?_cons, List.find?_cons, h a List.mem_cons_self,
      ih fun b hb => h b (List.mem_cons_of_mem _ hb)]

/-- An annotation is never taken for another attribute. -/
theorem attributeNamed_besides {t : Tree} {label name : Text} (hne : label ≠ name) (o : NodeId) :
    t.attributeNamed (t.besides label o) name = t.attributeNamed (t.attributes o) name := by
  unfold attributeNamed besides
  rw [List.find?_filter]
  refine congrArg (List.find? · _) (funext fun a => ?_)
  by_cases ha : t.attributeName a = some name
  · simp [ha, Ne.symm hne]
  · simp [ha]

/-- An attribute of another name can be left out of the search. -/
theorem attributeNamed_without {t : Tree} {name : Text} (hx : t.attributeName x ≠ some name)
    (l : List NodeId) : t.attributeNamed (l.filter (· ≠ x)) name = t.attributeNamed l name := by
  unfold attributeNamed
  rw [List.find?_filter]
  refine congrArg (List.find? · _) (funext fun a => ?_)
  by_cases ha : a = x
  · subst ha
    simp [hx]
  · by_cases hn : t.attributeName a = some name
    · simp [ha, hn]
    · simp [ha, hn]

/-- A visit changes the store as restyling does, if the attribute is still in the tree. -/
theorem tree_visit (s : Stylist) (d : Draft) (x : NodeId) :
    (d.visit s x).tree =
      if d.tree.isAttached x then (s.restyleAttribute x d.tree).tree else d.tree := by
  unfold Draft.visit
  split <;> rfl

/-- No failure is forgotten. -/
theorem failures_visit (s : Stylist) (d : Draft) (x : NodeId) :
    ∃ new, (d.visit s x).failures = d.failures ++ new := by
  unfold Draft.visit
  split
  · exact ⟨_, rfl⟩
  · exact ⟨[], (List.append_nil _).symm⟩

/-- An attached node other than the root has a parent. -/
theorem Linked.exists_parent {t : Tree} (ht : t.Linked) {n : NodeId} (hn : t.isAttached n = true)
    (hroot : n ≠ root) : ∃ p, t.parent n = some p := by
  rcases Relation.ReflTransGen.cases_head (ht.isAttached_iff.mp hn) with h | ⟨p, hp, -⟩
  · exact absurd h hroot
  · exact ⟨p, hp⟩

/-- Visiting an attribute changes what belongs to one tag at most, and only if that is the
tag the attribute stands in and it has a class string. -/
theorem visit_cases (hr : Regular s callee t₀) (hd : Underway t₀ d.tree) (hx : x < t₀.size) :
    (d.visit s x).tree = d.tree ∨ ∃ p, d.tree.parent x = some p ∧ (t₀.classes x).isSome ∧
      d.tree.form p = .opening ∧ Reworked s.annotator.label d.tree (d.visit s x).tree p := by
  have ht := hd.moves.sound hr.sound
  rw [tree_visit]
  split
  case isTrue hattached =>
    cases hc : t₀.classes x with
    | none => exact Or.inl (Stylist.restyleAttribute_of_none ((hd.classes x hx).trans hc))
    | some r =>
      have hc' := (hd.classes x hx).trans hc
      obtain ⟨value, hkind⟩ := attributeName_eq_some (classes_eq_some hc').1
      have hne : x ≠ root := by
        intro heq
        subst heq
        have hform := (hd.moves.form_eq hr.sound hx).trans hr.program
        rw [form, hkind] at hform
        exact absurd hform (by simp [Kind.form])
      obtain ⟨p, hp⟩ := ht.linked.exists_parent hattached hne
      rcases Stylist.reworked_restyleAttribute ht hr.generate hr.label hc' hp with h | h
      · exact Or.inl h
      · exact Or.inr ⟨p, hp, rfl, (Stylist.restyleAttribute_of_some (s := s) ht hc' hp).1, h⟩
  case isFalse => exact Or.inl rfl

/-- Visits lead on. -/
theorem Underway.visit (hr : Regular s callee t₀) (hd : Underway t₀ d.tree) (hx : x < t₀.size) :
    Underway t₀ (d.visit s x).tree := by
  rcases visit_cases hr hd hx with h | ⟨p, -, -, hp, h⟩
  · rwa [h]
  · have ht := hd.moves.sound hr.sound
    have hle := hd.moves.size_le hr.sound
    refine ⟨hd.moves.trans h.moves, fun n hn => ?_, fun n hn => ?_⟩
    · rw [h.span n (Nat.lt_of_lt_of_le hn hle), hd.span n hn]
    · rw [h.classes_eq ht hp hr.label.1 (Nat.lt_of_lt_of_le hn hle), hd.classes n hn]

/-- A visit to an attribute that does not stand in the tag `o`, or has no class string,
leaves `o` to itself. -/
theorem visit_elsewhere (hr : Regular s callee t₀) (hd : Underway t₀ d.tree) (hx : x < t₀.size)
    (hx' : ¬ (d.tree.parent x = some o ∧ (t₀.classes x).isSome)) :
    (d.visit s x).tree = d.tree ∨ ∃ p, o ≠ p ∧ d.tree.form p = .opening ∧
      Reworked s.annotator.label d.tree (d.visit s x).tree p := by
  rcases visit_cases hr hd hx with h | ⟨p, hp, hc, hform, h⟩
  · exact Or.inl h
  · refine Or.inr ⟨p, ?_, hform, h⟩
    intro heq
    subst heq
    exact hx' ⟨hp, hc⟩

/-- Work on one opening tag leaves the other attributes of every other tag. -/
theorem Reworked.besides_eq {label : Text} {t t' : Tree} {p : NodeId} (h : Reworked label t t' p)
    (ht : t.Sound) (ho : t.form o = .opening) (hne : o ≠ p) :
    t'.besides label o = t.besides label o := by
  unfold besides
  rw [attributes_congr (h.kind_tag ho hne)]
  refine List.filter_congr fun a ha => ?_
  rw [h.moves.attributeName_eq ht (lt_size_of_mem_attributes ht.linked ho ha)]

/-- A styled tag is not changed by what happens to another one. -/
theorem Styled.elsewhere {label : Text} {t t' : Tree} {p style : NodeId} {wasArray : Prop}
    {base others : List NodeId} {rs : List Text} (hlabel : label ≠ Vocabulary.style) (ht : t.Sound)
    (ho : t.form o = .opening) (hp : t.form p = .opening) (hne : o ≠ p)
    (h : Styled label callee t o style wasArray base others rs) (hw : Reworked label t t' p) :
    Styled label callee t' o style wasArray base others rs := by
  obtain ⟨c, e, gs, hstyle, hc, hshows, hcontent⟩ := h.holds
  have hmem : ∀ a ∈ others, a ∈ t.attributes o := by
    intro a ha
    rw [← h.besides] at ha
    exact List.mem_of_mem_filter ha
  have hparent : t.parent style = some o := by
    rw [← ht.linked.mem_children, ← attributes_eq_children ho]
    exact hmem style (List.mem_of_find?_eq_some h.named)
  obtain ⟨hstyle', hc', he'⟩ := hw.kind_style ht hp hlabel hparent hne hstyle hc
  refine ⟨hw.attached o ho h.attached, (hw.besides_eq ht ho hne).trans h.besides, ?_, c, e, gs,
    hstyle'.trans hstyle, hc'.trans hc, hshows.imp fun _ _ hg => hw.shows ht hp hg, ?_⟩
  · rw [← h.named]
    refine attributeNamed_congr fun a ha => ?_
    exact hw.moves.attributeName_eq ht (lt_size_of_mem_attributes ht.linked ho (hmem a ha))
  · rcases hcontent with ⟨harray, hlen⟩ | ⟨hwas, honly, hform⟩
    · exact Or.inl ⟨(he' (congrArg Kind.form harray)).trans harray, hlen⟩
    · refine Or.inr ⟨hwas, honly, ?_⟩
      have helt :=
        lt_size_of_parent (ht.linked.parent_of_kind hc (c := e) (by simp [Kind.children]))
      rwa [hw.moves.form_eq ht helt]

/-- The expression of a style is read off its container. -/
theorem styleExpression_of_kind {t : Tree} {style c : NodeId} {name : Text} {e : Option NodeId}
    (hstyle : t.kind style = .attr name (some c)) (hc : t.kind c = .container e) :
    t.styleExpression style = e := by
  unfold styleExpression attributeValue
  rw [hstyle]
  dsimp only
  rw [Option.map_eq_map, Option.map_some, hc]

/-- What is below a node in the tree is in the tree. -/
theorem isAttached_of_parent {t : Tree} (ht : t.Linked) {n p : NodeId} (hp : t.parent n = some p)
    (h : t.isAttached p = true) : t.isAttached n = true := by
  rw [ht.isAttached_iff] at h ⊢
  exact .head hp h

/-- A visit to an attribute of a styled tag with a class string puts a call behind the others. -/
theorem Styled.merge (hr : Regular s callee t₀) (hd : Underway t₀ d.tree) (hx : x < t₀.size)
    {style : NodeId} {wasArray : Prop} {base others : List NodeId} {rs : List Text} {r : Text}
    (h : Styled s.annotator.label callee d.tree o style wasArray base others rs)
    (hp : d.tree.parent x = some o) (hc : t₀.classes x = some r) :
    Styled s.annotator.label callee (d.visit s x).tree o style wasArray base
      (others.filter (· ≠ x)) (rs ++ [r]) := by
  have ht := hd.moves.sound hr.sound
  have hc' := (hd.classes x hx).trans hc
  have hplain : s.generate.Plain := fun _ _ hast => Or.inl ⟨callee, hr.generate ▸ hast⟩
  obtain ⟨hname, hclasses⟩ := classes_eq_some hc'
  obtain ⟨ho, hstep⟩ := Stylist.restyleAttribute_of_some (s := s) ht hc' hp
  obtain ⟨c, e, gs, hstyle, hcont, hshows, hcontent⟩ := h.holds
  have hnamed : d.tree.attributeNamed (d.tree.attributes o) Vocabulary.style = some style := by
    rw [← attributeNamed_besides hr.label.2, h.besides, h.named]
  have hexpression : d.tree.styleExpression style = some e := styleExpression_of_kind hstyle hcont
  obtain ⟨ast, hast⟩ : ∃ ast, Generator.runtimeCall callee r = .ok ast := ⟨_, rfl⟩
  obtain ⟨hw, hmerged⟩ := Stylist.merged ht hplain hname hp ho hclasses (hr.generate ▸ hast)
    (Generator.steady_runtimeCall hast) hnamed hexpression
  have htree : (d.visit s x).tree = (s.merge x style o r d.tree).tree := by
    rw [tree_visit, if_pos (isAttached_of_parent ht.linked hp h.attached), hstep, hnamed]
  rw [htree]
  generalize (s.merge x style o r d.tree).tree = t' at *
  obtain ⟨c', e', styles, hstyle₁, hcont₁, hdepicts, hcases⟩ := hmerged.holds
  obtain rfl : c = c' := by
    rw [hstyle, Kind.attr.injEq] at hstyle₁
    exact Option.some.inj hstyle₁.2
  obtain rfl : e = e' := by
    rw [hcont, Kind.container.injEq] at hcont₁
    exact Option.some.inj hcont₁
  have hshows' : List.Forall₂ (t'.Shows callee) (gs ++ [styles]) (rs ++ [r]) :=
    List.rel_append (hshows.imp fun _ _ hg => hw.shows ht ho hg) (.cons ⟨ast, hast, hdepicts⟩ .nil)
  refine ⟨hw.attached o ho h.attached, by rw [hmerged.besides, h.besides], ?_, ?_⟩
  · have hcss : d.tree.attributeName x ≠ some Vocabulary.style := by
      rw [hname]
      decide
    rw [← h.named, ← attributeNamed_without hcss]
    refine attributeNamed_congr fun a ha => hw.moves.attributeName_eq ht ?_
    have hmem : a ∈ d.tree.besides s.annotator.label o := h.besides ▸ List.mem_of_mem_filter ha
    exact lt_size_of_mem_attributes ht.linked ho (List.mem_of_mem_filter hmem)
  · rcases hcases with ⟨xs, hxs, hexp, hcont'⟩ | ⟨hform, array, hcont', harray⟩
    · refine ⟨c, e, gs ++ [styles], hmerged.kept.trans hstyle, hcont', hshows', Or.inl ⟨?_, ?_⟩⟩
      · rcases hcontent with ⟨harr, -⟩ | ⟨-, -, hno⟩
        · rw [harr, Kind.array.injEq] at hxs
          rw [hexp, ← hxs, List.append_assoc]
        · exact absurd (congrArg Kind.form hxs) hno
      · rcases hcontent with ⟨-, hlen⟩ | ⟨-, -, hno⟩
        · refine hlen.imp id fun hlen => ?_
          simp only [List.length_append] at hlen ⊢
          omega
        · exact absurd (congrArg Kind.form hxs) hno
    · refine ⟨c, array, gs ++ [styles], hmerged.kept.trans hstyle, hcont', hshows', Or.inl ⟨?_, ?_⟩⟩
      · rcases hcontent with ⟨harr, -⟩ | ⟨-, honly, -⟩
        · exact absurd (congrArg Kind.form harr) hform
        · rw [harray, ← List.append_assoc, honly]
          rfl
      · rcases hcontent with ⟨harr, -⟩ | ⟨-, honly, -⟩
        · exact absurd (congrArg Kind.form harr) hform
        · refine Or.inr ?_
          rw [← List.append_assoc, honly]
          exact Nat.le_refl _

/-- An element is replaced where it first occurs. -/
theorem replace_of_split {xs ys : List NodeId} {new : NodeId} (hxs : x ∉ xs) :
    (xs ++ x :: ys).replace x new = xs ++ new :: ys := by
  rw [List.replace_append_right hxs, List.replace_cons_self]

/-- A visit to an attribute with a class string styles a tag that has no style attribute. -/
theorem styled_convert (hr : Regular s callee t₀) (hd : Underway t₀ d.tree) (hx : x < t₀.size)
    (hattached : d.tree.isAttached o = true)
    (hnone : d.tree.attributeNamed (d.tree.attributes o) Vocabulary.style = none)
    (hp : d.tree.parent x = some o) {r : Text} (hc : t₀.classes x = some r) :
    ∃ style, d.tree.size ≤ style ∧
      Styled s.annotator.label callee (d.visit s x).tree o style False []
      ((d.tree.besides s.annotator.label o).replace x style) [r] := by
  have ht := hd.moves.sound hr.sound
  have hc' := (hd.classes x hx).trans hc
  have hplain : s.generate.Plain := fun _ _ hast => Or.inl ⟨callee, hr.generate ▸ hast⟩
  obtain ⟨hname, hclasses⟩ := classes_eq_some hc'
  obtain ⟨ho, hstep⟩ := Stylist.restyleAttribute_of_some (s := s) ht hc' hp
  obtain ⟨ast, hast⟩ : ∃ ast, Generator.runtimeCall callee r = .ok ast := ⟨_, rfl⟩
  obtain ⟨hw, style, hconverted⟩ := Stylist.converted ht hplain hname hp ho hclasses
    (hr.generate ▸ hast) (Generator.steady_runtimeCall hast) hr.label
  have htree : (d.visit s x).tree = (s.convert x (d.tree.attributes o) r d.tree).tree := by
    rw [tree_visit, if_pos (isAttached_of_parent ht.linked hp hattached), hstep, hnone]
  rw [htree]
  generalize (s.convert x (d.tree.attributes o) r d.tree).tree = t' at *
  obtain ⟨c, g, hstyle, hcont, hdepicts⟩ := hconverted.holds
  have hform : t'.form g = .call := by
    obtain rfl := Except.ok.inj hast
    exact hdepicts.form_eq
  refine ⟨style, hconverted.fresh, hw.attached o ho hattached, hconverted.besides, ?_, c, g, [g],
    hstyle, hcont, .cons ⟨ast, hast, hdepicts⟩ .nil, Or.inr ⟨id, rfl, by rw [hform]; decide⟩⟩
  -- No attribute that was there is called a style, so the new one is the first.
  have hmem : x ∈ d.tree.besides s.annotator.label o := by
    refine List.mem_filter.mpr ⟨?_, ?_⟩
    · rw [attributes_eq_children ho]
      exact ht.linked.mem_children.mpr hp
    · rw [hname]
      simpa using hr.label.1.symm
  have hothers : ∀ a ∈ d.tree.besides s.annotator.label o,
      ¬ (t'.attributeName a == some Vocabulary.style) = true := by
    intro a ha
    have hmem := List.mem_of_mem_filter ha
    rw [hw.moves.attributeName_eq ht (lt_size_of_mem_attributes ht.linked ho hmem)]
    exact List.find?_eq_none.mp hnone a hmem
  obtain ⟨xs, ys, hsplit, hxs⟩ := List.eq_append_cons_of_mem hmem
  rw [hsplit] at hothers ⊢
  rw [replace_of_split hxs]
  unfold attributeNamed
  rw [List.find?_append, List.find?_eq_none.mpr fun a ha => hothers a (List.mem_append_left _ ha),
    Option.none_or, List.find?_cons_of_pos]
  rw [attributeName, hstyle]
  exact beq_self_eq_true _

end Steps

/-- Whether an attribute counts for the tag `o`: it stands there and has a class string. -/
def counted (t : Tree) (o attr : NodeId) : Bool :=
  t.parent attr = some o && (t.classes attr).isSome

/-- The attributes of a tag that count are those below it with classes to give. -/
theorem counted_iff {t : Tree} {o attr : NodeId} :
    t.counted o attr = true ↔ t.parent attr = some o ∧ ∃ r, t.classes attr = some r := by
  rw [counted, Bool.and_eq_true, decide_eq_true_eq, Option.isSome_iff_exists]

section Runs

variable {s : Stylist} {callee : Text} {t₀ : Tree} {d : Draft} {o style : NodeId}

/-- Leaving out one more element is leaving it out first. -/
theorem filter_without_cons {α : Type} [DecidableEq α] (x : α) (ys l : List α) :
    l.filter (· ∉ x :: ys) = (l.filter (· ≠ x)).filter (· ∉ ys) := by
  rw [List.filter_filter]
  refine List.filter_congr fun y _ => ?_
  by_cases hyx : y = x
  · simp [hyx]
  · simp [hyx]

/-- What stands in the tag `o` now and has a class string is among its other attributes. -/
theorem mem_besides_of_parent {t : Tree} (hr : Regular s callee t₀) (hd : Underway t₀ t)
    (ho : t.form o = .opening) {x : NodeId} (hx : x < t₀.size) (hp : t.parent x = some o)
    (hc : (t₀.classes x).isSome) : x ∈ t.besides s.annotator.label o := by
  have ht := hd.moves.sound hr.sound
  obtain ⟨r, hrx⟩ := Option.isSome_iff_exists.mp hc
  have hname := (classes_eq_some ((hd.classes x hx).trans hrx)).1
  refine List.mem_filter.mpr ⟨?_, ?_⟩
  · rw [attributes_eq_children ho]
    exact ht.linked.mem_children.mpr hp
  · rw [hname]
    simpa using hr.label.1.symm

/-- Visits to all of `todo` put the calls for the attributes that count behind the others,
in their order, and take those attributes out. -/
theorem Styled.run (hr : Regular s callee t₀) (ho₀ : t₀.form o = .opening) {wasArray : Prop}
    {base others : List NodeId} {rs : List Text} {todo : List NodeId}
    (hlt : ∀ x ∈ todo, x < t₀.size) (hd : Underway t₀ d.tree)
    (h : Styled s.annotator.label callee d.tree o style wasArray base others rs)
    (hin : ∀ x ∈ todo, t₀.counted o x = true → x ∈ others)
    (hback : ∀ y ∈ others, y < t₀.size → t₀.parent y = some o)
    (hnodup : (todo.filter (t₀.counted o)).Nodup) :
    Styled s.annotator.label callee (todo.foldl (Draft.visit s) d).tree o style wasArray base
      (others.filter (· ∉ todo.filter (t₀.counted o)))
      (rs ++ (todo.filter (t₀.counted o)).filterMap t₀.classes) := by
  induction todo generalizing d others rs with
  | nil => simpa using h
  | cons x rest ih =>
    have hx := hlt x List.mem_cons_self
    have ht := hd.moves.sound hr.sound
    have ho : d.tree.form o = .opening := by
      rw [hd.moves.form_eq hr.sound (lt_size_of_form (by rw [ho₀]; decide)), ho₀]
    have hd' := hd.visit hr hx
    have hlt' : ∀ y ∈ rest, y < t₀.size := fun y hy => hlt y (List.mem_cons_of_mem _ hy)
    rw [List.foldl_cons]
    by_cases hcount : t₀.counted o x = true
    · obtain ⟨hp₀, r, hc⟩ := counted_iff.mp hcount
      have hmem : x ∈ d.tree.attributes o := by
        have hmem := hin x List.mem_cons_self hcount
        rw [← h.besides] at hmem
        exact List.mem_of_mem_filter hmem
      rw [attributes_eq_children ho, ht.linked.mem_children] at hmem
      have hnext := h.merge hr hd hx hmem hc
      rw [List.filter_cons_of_pos hcount, List.nodup_cons] at hnodup
      rw [List.filter_cons_of_pos hcount, List.filterMap_cons_some hc, filter_without_cons,
        List.append_cons]
      refine ih hlt' hd' hnext (fun y hy hyc => ?_) (fun y hy => ?_) hnodup.2
      · refine List.mem_filter.mpr ⟨hin y (List.mem_cons_of_mem _ hy) hyc, ?_⟩
        have hne : y ≠ x := fun e => hnodup.1 (e ▸ List.mem_filter.mpr ⟨hy, hyc⟩)
        simpa using hne
      · exact hback y (List.mem_of_mem_filter hy)
    · rw [List.filter_cons_of_neg hcount]
      rw [List.filter_cons_of_neg hcount] at hnodup
      refine ih hlt' hd' ?_ (fun y hy => hin y (List.mem_cons_of_mem _ hy)) hback hnodup
      have hout : ¬ (d.tree.parent x = some o ∧ (t₀.classes x).isSome) := by
        intro h
        obtain ⟨hp, hc⟩ := h
        have hmem := mem_besides_of_parent hr hd ho hx hp hc
        rw [h.besides] at hmem
        exact hcount (counted_iff.mpr ⟨hback x hmem hx, Option.isSome_iff_exists.mp hc⟩)
      rcases visit_elsewhere hr hd hx hout with hsame | ⟨p, hne, hp, hw⟩
      · rwa [hsame]
      · exact h.elsewhere hr.label.2 ht ho hp hne hw

/-- A tag without a style attribute that is as it was read gets one from the first
attribute that counts, and is styled from then on. -/
theorem plain_run (hr : Regular s callee t₀) (ho₀ : t₀.form o = .opening)
    (hnone : t₀.attributeNamed (t₀.attributes o) Vocabulary.style = none) {todo : List NodeId}
    (hlt : ∀ x ∈ todo, x < t₀.size) (hd : Underway t₀ d.tree)
    (hattached : d.tree.isAttached o = true) (hkind : d.tree.kind o = t₀.kind o)
    (hnodup : (todo.filter (t₀.counted o)).Nodup) {first : NodeId} {more : List NodeId}
    (hsplit : todo.filter (t₀.counted o) = first :: more) :
    ∃ style, t₀.size ≤ style ∧
      Styled s.annotator.label callee (todo.foldl (Draft.visit s) d).tree o style False []
        (((t₀.besides s.annotator.label o).replace first style).filter (· ∉ more))
        ((first :: more).filterMap t₀.classes) := by
  induction todo generalizing d with
  | nil => exact absurd hsplit (by simp)
  | cons x rest ih =>
    have hx := hlt x List.mem_cons_self
    have ht := hd.moves.sound hr.sound
    have holt : o < t₀.size := lt_size_of_form (by rw [ho₀]; decide)
    have ho : d.tree.form o = .opening := by rw [hd.moves.form_eq hr.sound holt, ho₀]
    have hd' := hd.visit hr hx
    have hlt' : ∀ y ∈ rest, y < t₀.size := fun y hy => hlt y (List.mem_cons_of_mem _ hy)
    have hattributes : d.tree.attributes o = t₀.attributes o := attributes_congr hkind
    have hnames : ∀ a ∈ t₀.attributes o, d.tree.attributeName a = t₀.attributeName a := fun a ha =>
      hd.moves.attributeName_eq hr.sound (lt_size_of_mem_attributes hr.sound.linked ho₀ ha)
    have hbesides : d.tree.besides s.annotator.label o = t₀.besides s.annotator.label o := by
      unfold besides
      rw [hattributes]
      exact List.filter_congr fun a ha => by rw [hnames a ha]
    rw [List.foldl_cons]
    by_cases hcount : t₀.counted o x = true
    · rw [List.filter_cons_of_pos hcount] at hsplit hnodup
      obtain ⟨rfl, rfl⟩ := List.cons.inj hsplit
      obtain ⟨hp₀, r, hc⟩ := counted_iff.mp hcount
      have hp : d.tree.parent x = some o := by
        rw [← ht.linked.mem_children, children, hkind]
        exact hr.sound.linked.mem_children.mpr hp₀
      have hnone' : d.tree.attributeNamed (d.tree.attributes o) Vocabulary.style = none := by
        rw [hattributes, attributeNamed_congr hnames, hnone]
      obtain ⟨style, hfresh, hstyled⟩ := styled_convert hr hd hx hattached hnone' hp hc
      have hfresh₀ : t₀.size ≤ style := Nat.le_trans (hd.moves.size_le hr.sound) hfresh
      have hown : ∀ y, t₀.counted o y = true → y ∈ t₀.besides s.annotator.label o := by
        intro y hy
        obtain ⟨hyp, hyc⟩ := counted_iff.mp hy
        exact mem_besides_of_parent hr (.refl t₀) ho₀ (lt_size_of_parent hyp) hyp
          (Option.isSome_iff_exists.mpr hyc)
      have hnodup₀ : (t₀.besides s.annotator.label o).Nodup := by
        unfold besides
        rw [attributes_eq_children ho₀]
        exact (hr.sound.linked.nodup o).filter _
      refine ⟨style, hfresh₀, ?_⟩
      rw [hbesides] at hstyled
      have hdone := hstyled.run hr ho₀ hlt' hd' (fun y hy hyc => ?_) (fun y hy hylt => ?_)
        (List.nodup_cons.mp hnodup).2
      · rw [List.filterMap_cons_some hc]
        exact hdone
      · have hne : y ≠ x := fun e =>
          (List.nodup_cons.mp hnodup).1 (e ▸ List.mem_filter.mpr ⟨hy, hyc⟩)
        exact (mem_replace_iff hnodup₀ (hown x hcount)).mpr (Or.inr ⟨hown y hyc, hne⟩)
      · rcases (mem_replace_iff hnodup₀ (hown x hcount)).mp hy with rfl | ⟨hmem, -⟩
        · exact absurd hylt (Nat.not_lt.mpr hfresh₀)
        · have hmem := List.mem_of_mem_filter hmem
          rwa [attributes_eq_children ho₀, hr.sound.linked.mem_children] at hmem
    · rw [List.filter_cons_of_neg hcount] at hsplit hnodup
      have hout : ¬ (d.tree.parent x = some o ∧ (t₀.classes x).isSome) := by
        intro h
        obtain ⟨hp, hc⟩ := h
        rw [← ht.linked.mem_children, children, hkind] at hp
        exact hcount (counted_iff.mpr ⟨hr.sound.linked.mem_children.mp hp,
          Option.isSome_iff_exists.mp hc⟩)
      rcases visit_elsewhere hr hd hx hout with hsame | ⟨p, hne, hp, hw⟩
      · refine ih hlt' hd' ?_ ?_ hnodup hsplit
        · rwa [hsame]
        · rwa [hsame]
      · exact ih hlt' hd' (hw.attached o ho hattached) ((hw.kind_tag ho hne).trans hkind)
          hnodup hsplit

/-- A tag whose style attribute has no expression stays as it was read. -/
structure Blocked (t₀ t : Tree) (o style : NodeId) : Prop where
  attached : t.isAttached o = true
  tag : t.kind o = t₀.kind o
  attributes : ∀ a ∈ t₀.attributes o, t.kind a = t₀.kind a
  blank : t.styleExpression style = none

/-- Work on another opening tag leaves one blocked that was. -/
theorem Blocked.elsewhere {label : Text} {t t' : Tree} {p : NodeId}
    (ht : t.Sound) (ho₀ : t₀.form o = .opening) (hp : t.form p = .opening) (hne : o ≠ p)
    (hstyle : style ∈ t₀.attributes o) (h : Blocked t₀ t o style)
    (hw : Reworked label t t' p) : Blocked t₀ t' o style := by
  have ho : t.form o = .opening := (congrArg Kind.form h.tag).trans ho₀
  have hparent : ∀ a ∈ t₀.attributes o, t.parent a = some o := by
    intro a ha
    rw [attributes_eq_children ho₀] at ha
    rw [← ht.linked.mem_children, children, h.tag]
    exact ha
  refine ⟨hw.attached o ho h.attached, (hw.kind_tag ho hne).trans h.tag, fun a ha => ?_, ?_⟩
  · rw [hw.kind_attribute ht hp ho hne (hparent a ha), h.attributes a ha]
  · rw [hw.styleExpression_eq ht hp ho hne (hparent style hstyle), h.blank]

/-- Every attribute of a blocked tag that counts fails, and nothing else happens to the tag. -/
theorem Blocked.run (hr : Regular s callee t₀) (ho₀ : t₀.form o = .opening)
    (hstyle : t₀.attributeNamed (t₀.attributes o) Vocabulary.style = some style)
    {todo : List NodeId} (hlt : ∀ x ∈ todo, x < t₀.size) (hd : Underway t₀ d.tree)
    (h : Blocked t₀ d.tree o style) :
    Blocked t₀ (todo.foldl (Draft.visit s) d).tree o style ∧
      d.failures.count ⟨.emptyStyle, t₀.span style⟩ + (todo.filter (t₀.counted o)).length ≤
        (todo.foldl (Draft.visit s) d).failures.count ⟨.emptyStyle, t₀.span style⟩ := by
  induction todo generalizing d with
  | nil => exact ⟨h, Nat.le_refl _⟩
  | cons x rest ih =>
    have hx := hlt x List.mem_cons_self
    have ht := hd.moves.sound hr.sound
    have ho : d.tree.form o = .opening := (congrArg Kind.form h.tag).trans ho₀
    have hd' := hd.visit hr hx
    have hlt' : ∀ y ∈ rest, y < t₀.size := fun y hy => hlt y (List.mem_cons_of_mem _ hy)
    have hmem : style ∈ t₀.attributes o := List.mem_of_find?_eq_some hstyle
    rw [List.foldl_cons]
    by_cases hcount : t₀.counted o x = true
    · obtain ⟨hp₀, r, hc⟩ := counted_iff.mp hcount
      have hp : d.tree.parent x = some o := by
        rw [← ht.linked.mem_children, children, h.tag]
        exact hr.sound.linked.mem_children.mpr hp₀
      have hnames : ∀ a ∈ t₀.attributes o, d.tree.attributeName a = t₀.attributeName a := by
        intro a ha
        rw [attributeName, h.attributes a ha, attributeName]
      have hnamed : d.tree.attributeNamed (d.tree.attributes o) Vocabulary.style = some style := by
        rw [attributes_congr h.tag, attributeNamed_congr hnames, hstyle]
      have hspan : d.tree.span style = t₀.span style :=
        hd.span style (lt_size_of_mem_attributes hr.sound.linked ho₀ hmem)
      have hstep : s.restyleAttribute x d.tree =
          ⟨d.tree, some ⟨.emptyStyle, t₀.span style⟩⟩ := by
        rw [(Stylist.restyleAttribute_of_some ht ((hd.classes x hx).trans hc) hp).2, hnamed]
        dsimp only
        unfold Stylist.merge
        rw [h.blank, hspan]
      have hvisit : (d.visit s x).tree = d.tree ∧
          (d.visit s x).failures = d.failures ++ [⟨.emptyStyle, t₀.span style⟩] := by
        unfold Draft.visit
        rw [if_pos (isAttached_of_parent ht.linked hp h.attached), hstep]
        exact ⟨rfl, rfl⟩
      obtain ⟨hblocked, hmore⟩ := ih hlt' hd' (by rwa [hvisit.1])
      refine ⟨hblocked, ?_⟩
      rw [hvisit.2, List.count_append, List.count_singleton_self] at hmore
      rw [List.filter_cons_of_pos hcount, List.length_cons]
      omega
    · have hout : ¬ (d.tree.parent x = some o ∧ (t₀.classes x).isSome) := by
        intro h
        obtain ⟨hp, hc⟩ := h
        rw [← ht.linked.mem_children, children, h.tag] at hp
        exact hcount (counted_iff.mpr ⟨hr.sound.linked.mem_children.mp hp,
          Option.isSome_iff_exists.mp hc⟩)
      have hnext : Blocked t₀ (d.visit s x).tree o style := by
        rcases visit_elsewhere hr hd hx hout with hsame | ⟨p, hne, hp, hw⟩
        · rwa [hsame]
        · exact h.elsewhere ht ho₀ hp hne hmem hw
      obtain ⟨hblocked, hmore⟩ := ih hlt' hd' hnext
      obtain ⟨new, hnew⟩ := failures_visit s d x
      rw [hnew, List.count_append] at hmore
      rw [List.filter_cons_of_neg hcount]
      exact ⟨hblocked, by omega⟩

end Runs

section Results

variable {settings : Settings} {t₀ : Tree} {o : NodeId}

/-- Among the attributes of a module, those that count for a tag stand as in the tag. -/
theorem filter_counted (ht₀ : t₀.Linked) (ho : t₀.form o = .opening)
    (hmem : o ∈ t₀.descendants root) :
    ((t₀.descendants root).filter fun id => t₀.form id = .attr).filter (t₀.counted o) =
      (t₀.attributes o).filter fun a => (t₀.classes a).isSome := by
  have hwithin : t₀.Within o root := (ht₀.mem_descendants_iff.mp hmem).to_reflTransGen
  rw [attributes_eq_children ho, ← ht₀.filter_descendants hwithin, List.filter_filter,
    List.filter_filter]
  refine List.filter_congr fun x _ => ?_
  unfold counted
  by_cases hc : (t₀.classes x).isSome = true
  · simp [hc, form_of_classes hc]
  · simp [hc]

/-- What gives nothing can be left out before. -/
theorem filterMap_filter_isSome {α β : Type} (f : α → Option β) (l : List α) :
    (l.filter fun a => (f a).isSome).filterMap f = l.filterMap f := by
  induction l with
  | nil => rfl
  | cons a rest ih =>
    cases hf : f a with
    | none => rw [List.filter_cons_of_neg (by simp [hf]), List.filterMap_cons_none hf, ih]
    | some b =>
      rw [List.filter_cons_of_pos (by simp [hf]), List.filterMap_cons_some hf,
        List.filterMap_cons_some hf, ih]

/-- As much is picked as gives something. -/
theorem length_filterMap_isSome {α β : Type} (f : α → Option β) (l : List α) :
    (l.filterMap f).length = (l.filter fun a => (f a).isSome).length := by
  induction l with
  | nil => rfl
  | cons a rest ih =>
    cases hf : f a with
    | none => rw [List.filter_cons_of_neg (by simp [hf]), List.filterMap_cons_none hf, ih]
    | some b =>
      rw [List.filter_cons_of_pos (by simp [hf]), List.filterMap_cons_some hf, List.length_cons,
        List.length_cons, ih]

/-- The module after the visits to all its attributes. -/
def visited (s : Stylist) (t : Tree) : Draft :=
  ((t.descendants root).filter fun id => t.form id = .attr).foldl (Draft.visit s) { tree := t }

/-- The tag `o` got its only style attribute in place of the first attribute with a class
string, for all of them; without those, its other attributes are as they were. -/
structure StyleAdded (label callee : Text) (t₀ t : Tree) (o style : NodeId) (rs : List Text) :
    Prop where
  attached : t.isAttached o = true
  place : ∃ before first after, t₀.besides label o = before ++ first :: after ∧
    (∀ a ∈ before, t₀.classes a = none) ∧ (t₀.classes first).isSome ∧
    t.besides label o = before ++ style :: after.filter fun a => t₀.classes a = none
  only : (t.attributes o).filter (fun a => t.attributeName a = some Vocabulary.style) = [style]
  holds : ∃ e gs, t.styleExpression style = some e ∧ List.Forall₂ (t.Shows callee) gs rs ∧
    (rs.length = 1 → gs = [e]) ∧ (1 < rs.length → t.kind e = .array gs)

/-- The first style attribute of the tag `o` holds what it held and then the styles of the
class strings; without those, its other attributes are as they were. -/
structure StyleExtended (label callee : Text) (t₀ t : Tree) (o style : NodeId) (rs : List Text) :
    Prop where
  attached : t.isAttached o = true
  first : t.attributeNamed (t.attributes o) Vocabulary.style = some style
  besides : t.besides label o = (t₀.besides label o).filter fun a => t₀.classes a = none
  holds : ∃ expression e gs, t₀.styleExpression style = some expression ∧
    t.styleExpression style = some e ∧ t.kind e = .array (t₀.parts expression ++ gs) ∧
    List.Forall₂ (t.Shows callee) gs rs

variable {s : Stylist} {callee : Text}

/-- Settings with a label of its own for annotations make a regular run over what was read. -/
theorem Regular.of_settings {settings : Settings} {source : Text}
    (hshorthand : settings.debug.label ≠ Vocabulary.shorthand)
    (hstyle : settings.debug.label ≠ Vocabulary.style) (hread : ofSource source = .ok t₀) :
    Regular settings.stylist settings.generator.callee t₀ := by
  refine ⟨rfl, ⟨hshorthand, hstyle⟩, sound_ofSource hread, ?_⟩
  obtain ⟨body, -, rfl⟩ := map_eq_ok.mp hread
  obtain ⟨ids, hkind, -⟩ := (ofBody_holds source body).program
  exact congrArg Kind.form hkind

/-- The attributes to visit are in the store. -/
theorem lt_size_of_mem_snapshot {x : NodeId}
    (hx : x ∈ (t₀.descendants root).filter fun id => t₀.form id = .attr) : x < t₀.size := by
  have hform : t₀.form x = .attr := by simpa using (List.mem_filter.mp hx).2
  exact lt_size_of_form (by rw [hform]; decide)

/-- A run over some of the attributes stays underway. -/
theorem Underway.run (hr : Regular s callee t₀) {todo : List NodeId}
    (hlt : ∀ x ∈ todo, x < t₀.size) {d : Draft} (hd : Underway t₀ d.tree) :
    Underway t₀ (todo.foldl (Draft.visit s) d).tree := by
  induction todo generalizing d with
  | nil => exact hd
  | cons x rest ih =>
    rw [List.foldl_cons]
    exact ih (fun y hy => hlt y (List.mem_cons_of_mem _ hy))
      (hd.visit hr (hlt x List.mem_cons_self))

/-- So does the run over all of them. -/
theorem underway_visited (hr : Regular s callee t₀) : Underway t₀ (visited s t₀).tree :=
  Underway.run hr (fun _ => lt_size_of_mem_snapshot) (.refl t₀)

/-- An attribute with a class string is not an annotation. -/
theorem filter_besides (hr : Regular s callee t₀) :
    (t₀.besides s.annotator.label o).filter (fun a => (t₀.classes a).isSome) =
      (t₀.attributes o).filter fun a => (t₀.classes a).isSome := by
  unfold besides
  rw [List.filter_filter]
  refine List.filter_congr fun a _ => ?_
  by_cases hc : (t₀.classes a).isSome = true
  · obtain ⟨r, hr'⟩ := Option.isSome_iff_exists.mp hc
    simpa [hc, (classes_eq_some hr').1] using hr.label.1.symm
  · simp [hc]

/-- What is not among the elements that pass does not pass. -/
theorem filter_not_mem_filter {α : Type} [DecidableEq α] (p : α → Bool) (l : List α) :
    l.filter (· ∉ l.filter p) = l.filter fun a => !p a := by
  refine List.filter_congr fun a ha => ?_
  simp [List.mem_filter, ha]

/-- The first element that passes is replaced, the others that do are left out. -/
theorem replace_filter_of_split {p : NodeId → Bool} {before after more : List NodeId}
    {first new : NodeId} (hbefore : ∀ a ∈ before, ¬ p a = true) (hfirst : p first = true)
    (hmore : after.filter p = more) (hnew : new ∉ more) :
    ((before ++ first :: after).replace first new).filter (· ∉ more) =
      before ++ new :: after.filter fun a => !p a := by
  have hnot : first ∉ before := fun hin => hbefore first hin hfirst
  have hkeep : before.filter (· ∉ more) = before := by
    refine List.filter_eq_self.mpr fun a ha => ?_
    have hno : a ∉ more := by
      intro hin
      rw [← hmore] at hin
      exact hbefore a ha (List.mem_filter.mp hin).2
    simpa using hno
  rw [replace_of_split hnot, List.filter_append, hkeep,
    List.filter_cons_of_pos (by simpa using hnew), ← hmore, filter_not_mem_filter]

/-- Annotations do not have the names of the other attributes. -/
theorem filter_named_besides {t : Tree} {label name : Text} (hne : label ≠ name) (o : NodeId) :
    (t.besides label o).filter (fun a => t.attributeName a = some name) =
      (t.attributes o).filter fun a => t.attributeName a = some name := by
  unfold besides
  rw [List.filter_filter]
  refine List.filter_congr fun a _ => ?_
  by_cases ha : t.attributeName a = some name
  · simp [ha, Ne.symm hne]
  · simp [ha]

/-- An opening tag without a style gets one from its class strings. -/
theorem styleAdded_visited (hr : Regular s callee t₀) (ho : t₀.form o = .opening)
    (hmem : o ∈ t₀.descendants root)
    (hnone : t₀.attributeNamed (t₀.attributes o) Vocabulary.style = none)
    (hne : (t₀.attributes o).filterMap t₀.classes ≠ []) :
    ∃ style, StyleAdded s.annotator.label callee t₀ (visited s t₀).tree o style
      ((t₀.attributes o).filterMap t₀.classes) := by
  have hcounted := filter_counted hr.sound.linked ho hmem
  have hnodup : ((t₀.attributes o).filter fun a => (t₀.classes a).isSome).Nodup := by
    rw [attributes_eq_children ho]
    exact (hr.sound.linked.nodup o).filter _
  obtain ⟨first, more, hsplit⟩ :
      ∃ first more, ((t₀.attributes o).filter fun a => (t₀.classes a).isSome) = first :: more := by
    refine List.exists_cons_of_ne_nil fun hnil => hne ?_
    rw [← filterMap_filter_isSome, hnil, List.filterMap_nil]
  have hattached := hr.sound.linked.isAttached_iff_mem_descendants.mpr (Or.inr hmem)
  obtain ⟨style, hfresh, h⟩ := plain_run (d := { tree := t₀ }) hr ho hnone
    (fun _ => lt_size_of_mem_snapshot) (.refl t₀) hattached rfl (hcounted ▸ hnodup)
    (hcounted.trans hsplit)
  have hrs : (first :: more).filterMap t₀.classes = (t₀.attributes o).filterMap t₀.classes := by
    rw [← hsplit, filterMap_filter_isSome]
  rw [hrs] at h
  change Styled _ _ (visited s t₀).tree _ _ _ _ _ _ at h
  have hd := underway_visited hr
  generalize (visited s t₀).tree = t at *
  -- The others are those before the first attribute with a class string and those after it.
  obtain ⟨before, after, hbesides, hbefore, hfirst, hmore⟩ :=
    List.filter_eq_cons_iff.mp ((filter_besides hr).trans hsplit)
  have hbefore' : ∀ a ∈ before, t₀.classes a = none := by
    intro a ha
    simpa using hbefore a ha
  have hbesides' : t.besides s.annotator.label o =
      before ++ style :: after.filter fun a => t₀.classes a = none := by
    have hstyle : style ∉ more := by
      intro hin
      rw [← hmore] at hin
      have hform := form_of_classes (List.mem_filter.mp hin).2
      exact absurd (lt_size_of_form (by rw [hform]; decide)) (Nat.not_lt.mpr hfresh)
    rw [h.besides, hbesides, replace_filter_of_split hbefore hfirst hmore hstyle]
    refine congrArg (before ++ style :: ·) (List.filter_congr fun a _ => ?_)
    cases t₀.classes a <;> simp
  have hnames :
      ∀ a ∈ t₀.besides s.annotator.label o, t.attributeName a ≠ some Vocabulary.style := by
    intro a ha
    have ha := List.mem_of_mem_filter ha
    rw [hd.moves.attributeName_eq hr.sound (lt_size_of_mem_attributes hr.sound.linked ho ha)]
    simpa using List.find?_eq_none.mp hnone a ha
  obtain ⟨c, e, gs, hstyle, hc, hshows, hcontent⟩ := h.holds
  refine ⟨style, h.attached, ⟨before, first, after, hbesides, hbefore', hfirst, hbesides'⟩, ?_,
    e, gs,
    styleExpression_of_kind hstyle hc, hshows, fun hone => ?_, fun hmany => ?_⟩
  · rw [← filter_named_besides hr.label.2, hbesides', List.filter_append]
    rw [hbesides] at hnames
    have hbeforeNil : before.filter (fun a => t.attributeName a = some Vocabulary.style) = [] := by
      refine List.filter_eq_nil_iff.mpr fun a ha => ?_
      simpa using hnames a (List.mem_append_left _ ha)
    have hafterNil : (after.filter fun a => t₀.classes a = none).filter
        (fun a => t.attributeName a = some Vocabulary.style) = [] := by
      refine List.filter_eq_nil_iff.mpr fun a ha => ?_
      have ha := List.mem_of_mem_filter ha
      simpa using hnames a (List.mem_append_right _ (List.mem_cons_of_mem _ ha))
    rw [hbeforeNil, List.filter_cons_of_pos (by simp [attributeName, hstyle]), hafterNil,
      List.nil_append]
  · rcases hcontent with ⟨-, hlen⟩ | ⟨-, honly, -⟩
    · have hlen := hlen.resolve_left id
      rw [List.nil_append, hshows.length_eq] at hlen
      omega
    · exact honly
  · rcases hcontent with ⟨harray, -⟩ | ⟨-, honly, -⟩
    · exact harray
    · rw [List.nil_append] at honly
      rw [← hshows.length_eq, honly] at hmany
      exact absurd hmany (by simp)

/-- An opening tag with a style that has an expression has it extended by its class strings. -/
theorem styleExtended_visited (hr : Regular s callee t₀) (ho : t₀.form o = .opening)
    (hmem : o ∈ t₀.descendants root) {style expression : NodeId}
    (hnamed : t₀.attributeNamed (t₀.attributes o) Vocabulary.style = some style)
    (hexpression : t₀.styleExpression style = some expression)
    (hne : (t₀.attributes o).filterMap t₀.classes ≠ []) :
    StyleExtended s.annotator.label callee t₀ (visited s t₀).tree o style
      ((t₀.attributes o).filterMap t₀.classes) := by
  have hcounted := filter_counted hr.sound.linked ho hmem
  have hattached := hr.sound.linked.isAttached_iff_mem_descendants.mpr (Or.inr hmem)
  obtain ⟨name, c, hstyle, hc⟩ := styleExpression_eq_some hexpression
  have hname : t₀.attributeName style = some Vocabulary.style := by
    simpa using List.find?_some hnamed
  obtain rfl : name = Vocabulary.style := by
    rw [attributeName, hstyle] at hname
    exact Option.some.inj hname
  have hstart : Styled s.annotator.label callee t₀ o style (t₀.form expression = .array)
      (t₀.parts expression) (t₀.besides s.annotator.label o) [] := by
    refine ⟨hattached, rfl, (attributeNamed_besides hr.label.2 o).trans hnamed, c, expression, [],
      hstyle, hc, .nil, ?_⟩
    rw [List.append_nil]
    cases hk : t₀.kind expression <;> simp [parts, form, hk, Kind.form]
  have h := hstart.run (d := { tree := t₀ }) hr ho (fun _ => lt_size_of_mem_snapshot) (.refl t₀)
    (fun y _ hy => ?_) (fun y hy _ => ?_) ?_
  · rw [hcounted, filterMap_filter_isSome, List.nil_append, ← filter_besides hr,
      filter_not_mem_filter] at h
    change Styled _ _ (visited s t₀).tree _ _ _ _ _ _ at h
    generalize (visited s t₀).tree = t at *
    obtain ⟨c', e, gs, hstyle', hc', hshows, hcontent⟩ := h.holds
    refine ⟨h.attached, ?_, ?_, expression, e, gs, hexpression, styleExpression_of_kind hstyle' hc',
      ?_, hshows⟩
    · rw [← attributeNamed_besides hr.label.2, h.besides, h.named]
    · rw [h.besides]
      refine List.filter_congr fun a _ => ?_
      cases t₀.classes a <;> simp
    · -- There is at least one call, so the expression is an array.
      rcases hcontent with ⟨harray, -⟩ | ⟨hno, honly, -⟩
      · exact harray
      · have hgs : gs ≠ [] := by
          intro heq
          subst heq
          exact hne (List.forall₂_nil_left_iff.mp hshows)
        have hparts : t₀.parts expression = [expression] := by
          cases hk : t₀.kind expression <;> simp_all [parts, form, Kind.form]
        rw [hparts] at honly
        exact absurd (List.append_eq_nil_iff.mp (List.cons.inj honly).2).2 hgs
  · obtain ⟨hyp, hyc⟩ := counted_iff.mp hy
    exact mem_besides_of_parent hr (.refl t₀) ho (lt_size_of_parent hyp) hyp
      (Option.isSome_iff_exists.mpr hyc)
  · have hy := List.mem_of_mem_filter hy
    rwa [attributes_eq_children ho, hr.sound.linked.mem_children] at hy
  · rw [hcounted, attributes_eq_children ho]
    exact (hr.sound.linked.nodup o).filter _

/-- An opening tag whose style has no expression is blocked, with a failure for each of its class
strings. -/
theorem blocked_visited (hr : Regular s callee t₀) (ho : t₀.form o = .opening)
    (hmem : o ∈ t₀.descendants root) {style : NodeId}
    (hnamed : t₀.attributeNamed (t₀.attributes o) Vocabulary.style = some style)
    (hblank : t₀.styleExpression style = none) :
    Blocked t₀ (visited s t₀).tree o style ∧ ((t₀.attributes o).filterMap t₀.classes).length ≤
      (visited s t₀).failures.count ⟨.emptyStyle, t₀.span style⟩ := by
  have hattached := hr.sound.linked.isAttached_iff_mem_descendants.mpr (Or.inr hmem)
  obtain ⟨hblocked, hcount⟩ := Blocked.run (d := { tree := t₀ }) hr ho hnamed
    (fun _ => lt_size_of_mem_snapshot) (.refl t₀) ⟨hattached, rfl, fun _ _ => rfl, hblank⟩
  refine ⟨hblocked, ?_⟩
  rw [filter_counted hr.sound.linked ho hmem, ← length_filterMap_isSome] at hcount
  exact Nat.le_trans (Nat.le_add_left _ _) hcount

/-- **The order of styles.**  After the attributes of a module are restyled, every tag that
had class strings in shorthand attributes shows their styles in the order of the attributes:
in a style attribute of their own, or behind what its first style attribute held.  A tag
whose first style attribute holds nothing is left as it was, with a failure for each. -/
theorem styles_in_order {settings : Settings} {source : Text} {t₀ : Tree}
    (hshorthand : settings.debug.label ≠ Vocabulary.shorthand)
    (hstyle : settings.debug.label ≠ Vocabulary.style) (hread : ofSource source = .ok t₀) :
    ∃ d, Draft.restyleAttributes true settings.stylist { tree := t₀ } = .ok d ∧
      ∀ o ∈ t₀.descendants root, t₀.form o = .opening →
        ∀ rs, (t₀.attributes o).filterMap t₀.classes = rs → rs ≠ [] →
          match t₀.attributeNamed (t₀.attributes o) Vocabulary.style with
          | none => ∃ style, StyleAdded settings.debug.label settings.generator.callee t₀ d.tree
              o style rs
          | some style =>
            match t₀.styleExpression style with
            | some _ => StyleExtended settings.debug.label settings.generator.callee t₀ d.tree
                o style rs
            | none => Blocked t₀ d.tree o style ∧
                rs.length ≤ d.failures.count ⟨.emptyStyle, t₀.span style⟩ := by
  have hr := Regular.of_settings hshorthand hstyle hread
  refine ⟨visited settings.stylist t₀, Draft.foldlM_eq_visits .., ?_⟩
  intro o hmem ho rs hrs hne
  subst hrs
  cases hnamed : t₀.attributeNamed (t₀.attributes o) Vocabulary.style with
  | none => exact styleAdded_visited hr ho hmem hnamed hne
  | some style =>
    dsimp only
    cases hexpression : t₀.styleExpression style with
    | some expression => exact styleExtended_visited hr ho hmem hnamed hexpression hne
    | none => exact blocked_visited hr ho hmem hnamed hexpression

/-- Two styles for the first tag, one more for the second, none for the third. -/
theorem three_tags_in_order :
    ∃ (t₀ : Tree) (d : Draft),
      ofSource (Text.ofString "<a tw='x' tw='y' /><b css={z} tw='w' /><i css tw='v' />") = .ok t₀ ∧
      Draft.restyleAttributes true (Settings.stylist {}) { tree := t₀ } = .ok d ∧
      (∃ style, StyleAdded (Text.ofString "data-tw") (Text.ofString "twStyles") t₀ d.tree 5 style
        [Text.ofString "x", Text.ofString "y"]) ∧
      StyleExtended (Text.ofString "data-tw") (Text.ofString "twStyles") t₀ d.tree 12 9
        [Text.ofString "w"] ∧
      Blocked t₀ d.tree 17 14 ∧ 1 ≤ d.failures.count ⟨.emptyStyle, t₀.span 14⟩ := by
  have hrun : ((ofSource
      (Text.ofString "<a tw='x' tw='y' /><b css={z} tw='w' /><i css tw='v' />")).toOption.any
      fun t₀ =>
        (5 ∈ t₀.descendants root ∧ t₀.form 5 = .opening ∧
          (t₀.attributes 5).filterMap t₀.classes = [Text.ofString "x", Text.ofString "y"] ∧
          t₀.attributeNamed (t₀.attributes 5) Vocabulary.style = none) ∧
        (12 ∈ t₀.descendants root ∧ t₀.form 12 = .opening ∧
          (t₀.attributes 12).filterMap t₀.classes = [Text.ofString "w"] ∧
          t₀.attributeNamed (t₀.attributes 12) Vocabulary.style = some 9 ∧
          t₀.styleExpression 9 = some 7) ∧
        17 ∈ t₀.descendants root ∧ t₀.form 17 = .opening ∧
          (t₀.attributes 17).filterMap t₀.classes = [Text.ofString "v"] ∧
          t₀.attributeNamed (t₀.attributes 17) Vocabulary.style = some 14 ∧
          t₀.styleExpression 14 = none) = true := by
    decide +kernel
  obtain ⟨t₀, hread, hfacts⟩ := exists_of_any hrun
  obtain ⟨⟨ha, haform, hars, hastyle⟩, ⟨hb, hbform, hbrs, hbstyle, hbexpression⟩, hi, hiform, hirs,
    histyle, hiexpression⟩ := of_decide_eq_true hfacts
  obtain ⟨d, hd, h⟩ := @styles_in_order {} _ t₀ (by decide) (by decide) hread
  have hfirst := h 5 ha haform _ hars (by simp)
  have hsecond := h 12 hb hbform _ hbrs (by simp)
  have hthird := h 17 hi hiform _ hirs (by simp)
  rw [hastyle] at hfirst
  simp only [hbstyle, hbexpression] at hsecond
  simp only [histyle, hiexpression] at hthird
  exact ⟨t₀, d, hread, hd, hfirst, hsecond, hthird.1, hthird.2⟩

end Results

end Tree

end JsxStyle
