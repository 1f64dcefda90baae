import JsxStyle.Proofs.Mappings
import JsxStyle.Proofs.Silent

/-!
# What stays in a module

A mapping is of use only if the node that it belongs to is still there when the module is
printed.  What takes the place of an attribute or of a template, a style attribute or a
call, is such a node: nothing that restyling does takes it out again.  Merging removes
a shorthand attribute and what is in it, and in there is no style attribute and no call;
a template that is replaced is known in advance, and has nothing but texts in it.

* `Kept`: places, style attributes and calls are left as they are;
* `Placed`: one node has come in the place of another and carries its place;
* `placed_convert`: a shorthand attribute makes way for a style attribute;
* `kept_restyleAttribute`: whatever an attribute becomes, what stays is kept.
-/

namespace JsxStyle

namespace Tree

/-- A call of `callee` with the classes of a module, as generators that leave classes to
the running program make it. -/
def IsCall (t : Tree) (callee classes : Text) (n : NodeId) : Prop :=
  ∃ name argument, t.kind n = .call name [argument] ∧ t.kind name = .ident callee ∧
    t.kind argument = .str classes.collapse '"' ∧ t.span name = none ∧ t.span argument = none

/-- A node that stays attached once it is: a style attribute or a call. -/
def IsLasting (t : Tree) (n : NodeId) : Prop :=
  t.attributeName n = some Vocabulary.style ∨ t.form n = .call

/-- A store after changes that leave places alone, supply no templates, and leave
style attributes and calls where they are found. -/
structure Kept (t t' : Tree) : Prop where
  moves : Moves t t'
  fresh : ∀ n, t.size ≤ n → t'.form n ≠ .template
  span : ∀ n < t.size, t'.span n = t.span n
  attached : ∀ n, t.IsLasting n → t.isAttached n = true → t'.isAttached n = true

/-- A store in which templates can be restyled: sound, with a hole between any two chunks of
a template, and a program at the root. -/
structure Ready (t : Tree) : Prop where
  sound : t.Sound
  paired : ∀ n, (t.kind n).Paired
  root : t.form root = .program

/-- In a module that was read templates can be restyled. -/
theorem ready_ofSource {source : Text} {t : Tree} (h : ofSource source = .ok t) : t.Ready where
  sound := sound_ofSource h
  paired := paired_ofSource h
  root := by
    obtain ⟨body, -, rfl⟩ := map_eq_ok.mp h
    obtain ⟨ids, hkind, -⟩ := (ofBody_holds source body).program
    rw [form, hkind]
    rfl

variable {t u t' : Tree} {n : NodeId}

/-- What lasts is an attribute or a call. -/
theorem IsLasting.form (h : t.IsLasting n) : t.form n = .attr ∨ t.form n = .call := by
  refine h.imp_left fun hname => ?_
  obtain ⟨value, hkind⟩ := attributeName_eq_some hname
  exact congrArg Kind.form hkind

theorem IsLasting.form_ne_str (h : t.IsLasting n) : t.form n ≠ .str := by
  rcases h.form with h | h <;> rw [h] <;> decide

theorem IsLasting.lt_size (h : t.IsLasting n) : n < t.size :=
  lt_size_of_form (by rcases h.form with h | h <;> rw [h] <;> decide)

theorem IsLasting.moves (h : t.IsLasting n) (ht : t.Sound) (hmoves : Moves t t') :
    t'.IsLasting n := by
  rw [IsLasting, hmoves.attributeName_eq ht h.lt_size, hmoves.form_eq ht h.lt_size]
  exact h

/-- No template lies outside the store. -/
theorem form_ne_template_of_size_le (hn : t.size ≤ n) : t.form n ≠ .template := by
  rw [form, kind_of_size_le hn]
  simp [Kind.form]

namespace Kept

theorem refl (t : Tree) : Kept t t where
  moves := .refl
  fresh _ := form_ne_template_of_size_le
  span _ _ := rfl
  attached _ _ h := h

theorem trans (h : Kept t u) (h' : Kept u t') (ht : t.Sound) : Kept t t' where
  moves := h.moves.trans h'.moves
  fresh n hn := by
    rcases Nat.lt_or_ge n u.size with hlt | hge
    · rw [h'.moves.form_eq (h.moves.sound ht) hlt]
      exact h.fresh n hn
    · exact h'.fresh n hge
  span n hn := by
    rw [h'.span n (Nat.lt_of_lt_of_le hn (h.moves.size_le ht)), h.span n hn]
  attached n hn hatt := h'.attached n (hn.moves ht h.moves) (h.attached n hn hatt)

/-- Where templates can be restyled, they can be when the store is kept. -/
theorem ready (h : Kept t t') (ht : t.Ready) : t'.Ready where
  sound := h.moves.sound ht.sound
  paired n := by
    by_cases hn : n < t.size
    · exact (h.moves.paired_iff ht.sound hn).mpr (ht.paired n)
    · have hform := h.fresh n (Nat.le_of_not_lt hn)
      unfold Tree.form at hform
      cases hk : t'.kind n <;> simp_all [Kind.form, Kind.Paired]
  root := (h.moves.form_eq ht.sound ht.sound.linked.nonempty).trans ht.root

end Kept

/-- A node stays attached if nothing on the way up is cut off. -/
theorem isAttached_of_uncut (ht : t.Linked) (ht' : t'.Linked) {n : NodeId} (hn : t.form n ≠ .str)
    (hattached : t.isAttached n = true) (cut : NodeId → Prop) (hcut : ∀ m, t.Within n m → ¬ cut m)
    (hlinks : ∀ m p, t.parent m = some p → t.form m ≠ .str → ¬ cut m → t'.Within m p) :
    t'.isAttached n = true := by
  refine isAttached_of_links ht ht' hattached fun m p hm hp => hlinks m p hp ?_ (hcut m hm)
  rcases Relation.ReflTransGen.cases_tail hm with rfl | ⟨c, -, hc⟩
  · exact hn
  · exact ht.form_ne_str hc

/-- Above an attached node other nodes are attached, and stand somewhere if they are not the
root. -/
theorem exists_above (ht : t.Linked) {a : NodeId} (hn : t.isAttached n = true)
    (hwithin : t.Within n a)
    (hroot : a ≠ root) : t.isAttached a = true ∧ ∃ above, t.parent a = some above := by
  have hunique : Relator.RightUnique t.Up := fun _ _ _ h h' => Option.some.inj (h.symm.trans h')
  have hattached : t.isAttached a = true := by
    rw [ht.isAttached_iff] at hn ⊢
    rcases Relation.ReflTransGen.total_of_right_unique hunique hwithin hn with h | h
    · exact h
    · rcases Relation.ReflTransGen.cases_head h with heq | ⟨p, hp, -⟩
      · exact absurd heq.symm hroot
      · exact absurd (ht.root_free.symm.trans hp) (by simp)
  exact ⟨hattached, ht.exists_parent hattached hroot⟩

/-- An annotation cuts off a string at most. -/
theorem Inscribed.parent_eq {label : Text} (h : Inscribed label t t') (ht : t.Linked)
    (ht' : t'.Linked) {m p : NodeId} (hp : t.parent m = some p) (hm : t.form m ≠ .str) :
    t'.parent m = some p := by
  have hmem := ht.mem_children.mpr hp
  rw [← ht'.mem_children]
  unfold children at hmem ⊢
  cases h.old p (ht.parent_lt_size hp) with
  | same hsame => rwa [hsame]
  | longer hkind hkind' =>
    rw [hkind] at hmem
    rw [hkind']
    simp only [Kind.children, List.mem_append, List.mem_cons] at hmem ⊢
    exact hmem.imp_right .inr
  | extended hkind hform =>
    rw [hkind] at hmem
    obtain rfl : m = _ := by simpa [Kind.children] using hmem
    exact absurd hform hm

/-- What is no string stays attached when an annotation is added. -/
theorem Inscribed.isAttached {label : Text} (h : Inscribed label t t') (ht : t.Sound)
    (ht' : t'.Sound)
    (hn : t.isAttached n = true) (hform : t.form n ≠ .str) : t'.isAttached n = true :=
  isAttached_of_uncut ht.linked ht'.linked hform hn (fun _ => False) (fun _ _ => id)
    fun _ _ hp hm _ => .single (h.parent_eq ht.linked ht'.linked hp hm)

/-- Adding an annotation keeps the store. -/
theorem Inscribed.kept {label : Text} (h : Inscribed label t t') (ht : t.Sound)
    (hmoves : Moves t t') : Kept t t' where
  moves := hmoves
  fresh n hn := by
    rcases Nat.lt_or_ge n t'.size with hlt | hge
    · rcases h.added n hn hlt with hform | ⟨s, hkind, -⟩
      · rw [hform]
        decide
      · rw [form, hkind]
        simp [Kind.form]
    · exact form_ne_template_of_size_le hge
  span := h.span_eq
  attached _ hn hatt := h.isAttached ht (hmoves.sound ht) hatt hn.form_ne_str

/-- The store `t'` has the node `new` in the place of `old`. -/
structure Placed (t t' : Tree) (old new : NodeId) : Prop where
  kept : Kept t t'
  behind : t.size ≤ new
  span : t'.span new = t.span old
  attached : t.isAttached old = true → t'.isAttached new = true

/-- What was added comes in the place of a node in which nothing is lasting. -/
theorem Adds.placed {old new above : NodeId} (hadds : Adds t u new) (ht : t.Sound)
    (hplain : ∀ n, t.size ≤ n → u.form n ≠ .template) (hparent : t.parent old = some above)
    (hadm : (t.form above).Admits (u.form new)) (hcut : ∀ n, t.IsLasting n → ¬ t.Within n old) :
    Placed t (u.replaceAt old new) old new ∧ EditAt (u.update new ({ · with span := u.span old }))
      (u.replaceAt old new) above ((u.kind above).replaceChild old new)
      fun n => if n = new then some above else if n = old then none else u.parent n := by
  have hu := hadds.moves.sound ht
  have hold := lt_size_of_parent hparent
  have habove := ht.linked.parent_lt_size hparent
  have hparentu : u.parent old = some above := (hadds.parent_eq hold).trans hparent
  have hmoves : Moves u (u.replaceAt old new) := by
    refine moves_replaceAt hu hadds.lt_size hadds.dirty fun p hp => ?_
    obtain rfl := Option.some.inj (hparentu.symm.trans hp)
    exact ⟨hadds.free ht.linked habove, by rwa [hadds.form_eq habove]⟩
  have hall : Moves t (u.replaceAt old new) := hadds.moves.trans hmoves
  have hfinal := (hall.sound ht).linked
  have hedit := editAt_replaceAt hu.linked hparentu hadds.lt_size hadds.dirty
  have hspan (n : NodeId) (hn : n ≠ new) : (u.replaceAt old new).span n = u.span n := by
    rw [hedit.span, span, node_update, if_neg fun h => hn h.1]
    rfl
  have hne {n : NodeId} (hn : n < t.size) : n ≠ new :=
    Nat.ne_of_lt (Nat.lt_of_lt_of_le hn hadds.behind)
  have huncut {n : NodeId} (hn : t.form n ≠ .str) (hatt : t.isAttached n = true)
      (hout : ¬ t.Within n old) : (u.replaceAt old new).isAttached n = true := by
    refine isAttached_of_uncut ht.linked hfinal hn hatt (· = old) ?_ ?_
    · rintro m hm rfl
      exact hout hm
    · intro m p hp _ hm
      refine .single ?_
      have hmlt := lt_size_of_parent hp
      rw [Up, hedit.parent, if_neg (hne hmlt), if_neg hm, hadds.parent_eq hmlt, hp]
  refine ⟨⟨⟨hall, fun n hn => ?_, fun n hn => ?_, fun n hn hatt => ?_⟩, hadds.behind, ?_,
    fun hatt => ?_⟩,
    hedit⟩
  · rcases Nat.lt_or_ge n u.size with hlt | hge
    · rw [hmoves.form_eq hu hlt]
      exact hplain n hn
    · refine form_ne_template_of_size_le ?_
      rw [hedit.size, size_update]
      exact hge
  · rw [hspan n (hne hn)]
    exact congrArg Node.span (hadds.old n hn)
  · exact huncut hn.form_ne_str hatt (hcut n hn)
  · have hself : (u.replaceAt old new).span new = u.span old := by
      rw [hedit.span, span, node_update, if_pos ⟨rfl, hadds.lt_size⟩]
    exact hself.trans (congrArg Node.span (hadds.old old hold))
  · have hroot : old ≠ root := by
      rintro rfl
      exact absurd (hparent.symm.trans ht.linked.root_free) (by simp)
    obtain ⟨p, hp, hpatt⟩ := (ht.linked.isAttached_iff_parent hroot).mp hatt
    obtain rfl := Option.some.inj (hparent.symm.trans hp)
    have habove' :=
      huncut (ht.linked.form_ne_str hparent) hpatt (ht.linked.not_within_of_parent hparent)
    exact isAttached_of_parent hfinal ((hedit.parent new).trans (if_pos rfl)) habove'

/-- Nothing lasting stands in a shorthand attribute with a class string. -/
theorem IsLasting.not_within_shorthand (h : t.IsLasting n) (ht : t.Linked) {attr : NodeId}
    {classes : Text} (hclasses : t.classes attr = some classes) : ¬ t.Within n attr := by
  intro hn
  obtain ⟨hname, hok⟩ := classes_eq_some hclasses
  have hattr : t.form attr = .attr := form_of_classes (by rw [hclasses]; rfl)
  rcases form_within_shorthand ht hattr hok hn with rfl | hform
  · rcases h with hstyle | hcall
    · exact absurd (hstyle.symm.trans hname) (by decide)
    · exact absurd (hcall.symm.trans hattr) (by decide)
  · rcases h.form with h | h <;> rw [h] at hform <;> exact absurd hform (by decide)

/-- Nothing lasting stands in a template that is known in advance. -/
theorem IsLasting.not_within_static (h : t.IsLasting n) (ht : t.Linked) {template : NodeId}
    {builder : Option Text} {classes : Text} (hpaired : (t.kind template).Paired)
    (hstatic : t.staticClasses template builder = some classes) : ¬ t.Within n template := by
  intro hn
  obtain ⟨htemplate, tag, htag, honly⟩ := within_static ht hpaired hstatic
  rcases honly n hn with rfl | rfl | hinert
  · rcases h.form with h | h <;> exact absurd (h.symm.trans htemplate) (by decide)
  · rcases h.form with h | h <;> exact absurd (h.symm.trans htag) (by decide)
  · rcases h.form with h | h <;> rw [h] at hinert <;> exact hinert

/-- A style that is joined to others cuts off the shorthand attribute it was made of. -/
theorem Joined.keeps {ast : Ast} {opening attr style : NodeId} {classes : Text}
    (h : Joined ast t u opening attr style) (ht : t.Sound)
    (hclasses : t.classes attr = some classes) :
    Kept t u where
  moves := (h.reworked []).moves
  fresh n hn := (h.supplies n hn).1
  span := (h.reworked []).span
  attached n hn hatt := by
    have hu := ((h.reworked []).moves.sound ht).linked
    refine isAttached_of_uncut ht.linked hu hn.form_ne_str hatt (· = attr) ?_ ?_
    · rintro m hm rfl
      exact hn.not_within_shorthand ht.linked hclasses hm
    · intro m p hp _ hm
      rcases h.parent m (lt_size_of_parent hp) with
          ⟨heq, -⟩ | ⟨-, hsame | ⟨array, -, -, -, hin, hout⟩⟩
      · exact absurd heq hm
      · exact .single (hsame.trans hp)
      · exact .head hin (.single (hout.trans hp))

end Tree

namespace Stylist

open JsxStyle.Tree

variable {t : Tree} {s : Stylist} {callee : Text} {attr opening : NodeId} {classes : Text}

/-- Annotating a tag behind one of its attributes does not fail. -/
theorem inscribed_behind (ht : t.Sound) (a : Annotator) {style : NodeId}
    (hparent : t.parent style = some opening) (hopening : t.form opening = .opening)
    (attributes : List NodeId) (classes : Text) :
    Inscribed a.label t (a.attachAfter style attributes classes t).tree := by
  have hlt := ht.linked.parent_lt_size hparent
  refine inscribed_attachAfter ht a hparent hopening ?_
  refine (annotate_cases (P := fun _ => True) ht a style attributes classes trivial
    (fun _ _ => trivial) fun {u new} hadds _ _ _ => ?_).1
  have hopeningu : u.form opening = .opening := by rw [hadds.form_eq hlt, hopening]
  have hparentu : u.parent style = some opening :=
    (hadds.parent_eq (lt_size_of_parent hparent)).trans hparent
  obtain ⟨u', hinsert⟩ := exists_insertAfter hparentu (items_eq_children (Or.inl hopeningu))
    ((hadds.moves.sound ht).linked.mem_children.mpr hparentu) new
  exact ⟨u', hinsert, trivial⟩

/-- Converting a shorthand attribute puts a style attribute in its place. -/
theorem placed_convert (ht : t.Sound) (hs : s.generate = Generator.runtimeCall callee)
    (hclasses : t.classes attr = some classes) (hparent : t.parent attr = some opening)
    (hopening : t.form opening = .opening) (attributes : List NodeId) :
    ∃ style, Placed t (s.convert attr attributes classes t).tree attr style ∧
      (s.convert attr attributes classes t).tree.attributeName style = some Vocabulary.style := by
  have hplain : s.generate.Plain := fun _ _ hast => Or.inl ⟨callee, hs ▸ hast⟩
  have hlt := ht.linked.parent_lt_size hparent
  obtain ⟨ast, hast⟩ : ∃ ast, s.generate classes = .ok ast := ⟨_, by rw [hs]; rfl⟩
  have hsupplies := supplies_graft ht.linked (Generator.steady_runtimeCall (hs ▸ hast))
  unfold convert
  rw [hast]
  dsimp only
  obtain ⟨hstyles, hloose⟩ := adds_generated ht.linked hplain hast
  generalize (graft ast).run t = run at *
  obtain ⟨styles, u⟩ := run
  dsimp only at *
  obtain ⟨hadds, hkind, hcontkind, hold⟩ := hstyles.styleAttribute ht.linked hloose
  rw [alloc_fst, alloc_fst]
  have hplain (n : NodeId) (hn : t.size ≤ n) :
      (Tree.alloc (.attr Vocabulary.style (some u.size)) none
      (u.alloc (.container (some styles)) none).2).2.form n ≠ .template := by
    rw [form, kind_alloc, kind_alloc]
    split
    · simp [Kind.form]
    · split
      · simp [Kind.form]
      · exact (hsupplies n hn).1
  generalize (Tree.alloc (.attr Vocabulary.style (some u.size)) none
    (u.alloc (.container (some styles)) none).2).2 = w at *
  generalize (u.alloc (.container (some styles)) none).2.size = style at *
  obtain ⟨hplaced, hedit⟩ := hadds.placed ht hplain hparent (by
    rw [hopening, form, hkind]
    rfl) fun n hn => hn.not_within_shorthand ht.linked hclasses
  have hreplaced := hplaced.kept.moves.sound ht
  have hopening' : (w.replaceAt attr style).form opening = .opening :=
    (hplaced.kept.moves.form_eq ht hlt).trans hopening
  have hparent' : (w.replaceAt attr style).parent style = some opening :=
    (hedit.parent style).trans (if_pos rfl)
  have hname : (w.replaceAt attr style).attributeName style = some Vocabulary.style := by
    have hne : style ≠ opening := Nat.ne_of_gt (Nat.lt_of_lt_of_le hlt hadds.behind)
    rw [attributeName, hedit.kind, if_neg hne, kind_place, hkind]
  have hlasting : (w.replaceAt attr style).IsLasting style := .inl hname
  have hmoves := moves_attachAfter hreplaced s.annotator hparent' hopening' attributes classes
  have hnoted := (inscribed_behind hreplaced s.annotator hparent' hopening' attributes classes).kept
    hreplaced hmoves
  refine ⟨style, ⟨hplaced.kept.trans hnoted ht, hplaced.behind, ?_, fun hatt => ?_⟩, ?_⟩
  · exact (hnoted.span style hlasting.lt_size).trans hplaced.span
  · exact hnoted.attached style hlasting (hplaced.attached hatt)
  · exact (hmoves.attributeName_eq hreplaced hlasting.lt_size).trans hname

/-- Merging a shorthand attribute keeps what lasts. -/
theorem kept_merge (ht : t.Sound) (hs : s.generate = Generator.runtimeCall callee)
    (hclasses : t.classes attr = some classes) (hparent : t.parent attr = some opening)
    (hopening : t.form opening = .opening) {style : NodeId}
    (hstyle : t.attributeNamed (t.attributes opening) Vocabulary.style = some style) :
    Kept t (s.merge attr style opening classes t).tree := by
  have hplain : s.generate.Plain := fun _ _ hast => Or.inl ⟨callee, hs ▸ hast⟩
  obtain ⟨ast, hast⟩ : ∃ ast, s.generate classes = .ok ast := ⟨_, by rw [hs]; rfl⟩
  obtain ⟨hname, hok⟩ := classes_eq_some hclasses
  cases hexpression : t.styleExpression style with
  | none =>
    unfold merge
    rw [hexpression]
    exact .refl t
  | some expression =>
    obtain ⟨w, hjoin, hmerge⟩ := joined ht hplain hname hparent hopening hok hast
      (Generator.steady_runtimeCall (hs ▸ hast)) hstyle hexpression
    rw [hmerge]
    have hkept := hjoin.keeps ht hclasses
    have hw := hkept.moves.sound ht
    have hopening' : w.form opening = .opening :=
      (hkept.moves.form_eq ht (ht.linked.parent_lt_size hparent)).trans hopening
    have hnoted := (inscribed_tag hw s.annotator hopening' classes).2
    exact hkept.trans (hnoted.kept hw (moves_attachTo hw _ hopening' ..)) ht

/-- Whatever attribute it is, restyling it keeps what lasts. -/
theorem kept_restyleAttribute (ht : t.Sound) (hs : s.generate = Generator.runtimeCall callee)
    (attr : NodeId) : Kept t (s.restyleAttribute attr t).tree := by
  cases hclasses : t.classes attr with
  | none =>
    rw [restyleAttribute_of_none hclasses]
    exact .refl t
  | some classes =>
    cases hparent : t.parent attr with
    | none =>
      obtain ⟨hname, hok⟩ := classes_eq_some hclasses
      unfold restyleAttribute
      rw [if_pos hname, hok, ht.linked.enclosing_eq_none hparent]
      exact .refl t
    | some opening =>
      obtain ⟨hopening, hstep⟩ := restyleAttribute_of_some (s := s) ht hclasses hparent
      rw [hstep]
      cases hstyle : t.attributeNamed (t.attributes opening) Vocabulary.style with
      | none =>
        obtain ⟨style, hplaced, -⟩ :=
          placed_convert ht hs hclasses hparent hopening (t.attributes opening)
        exact hplaced.kept
      | some style => exact kept_merge ht hs hclasses hparent hopening hstyle

end Stylist

end JsxStyle
