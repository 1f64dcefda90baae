import JsxStyle.Proofs.Listing

/-!
# Annotations after a run

What was restyled in a tag is gone from the module at the end, so it can be told from the
module as it was read and the module as it is then.  This module puts the two together:
the classes of what is gone from a tag are those that its annotation has been given, in the
order in which they were.

The run goes through references and the statement is about templates.  The tag of a
template that is known in advance comes right behind it in the source, and nothing else
in it is a reference, so both lists have the same order.

* `Tree.notes`: the classes of the attributes and templates that are gone from a tag;
* `Linked.filterMap_templates`: templates and their references stand in the same order;
* `Bystanding.filterMap_due`: so do the references before and after the attributes;
* `Linked.due_tag`: what a template adds by its tag;
* `Concluded.isAttached_iff`: a template is gone if it may stand where it stands;
* `exists_listed`: a run comes to an end, with those classes written behind the tag;
* `annotation_lists_restyled`: the annotation of a tag lists the classes of what is gone from it.
-/

namespace JsxStyle

namespace Tree

/-- The classes of what was restyled in the tag `o` on the way from `t₀` to `t`, without the blanks
in them that say nothing: of its shorthand attributes that are gone, in the order of the
tag, and then of the templates of the style builder that are gone and had `o` as the nearest tag
around them, in source order. -/
def notes (t₀ t : Tree) (builder : Option Text) (o : NodeId) : List Text :=
  (((t₀.attributes o).filter fun a => ¬ t.isAttached a).filterMap t₀.classes ++
    ((t₀.descendants root).filter fun n =>
      t₀.enclosing n .opening = some o ∧ ¬ t.isAttached n).filterMap
        (t₀.staticClasses · builder)).map Text.collapse

section Order

variable {t : Tree}

/-- What is found in a part of a tree is what its node gives and what is found below. -/
theorem Linked.filterMap_part (ht : t.Linked) (f : NodeId → Option Text) (n : NodeId) :
    (n :: t.descendants n).filterMap f =
      (f n).toList ++ (t.children n).flatMap fun c => (c :: t.descendants c).filterMap f := by
  rw [ht.descendants_eq, ← List.filterMap_flatMap]
  cases hf : f n <;> simp [hf]

/-- A reference has nothing below it. -/
theorem Linked.filterMap_of_ident (ht : t.Linked) (f : NodeId → Option Text) {r : NodeId}
    (hr : t.form r = .ident) : (r :: t.descendants r).filterMap f = (f r).toList := by
  rw [ht.filterMap_part f, children_eq_nil (.inr hr)]
  simp

/-- What templates and references give adds up to the same, in source order, if it is the
references that tag the templates. -/
theorem Linked.filterMap_templates (ht : t.Linked) {g h : NodeId → Option Text}
    (hroot : t.form root = .program)
    (hg : ∀ n, (g n).isSome → ∃ tag chunks holes, t.kind n = .template tag chunks holes ∧
      t.form tag = .ident)
    (hh : ∀ r, (h r).isSome → t.form r = .ident ∧
      ∃ n chunks holes, t.kind n = .template r chunks holes)
    (hsame : ∀ n tag chunks holes, t.Within n root → t.kind n = .template tag chunks holes →
      t.form tag = .ident → h tag = g n) :
    (t.descendants root).filterMap g = (t.descendants root).filterMap h := by
  have hgnone {n : NodeId} (hn : ¬ ∃ tag chunks holes, t.kind n = .template tag chunks holes ∧
      t.form tag = .ident) : g n = none :=
    Option.not_isSome_iff_eq_none.mp fun hsome => hn (hg n hsome)
  have hhnone {r : NodeId} (hr : ¬ (t.form r = .ident ∧
      ∃ n chunks holes, t.kind n = .template r chunks holes)) : h r = none :=
    Option.not_isSome_iff_eq_none.mp fun hsome => hr (hh r hsome)
  have hleaf {r : NodeId} (hr : t.form r = .ident) : (r :: t.descendants r).filterMap g = [] := by
    have hgr : g r = none := hgnone (by
      rintro ⟨tag, chunks, holes, hkind, -⟩
      rw [form, hkind] at hr
      exact absurd hr (by simp [Kind.form]))
    rw [ht.filterMap_of_ident g hr, hgr]
    rfl
  suffices hall : ∀ n, t.Within n root → t.form n ≠ .ident →
      (n :: t.descendants n).filterMap g = (n :: t.descendants n).filterMap h by
    have hgroot : g root = none := hgnone (by
      rintro ⟨_, _, _, hkind, -⟩
      exact absurd (hroot.symm.trans (congrArg Kind.form hkind)) (by simp [Kind.form]))
    have hhroot : h root = none := hhnone fun hr => absurd (hroot.symm.trans hr.1) (by decide)
    have hwhole := hall root .refl (by rw [hroot]; decide)
    rwa [List.filterMap_cons_none hgroot, List.filterMap_cons_none hhroot] at hwhole
  intro n
  induction n using ht.downward with
  | h n ih =>
    intro hn hform
    have hhn : h n = none := hhnone fun hr => hform hr.1
    have hbelow {c : NodeId} (hc : c ∈ t.children n)
        (hnot : t.form c = .ident → ¬ ∃ chunks holes, t.kind n = .template c chunks holes) :
        (c :: t.descendants c).filterMap g = (c :: t.descendants c).filterMap h := by
      by_cases hcform : t.form c = .ident
      · have hhc : h c = none := hhnone (by
          rintro ⟨-, m, chunks, holes, hkind⟩
          have hm : t.parent c = some m := ht.parent_of_kind hkind List.mem_cons_self
          obtain rfl := Option.some.inj ((ht.mem_children.mp hc).symm.trans hm)
          exact hnot hcform ⟨chunks, holes, hkind⟩)
        rw [hleaf hcform, ht.filterMap_of_ident h hcform, hhc]
        rfl
      · exact ih c hc (.head (ht.mem_children.mp hc) hn) hcform
    rw [ht.filterMap_part g, ht.filterMap_part h, hhn]
    by_cases htagged : ∃ tag chunks holes,
        t.kind n = .template tag chunks holes ∧ t.form tag = .ident
    · obtain ⟨tag, chunks, holes, hkind, htag⟩ := htagged
      have hchildren : t.children n = tag :: holes := congrArg Kind.children hkind
      have hnodup := ht.nodup n
      rw [hchildren, List.nodup_cons] at hnodup
      rw [hchildren, List.flatMap_cons, List.flatMap_cons, hleaf htag, ht.filterMap_of_ident h htag,
        hsame n tag chunks holes hn hkind htag, List.nil_append, Option.toList_none,
        List.nil_append]
      refine congrArg ((g n).toList ++ ·)
        (List.flatMap_congr fun hole hhole => hbelow ?_ fun _ => ?_)
      · rw [hchildren]
        exact List.mem_cons_of_mem _ hhole
      · rintro ⟨_, _, hkind'⟩
        obtain ⟨rfl, -, -⟩ := Kind.template.inj (hkind.symm.trans hkind')
        exact hnodup.1 hhole
    · rw [hgnone htagged]
      refine congrArg ([] ++ ·) (List.flatMap_congr fun c hc => hbelow hc fun hcform => ?_)
      rintro ⟨chunks, holes, hkind⟩
      exact htagged ⟨c, chunks, holes, hkind, hcform⟩

end Order

section Known

variable {t : Tree} {template r : NodeId} {builder : Option Text} {classes : Text}

/-- The only reference in a template that is known in advance is its tag. -/
theorem eq_tag_of_within {tag : NodeId} {chunks : List Text} {holes : List NodeId} (ht : t.Linked)
    (hpaired : (t.kind template).Paired) (h : t.staticClasses template builder = some classes)
    (hkind : t.kind template = .template tag chunks holes) (hr : t.form r = .ident)
    (hwithin : t.Within r template) : r = tag := by
  obtain ⟨tag', chunks', holes', name, hkind', htag, -, hfold⟩ := staticClasses_eq_some.mp h
  obtain ⟨rfl, rfl, rfl⟩ := Kind.template.inj (hkind'.symm.trans hkind)
  rw [hkind, Kind.Paired] at hpaired
  rcases Relation.ReflTransGen.cases_tail hwithin with heq | ⟨c, hrc, hc⟩
  · rw [← heq, form, hkind] at hr
    exact absurd hr (by simp [Kind.form])
  · have hmem : c ∈ tag' :: holes' := by
      have := ht.mem_children.mpr hc
      rwa [children, hkind] at this
    rcases List.mem_cons.mp hmem with rfl | hmem
    · exact Within.eq_of_leaf ht hrc (children_eq_nil (.inr (congrArg Kind.form htag)))
    · have hinert := Within.inert_of_literal ht hrc (literal_of_foldChunks hfold (by omega) c hmem)
      rw [hr] at hinert
      exact hinert.elim

end Known

/-- The nearest node of a form is the parent or what the parent finds. -/
theorem Linked.enclosing_of_parent {t : Tree} (ht : t.Linked) {n p : NodeId}
    (hp : t.parent n = some p)
    (f : Form) : t.enclosing n f = if t.form p = f then some p else t.enclosing p f := by
  unfold enclosing findAncestor
  rw [ht.ancestors_eq_cons hp, List.find?_cons]
  by_cases hform : t.form p = f
  · rw [if_pos hform]
    simp [← hform, form, kind]
  · rw [if_neg hform]
    unfold form kind at hform
    simp [hform]

/-- What the tag of a template adds to the annotation of `o`. -/
theorem Linked.due_tag {t : Tree} {scope : Scope} {o n tag : NodeId} {chunks : List Text}
    {holes : List NodeId} (ht : t.Linked) (hkind : t.kind n = .template tag chunks holes)
    (hn : t.isAttached n = true) : t.due scope o tag =
      if t.enclosing n .opening = some o ∧ Stylist.permits scope n t then
        t.staticClasses n scope.builder
      else none := by
  have hform : t.form n = .template := congrArg Kind.form hkind
  have hparent : t.parent tag = some n := ht.parent_of_kind hkind List.mem_cons_self
  have htemplate : t.enclosing tag .template = some n := by
    rw [ht.enclosing_of_parent hparent, if_pos hform]
  have hopening : t.enclosing tag .opening = t.enclosing n .opening := by
    rw [ht.enclosing_of_parent hparent, if_neg (by rw [hform]; decide)]
  rw [due, htemplate, hopening, Option.bind_some, isAttached_of_parent ht hparent hn]
  simp [ite_and]

section Restyled

variable {t₀ t : Tree} {done : List NodeId} {scope : Scope} {name : Text} {o r n : NodeId}
  (h : Bystanding t₀ done t) (ht₀ : t₀.Sound) (hmoves : Moves t₀ t)

include h ht₀ hmoves

/-- A template stands where it may as it did before. -/
theorem Bystanding.permits_eq (hn : t₀.form n = .template) :
    Stylist.permits scope n t = Stylist.permits scope n t₀ := by
  have hname : (t₀.enclosing n .attr).bind t.attributeName =
      (t₀.enclosing n .attr).bind t₀.attributeName := by
    cases henclosing : t₀.enclosing n .attr with
    | none => rfl
    | some attr => exact hmoves.attributeName_eq ht₀ (ht₀.linked.form_of_enclosing henclosing).2
  rw [Stylist.permits, h.enclosing n .attr (by rw [hn]; trivial) (by decide), hname,
    Stylist.permits]

/-- A reference finds its template as it did before. -/
theorem Bystanding.makesWay_iff (hr : t₀.form r = .ident) :
    t.MakesWay scope r n ↔ t₀.MakesWay scope r n := by
  have hreferring : (t₀.form r).Referring := by rw [hr]; trivial
  unfold MakesWay
  rw [h.attached r hreferring, h.enclosing r .template hreferring (by decide)]
  refine and_congr_right fun _ => and_congr_right fun henclosing => ?_
  obtain ⟨hform, hlt⟩ := ht₀.linked.form_of_enclosing henclosing
  rw [h.permits_eq ht₀ hmoves hform, h.known n hlt]

theorem Bystanding.due_eq (hr : t₀.form r = .ident) : t.due scope o r = t₀.due scope o r := by
  refine Option.ext fun classes => ?_
  rw [due_eq_some, due_eq_some, h.enclosing r .opening (by rw [hr]; trivial) (by decide)]
  refine and_congr_right fun _ => exists_congr fun template => ?_
  rw [h.makesWay_iff ht₀ hmoves hr]
  refine and_congr_right fun hway => ?_
  rw [h.known template (ht₀.linked.form_of_enclosing hway.2.1).2]

/-- A reference that came in with a style does not stand in a template that is known in advance. -/
theorem Bystanding.due_eq_none (hsupplies : Supplies t₀ t) (hpaired : ∀ n, (t.kind n).Paired)
    (hr : t.form r = .ident) (hnew : t₀.size ≤ r) : t.due scope o r = none := by
  refine Option.eq_none_iff_forall_not_mem.mpr fun classes hclasses => ?_
  obtain ⟨-, template, hway, hstatic⟩ := due_eq_some.mp hclasses
  have ht := hmoves.sound ht₀
  have hwithin : t.Within r template :=
    (ht.linked.mem_ancestors_iff.mp (List.mem_of_find?_eq_some hway.2.1)).to_reflTransGen
  have hform := (ht.linked.form_of_enclosing hway.2.1).1
  have hold : template < t₀.size := Nat.lt_of_not_le fun hge => (hsupplies template hge).1 hform
  have hkind := h.template template ((hmoves.form_eq ht₀ hold).symm.trans hform)
  obtain ⟨tag, chunks, holes, -, htag, -⟩ := staticClasses_eq_some.mp hstatic
  obtain rfl := eq_tag_of_within ht.linked (hpaired template) hstatic htag hr hwithin
  -- What a template holds that was there before was there before.
  have hparent : t₀.parent r = some template :=
    ht₀.linked.parent_of_kind (hkind.symm.trans htag) List.mem_cons_self
  exact absurd (lt_size_of_parent hparent) (Nat.not_lt.mpr hnew)

/-- What a node adds if it is a reference to the style builder is what it added before. -/
theorem Bystanding.due_of_ident (hsupplies : Supplies t₀ t) (hpaired : ∀ n, (t.kind n).Paired)
    (r : NodeId) : (if t.kind r = .ident name then t.due scope o r else none) =
      if t₀.kind r = .ident name then t₀.due scope o r else none := by
  by_cases hr : r < t₀.size
  · have hform := hmoves.form_eq ht₀ hr
    by_cases hident : t₀.form r = .ident
    · have hkind : t.kind r = t₀.kind r := hmoves.kind_of_leaf ht₀ hr (by
        unfold form at hident
        cases hk : t₀.kind r <;> simp_all [Kind.form, Kind.leaf?])
      rw [hkind, h.due_eq ht₀ hmoves hident]
    · have hnot {u : Tree} (hu : u.form r = t₀.form r) : ¬ u.kind r = .ident name := fun hkind =>
        hident (hu.symm.trans (congrArg Kind.form hkind))
      rw [if_neg (hnot hform), if_neg (hnot rfl)]
  · have hge := Nat.le_of_not_lt hr
    have hnot : ¬ t₀.kind r = .ident name := by
      rw [kind_of_size_le hge]
      simp
    rw [if_neg hnot]
    split
    case isTrue hkind =>
      exact h.due_eq_none ht₀ hmoves hsupplies hpaired (congrArg Kind.form hkind) hge
    case isFalse => rfl

/-- Before and after the attributes are restyled, the references add the same classes to the
annotation of a tag, in the same order. -/
theorem Bystanding.filterMap_due (hsupplies : Supplies t₀ t) (hpaired : ∀ n, (t.kind n).Paired)
    (hroot : t₀.form root = .program) (scope : Scope) (name : Text) (o : NodeId) :
    (t.referencesTo name).filterMap (t.due scope o) =
      (t₀.referencesTo name).filterMap (t₀.due scope o) := by
  obtain ⟨q, hq⟩ : ∃ q : NodeId → Bool, ∀ r, q r = true ↔
      t₀.kind r = .ident name ∧ (t₀.due scope o r).isSome :=
    ⟨fun r => decide (t₀.kind r = .ident name ∧ (t₀.due scope o r).isSome),
      fun r => decide_eq_true_iff⟩
  have hpicks : t₀.PicksReferences q := fun r hr => congrArg Kind.form ((hq r).mp hr).1
  have hthread : (t.descendants root).filter q = (t₀.descendants root).filter q := by
    have hsame := h.thread root ht₀.linked.nonempty q hpicks
    have hout : ¬ q root = true :=
      fun hin => absurd (hroot.symm.trans (hpicks root hin)) (by decide)
    unfold Tree.thread at hsame
    rwa [List.filter_cons_of_neg hout, List.filter_cons_of_neg hout] at hsame
  have hpick {u : Tree} (hu : ∀ r, (if u.kind r = .ident name then u.due scope o r else none) =
      if q r then t₀.due scope o r else none) :
      (u.referencesTo name).filterMap (u.due scope o) =
        ((u.descendants root).filter q).filterMap (t₀.due scope o) := by
    rw [referencesTo, List.filterMap_filter, List.filterMap_filter]
    refine List.filterMap_congr fun r _ => ?_
    rw [← hu r]
    simp only [decide_eq_true_eq]
  have hown (r : NodeId) : (if t₀.kind r = .ident name then t₀.due scope o r else none) =
      if q r then t₀.due scope o r else none := by
    by_cases hkind : t₀.kind r = .ident name
    · cases hdue : t₀.due scope o r with
      | none => simp
      | some classes => rw [if_pos hkind, if_pos ((hq r).mpr ⟨hkind, by rw [hdue]; rfl⟩)]
    · rw [if_neg hkind, if_neg fun hin => hkind ((hq r).mp hin).1]
  rw [hpick fun r => (h.due_of_ident ht₀ hmoves hsupplies hpaired r).trans (hown r),
    hpick hown, hthread]

end Restyled

section Gone

variable {t₀ t u t' : Tree} {done : List NodeId} {scope : Scope} {name classes : Text}
  {o n : NodeId}

/-- Of the templates that are known in advance, those are gone that may stand where they stand. -/
theorem Concluded.isAttached_iff (hc : Concluded scope t u (t.referencesTo name))
    (h : Bystanding t₀ done t) (ht₀ : t₀.Ready) (hmoves : Moves t₀ t)
    (hbuilder : scope.builder = some name) (hn : t₀.isAttached n = true)
    (hstatic : t₀.staticClasses n scope.builder = some classes) :
    u.isAttached n = true ↔ ¬ Stylist.permits scope n t₀ = true := by
  have ht := hmoves.sound ht₀.sound
  obtain ⟨tag, chunks, holes, name', hkind, htag, hname, -⟩ := staticClasses_eq_some.mp hstatic
  obtain rfl := Option.some.inj (hbuilder.symm.trans hname.symm)
  have hform : t₀.form n = .template := congrArg Kind.form hkind
  have hlt : n < t₀.size := lt_size_of_form (by rw [hform]; decide)
  have htagform : t₀.form tag = .ident := congrArg Kind.form htag
  have htaglt : tag < t₀.size := lt_size_of_form (by rw [htagform]; decide)
  have htag' : t.kind tag = .ident name :=
    (hmoves.kind_of_leaf ht₀.sound htaglt (by rw [htag]; rfl)).trans htag
  have hparent : t.parent tag = some n :=
    ht.linked.parent_of_kind ((h.template n hform).trans hkind) List.mem_cons_self
  have hattached : t.isAttached n = true := (h.attached n (by rw [hform]; trivial)).mpr hn
  have htagattached := isAttached_of_parent ht.linked hparent hattached
  have henclosing : t.enclosing tag .template = some n := by
    rw [ht.linked.enclosing_of_parent hparent, if_pos ((hmoves.form_eq ht₀.sound hlt).trans hform)]
  have hne : n ≠ root := by
    rintro rfl
    exact absurd (ht₀.root.symm.trans hform) (by decide)
  by_cases hpermits : Stylist.permits scope n t₀ = true
  · have hway : t.MakesWay scope tag n := ⟨htagattached, henclosing,
      (h.permits_eq ht₀.sound hmoves hform).trans hpermits, by rw [h.known n hlt, hstatic]; rfl⟩
    have hmem : tag ∈ t.referencesTo name := by
      refine List.mem_filter.mpr ⟨?_, decide_eq_true htag'⟩
      refine (ht.linked.isAttached_iff_mem_descendants.mp htagattached).resolve_left ?_
      rintro rfl
      exact absurd (ht₀.root.symm.trans htagform) (by decide)
    have hcut := hc.cut tag n hmem hway hparent
    rw [hc.ready.sound.linked.isAttached_iff_parent hne, hcut]
    simp [hpermits]
  · have hstays := hc.stays tag (congrArg Kind.form htag') fun _ m hm => hpermits (by
      obtain rfl := Option.some.inj (henclosing.symm.trans hm.2.1)
      rw [← h.permits_eq ht₀.sound hmoves hform]
      exact hm.2.2.1)
    rw [(hstays.above (.single hparent)).isAttached_eq ht hc.moves]
    simp [hattached, hpermits]

/-- The attributes that are gone from a tag are those that have added to its annotation. -/
theorem filterMap_own (ht₀ : t₀.Linked) (ho : t₀.form o = .opening) (hmem : o ∈ t₀.descendants root)
    (hgone : ∀ a ∈ t₀.attributes o, (t₀.classes a).isSome →
      (t'.isAttached a = true ↔ ¬ t₀.IsRestylable a)) :
    ((t₀.attributes o).filter fun a => ¬ t'.isAttached a).filterMap t₀.classes =
      t₀.allAttributes.filterMap (t₀.own o) := by
  have hwithin : t₀.Within o root := (ht₀.mem_descendants_iff.mp hmem).to_reflTransGen
  have hown : t₀.allAttributes.filterMap (t₀.own o) = (t₀.attributes o).filterMap (t₀.own o) := by
    rw [attributes_eq_children ho, ← ht₀.filter_descendants hwithin, allAttributes,
      List.filterMap_filter, List.filterMap_filter]
    refine List.filterMap_congr fun a _ => ?_
    cases hclasses : t₀.own o a with
    | none => simp
    | some classes =>
      unfold own at hclasses
      split at hclasses
      case isTrue hrestylable =>
        have hform : t₀.form a = .attr := form_of_classes (by rw [hclasses]; rfl)
        simp [hrestylable.1, hform]
      case isFalse => exact absurd hclasses (by simp)
  rw [hown, List.filterMap_filter]
  refine List.filterMap_congr fun a ha => ?_
  cases hclasses : t₀.classes a with
  | none => simp [own, hclasses]
  | some classes =>
    have hparent := parent_of_mem_attributes ht₀ ha
    have hattached := hgone a ha (by rw [hclasses]; rfl)
    by_cases hrestylable : t₀.IsRestylable a
    · simp [own, hparent, hclasses, hrestylable, hattached]
    · simp [own, hrestylable, hattached]

/-- The templates that are gone from a tag are those whose references have added to its
annotation. -/
theorem filterMap_due_eq (ht₀ : t₀.Ready)
    (hgone : ∀ n classes, t₀.isAttached n = true →
      t₀.staticClasses n scope.builder = some classes →
        (t'.isAttached n = true ↔ ¬ Stylist.permits scope n t₀ = true))
    (hbuilder : scope.builder = some name) (o : NodeId) :
    ((t₀.descendants root).filter fun n =>
      t₀.enclosing n .opening = some o ∧ ¬ t'.isAttached n).filterMap
        (t₀.staticClasses · scope.builder) =
      (t₀.referencesTo name).filterMap (t₀.due scope o) := by
  have hlinked := ht₀.sound.linked
  rw [referencesTo, List.filterMap_filter, List.filterMap_filter]
  refine hlinked.filterMap_templates ht₀.root (fun n hn => ?_) (fun r hr => ?_)
    fun n tag chunks holes hn hkind htag => ?_
  · obtain ⟨classes, hclasses⟩ := Option.isSome_iff_exists.mp hn
    split at hclasses
    · obtain ⟨tag, chunks, holes, _, hkind, htag, -⟩ := staticClasses_eq_some.mp hclasses
      exact ⟨tag, chunks, holes, hkind, congrArg Kind.form htag⟩
    · exact absurd hclasses (by simp)
  · obtain ⟨classes, hclasses⟩ := Option.isSome_iff_exists.mp hr
    split at hclasses
    case isTrue hname =>
      have hr : t₀.form r = .ident := congrArg Kind.form (of_decide_eq_true hname)
      obtain ⟨-, n, hway, hstatic⟩ := due_eq_some.mp hclasses
      have hwithin : t₀.Within r n :=
        (hlinked.mem_ancestors_iff.mp (List.mem_of_find?_eq_some hway.2.1)).to_reflTransGen
      obtain ⟨tag, chunks, holes, _, hkind, -⟩ := staticClasses_eq_some.mp hstatic
      obtain rfl := eq_tag_of_within hlinked (ht₀.paired n) hstatic hkind hr hwithin
      exact ⟨hr, n, chunks, holes, hkind⟩
    case isFalse => exact absurd hclasses (by simp)
  · rw [hlinked.due_tag hkind (hlinked.isAttached_iff.mpr hn)]
    cases hstatic : t₀.staticClasses n scope.builder with
    | none => simp
    | some classes =>
      obtain ⟨tag', _, _, name', hkind', hname, hbuilder', -⟩ := staticClasses_eq_some.mp hstatic
      obtain ⟨rfl, -, -⟩ := Kind.template.inj (hkind'.symm.trans hkind)
      obtain rfl := Option.some.inj (hbuilder.symm.trans hbuilder'.symm)
      simp [hname, hgone n classes (hlinked.isAttached_iff.mpr hn) hstatic]

/-- Where the style builder is not imported no template makes way. -/
theorem notes_none (t₀ t' : Tree) (o : NodeId) : t₀.notes t' none o =
    (((t₀.attributes o).filter fun a => ¬ t'.isAttached a).filterMap t₀.classes).map
      Text.collapse := by
  have hnone (n : NodeId) : t₀.staticClasses n none = none := by
    refine Option.eq_none_iff_forall_not_mem.mpr fun classes hclasses => ?_
    obtain ⟨_, _, _, _, -, -, hbuilder, -⟩ := staticClasses_eq_some.mp hclasses
    exact absurd hbuilder (by simp)
  have hrest (l : List NodeId) : l.filterMap (t₀.staticClasses · none) = [] :=
    List.filterMap_eq_nil_iff.mpr fun n _ => hnone n
  rw [notes, hrest, List.append_nil]

/-- From a tag of a module nothing is gone in the module itself. -/
theorem notes_self (ht₀ : t₀.Linked) (hattached : t₀.isAttached o = true) :
    t₀.notes t₀ none o = [] := by
  have hstays : ((t₀.attributes o).filter fun a => ¬ t₀.isAttached a) = [] := by
    refine List.filter_eq_nil_iff.mpr fun a ha => ?_
    simpa using isAttached_of_parent ht₀ (parent_of_mem_attributes ht₀ ha) hattached
  rw [notes_none, hstays]
  rfl

end Gone

section Runs

variable {settings : Settings} {source : Text} {t₀ : Tree} {o : NodeId} {note : Option Note}

/-- An attribute of a tag with classes of its own is gone after the attributes if nothing is
wrong with it. -/
theorem Enlisting.isAttached_iff {s : Stylist} {d : Draft} {a : NodeId} (ht₀ : t₀.Sound)
    (h : Enlisting s t₀ o note t₀.allAttributes d) (hattached : t₀.isAttached o = true)
    (ha : a ∈ t₀.attributes o) (hclasses : (t₀.classes a).isSome) :
    d.tree.isAttached a = true ↔ ¬ t₀.IsRestylable a := by
  have hform : t₀.form a = .attr := form_of_classes hclasses
  have hparent := parent_of_mem_attributes ht₀.linked ha
  have hin := isAttached_of_parent ht₀.linked hparent hattached
  have hmem : a ∈ t₀.allAttributes := by
    refine List.mem_filter.mpr ⟨?_, decide_eq_true hform⟩
    refine (ht₀.linked.isAttached_iff_mem_descendants.mp hin).resolve_left ?_
    rintro rfl
    exact absurd (hparent.symm.trans ht₀.linked.root_free) (by simp)
  rw [h.tallied.attached a hform]
  simp [hin, hmem]

/-- After the references, and whether or not the import goes, the annotation of a tag lists
the classes of what is gone from it. -/
theorem Enlisting.listed {s : Stylist} {callee name : Text} {d : Draft} {t' : Tree}
    (scope : Scope) (hr : Regular s callee t₀) (hready : t₀.Ready)
    (hon : s.annotator.enabled = true)
    (ho : t₀.form o = .opening) (hmem : o ∈ t₀.descendants root)
    (h : Enlisting s t₀ o note t₀.allAttributes d) (hbuilder : scope.builder = some name)
    (hend : t' = (s.restyleReferences scope (d.tree.referencesTo name) d.tree).2 ∨
      ∃ found,
        t' = (s.restyleReferences scope (d.tree.referencesTo name) d.tree).2.stripImport found) :
    t'.isAttached o = true ∧ ∃ note', t'.Bears s.annotator.label o note' ∧
      Lengthened note (t₀.notes t' scope.builder o) note' := by
  have ht₀ := hready.sound
  have hmoves := h.tallied.moves
  have ht := hmoves.sound ht₀
  have hod : d.tree.form o = .opening := hmoves.form_of_form ht₀ ho (by decide)
  have hpaired := h.tallied.supplies.paired ht₀ hmoves hready.paired
  have hreadyd : d.tree.Ready :=
    ⟨ht, hpaired, (hmoves.form_eq ht₀ ht₀.linked.nonempty).trans hready.root⟩
  have hreferences :
      ∀ r ∈ d.tree.referencesTo name, d.tree.isAttached r = true ∧ d.tree.form r = .ident := by
    intro r hr
    obtain ⟨hmem, hkind⟩ := List.mem_filter.mp hr
    exact ⟨ht.linked.isAttached_iff_mem_descendants.mpr (.inr hmem),
      congrArg Kind.form (of_decide_eq_true hkind)⟩
  obtain ⟨note₁, hb₁, hlength₁⟩ := h.bears
  obtain ⟨hc, note', hb', hlength'⟩ := Stylist.restyleReferences_concluded hreadyd hr.generate
    hr.label.1 hon scope hreferences ((ht.linked.nodup_descendants root).filter _) hod hb₁
  generalize (s.restyleReferences scope (d.tree.referencesTo name) d.tree).2 = u at *
  obtain ⟨hc, hb⟩ : Concluded scope d.tree t' (d.tree.referencesTo name) ∧
      t'.Bears s.annotator.label o note' := by
    rcases hend with rfl | ⟨found, rfl⟩
    · exact ⟨hc, hb'⟩
    · exact ⟨hc.stripImport ht found,
        bears_stripImport hc.ready.sound found (hc.moves.form_of_form ht hod (by decide)) hb'⟩
  have hkept {n : NodeId} (hn : d.tree.form n = .attr ∨ d.tree.form n = .opening) :
      t'.isAttached n = d.tree.isAttached n :=
    (hc.way n hn).isAttached_eq ht hc.moves
  refine ⟨(hkept (.inr hod)).trans h.attached, note', hb, ?_⟩
  have hattached : t₀.isAttached o = true :=
    ht₀.linked.isAttached_iff_mem_descendants.mpr (.inr hmem)
  have hgone : ∀ a ∈ t₀.attributes o, (t₀.classes a).isSome →
      (t'.isAttached a = true ↔ ¬ t₀.IsRestylable a) := fun a ha hclasses => by
    rw [hkept (.inl (hmoves.form_of_form ht₀ (form_of_classes hclasses) (by decide)))]
    exact h.isAttached_iff ht₀ hattached ha hclasses
  rw [notes, filterMap_own ht₀.linked ho hmem hgone,
    filterMap_due_eq hready (fun _ _ => hc.isAttached_iff h.bystanding hready hmoves hbuilder)
      hbuilder o, List.map_append,
    ← h.bystanding.filterMap_due ht₀ hmoves h.tallied.supplies hpaired hready.root]
  exact hlength₁.trans hlength'

/-- A run comes to an end with the annotation of a tag longer by the classes of what is
gone from it. -/
theorem exists_listed (hgoOn : settings.options.continueOnError = true)
    (hon : settings.debug.enabled = true)
    (hlabel : settings.debug.label ≠ Vocabulary.shorthand ∧ settings.debug.label ≠ Vocabulary.style)
    (hread : ofSource source = .ok t₀) (ho : t₀.form o = .opening) (hmem : o ∈ t₀.descendants root)
    (hb : t₀.Bears settings.debug.label o note) :
    ∃ d, settings.restyle settings.stylist t₀ = .ok d ∧ d.tree.isAttached o = true ∧
      ∃ note', d.tree.Bears settings.debug.label o note' ∧ Lengthened note (t₀.notes d.tree
        ((t₀.styleImport? settings.options.importSources).map StyleImport.name) o) note' := by
  have hready := ready_ofSource hread
  have ht₀ := hready.sound
  have hr := Regular.of_settings hlabel.1 hlabel.2 hread
  have hattached : t₀.isAttached o = true :=
    ht₀.linked.isAttached_iff_mem_descendants.mpr (.inr hmem)
  by_cases himport : settings.options.requireImport = false ∨
      (t₀.styleImport? settings.options.importSources).isSome
  · have hrun := (Enlisting.start (s := settings.stylist) hattached hb).run hr hon ho
      (fun _ => id) (by rw [List.nil_append]; exact (ht₀.linked.nodup_descendants root).filter _)
    have hvisits : Draft.restyleAttributes settings.options.continueOnError settings.stylist
        { tree := t₀ } =
          .ok (t₀.allAttributes.foldl (Draft.visit settings.stylist) { tree := t₀ }) := by
      rw [hgoOn]
      exact Draft.foldlM_eq_visits ..
    rw [List.nil_append] at hrun
    generalize t₀.allAttributes.foldl (Draft.visit settings.stylist) { tree := t₀ } = d₁ at *
    have hrest := Settings.restyle_of_attributes hvisits himport
    cases hfound : t₀.styleImport? settings.options.importSources with
    | none =>
      rw [hfound] at hrest
      refine ⟨d₁, hrest, hrun.attached, ?_⟩
      rw [Option.map_none, notes_none, filterMap_own ht₀.linked ho hmem fun a ha hclasses =>
        hrun.isAttached_iff ht₀ hattached ha hclasses]
      exact hrun.bears
    | some found =>
      rw [hfound, hgoOn] at hrest
      dsimp only at hrest
      rw [Draft.restyleReferences_eq, Except.map] at hrest
      refine ⟨_, hrest, ?_⟩
      refine hrun.listed ⟨settings.options.allowStyleProp, some found.name⟩ hr hready hon ho
        hmem rfl ?_
      split
      · exact .inr ⟨found, rfl⟩
      · exact .inl rfl
  · -- The import that is required is missing, and the module stays as it was read.
    obtain ⟨hrequired, hnone⟩ := not_or.mp himport
    have hnone : t₀.styleImport? settings.options.importSources = none := by simpa using hnone
    refine ⟨{ tree := t₀ }, ?_, hattached, note, hb, ?_⟩
    · unfold Settings.restyle
      simp only [hnone, Bool.not_eq_false] at hrequired ⊢
      rw [hrequired]
      rfl
    · rw [hnone, Option.map_none, notes_self ht₀.linked hattached]
      exact .refl note

/-- **Annotations list what was restyled.**  When failures do not end the compilation, annotations
are turned on and their label is neither of the two attributes that matter, a module is
compiled, and every tag that had no annotation, or one that was a plain string, is still
there.  If nothing was restyled in it, its annotation is as it was read.  Otherwise it has
exactly one, which lists what it listed before and then the classes of everything that was
restyled in the tag: attributes in the order of the tag, then templates in that of the source. -/
theorem annotation_lists_restyled (hgoOn : settings.options.continueOnError = true)
    (hon : settings.debug.enabled = true)
    (hlabel : settings.debug.label ≠ Vocabulary.shorthand ∧ settings.debug.label ≠ Vocabulary.style)
    (hread : ofSource source = .ok t₀) (hmem : o ∈ t₀.descendants root) (ho : t₀.form o = .opening)
    (hb : t₀.Bears settings.debug.label o note) :
    ∃ d added, settings.restyle settings.stylist t₀ = .ok d ∧
      compile settings source = .ok (d.output source) ∧ d.tree.isAttached o = true ∧
      added = t₀.notes d.tree
        ((t₀.styleImport? settings.options.importSources).map StyleImport.name) o ∧
      (added = [] → d.tree.Bears settings.debug.label o note) ∧
      (added ≠ [] → (∀ classes ∈ added, classes ≠ []) → ∃ note',
        d.tree.Bears settings.debug.label o (some note') ∧
          note'.text = Text.join (Text.ofString " | ")
            ((if Note.written note = [] then [] else [Note.written note]) ++ added)) := by
  obtain ⟨d, hrestyle, hattached, note', hb', hlength⟩ :=
    exists_listed hgoOn hon hlabel hread ho hmem hb
  have hcompile : compile settings source = .ok (d.output source) :=
    compile_eq_ok.mpr ⟨_, d, hread, hrestyle, rfl⟩
  refine ⟨d, _, hrestyle, hcompile, hattached, rfl, fun hnil => ?_, fun hne hadded => ?_⟩
  · rwa [hlength.same hnil] at hb'
  · obtain ⟨longer, rfl⟩ := Option.isSome_iff_exists.mp (hlength.isSome hne)
    exact ⟨longer, hb', hlength.written.trans (Annotator.foldl_extended hadded _)⟩

/-- Two shorthand attributes around an annotation and a style attribute with a template, and another
template that may not stand where it stands. -/
theorem four_classes_listed :
    ∃ (settings : Settings) (source : Text) (t₀ : Tree) (d : Draft) (note' : Note),
      settings = { options := { continueOnError := true } } ∧
      source = Text.ofString ("import tw from 'twin.macro';<a tw=' p  q' data-tw='v' " ++
        "css=\x7btw\x60r\x60\x7d tw='s' id=\x7btw\x60u\x60\x7d />") ∧
      settings.debug.label = Text.ofString "data-tw" ∧ ofSource source = .ok t₀ ∧
      16 ∈ t₀.descendants root ∧ t₀.form 16 = .opening ∧
      t₀.Bears settings.debug.label 16 (some ⟨5, 4, Text.ofString "v", '\''⟩) ∧
      settings.restyle settings.stylist t₀ = .ok d ∧
      compile settings source = .ok (d.output source) ∧
      t₀.notes d.tree (some (Text.ofString "tw")) 16 =
        [Text.ofString "p q", Text.ofString "s", Text.ofString "r"] ∧
      d.tree.Bears settings.debug.label 16 (some note') ∧
      note'.text = Text.ofString "v | p q | s | r" := by
  obtain ⟨settings, hsettings⟩ :
      ∃ settings : Settings, settings = { options := { continueOnError := true } } := ⟨_, rfl⟩
  obtain ⟨source, hsource⟩ : ∃ source : Text, source =
      Text.ofString ("import tw from 'twin.macro';<a tw=' p  q' data-tw='v' " ++
        "css=\x7btw\x60r\x60\x7d tw='s' id=\x7btw\x60u\x60\x7d />") := ⟨_, rfl⟩
  have hrun : ((ofSource source).toOption.any fun t₀ =>
      (16 ∈ t₀.descendants root ∧ t₀.form 16 = .opening ∧
        t₀.Bears settings.debug.label 16 (some ⟨5, 4, Text.ofString "v", '\''⟩) ∧
        t₀.styleImport? settings.options.importSources = some ⟨1, Text.ofString "tw"⟩) ∧
        ((settings.restyle settings.stylist t₀).toOption.any fun d =>
          t₀.notes d.tree (some (Text.ofString "tw")) 16 =
            [Text.ofString "p q", Text.ofString "s", Text.ofString "r"]) = true) = true := by
    subst hsettings hsource
    decide +kernel
  obtain ⟨t₀, hread, hfacts⟩ := exists_of_any hrun
  obtain ⟨⟨hmem, ho, hb, hfound⟩, hfacts⟩ := of_decide_eq_true hfacts
  obtain ⟨d', hd', hfacts⟩ := exists_of_any hfacts
  have hnotes := of_decide_eq_true hfacts
  obtain ⟨d, added, hrestyle, hcompile, -, hadded, -, hlists⟩ :=
    @annotation_lists_restyled settings source
    t₀ 16 _ (by rw [hsettings]) (by rw [hsettings]) (by rw [hsettings]; decide) hread hmem ho hb
  obtain rfl := Except.ok.inj (hrestyle.symm.trans hd')
  rw [hfound, Option.map_some, hnotes] at hadded
  obtain ⟨note', hb', htext⟩ := hlists (by rw [hadded]; simp) (by rw [hadded]; decide)
  refine ⟨settings, source, t₀, d, note', hsettings, hsource, by rw [hsettings], hread, hmem, ho,
    hb,
    hrestyle, hcompile, hnotes, hb', ?_⟩
  rw [htext, hadded]
  decide

end Runs

end Tree

end JsxStyle
