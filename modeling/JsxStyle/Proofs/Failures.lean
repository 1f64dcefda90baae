import JsxStyle.Proofs.Mappings
import JsxStyle.Proofs.Silent

/-!
# What a failure leaves behind

A handler that fails should leave the module as it was.  An attribute does: what
can be wrong with it is looked up first, and then the generator is asked; only
after that anything is changed.  The one thing that could still fail, putting in
the annotation, finds its place in every store that handlers lead to.

A reference does not.  The element around it is annotated before the generator is
asked, so a generator that fails leaves the annotation of a style that was never
made.  It leaves nothing else, and no other failure leaves anything.

A generator that reads its answer from a text may add nodes to the store before it
gives up.  Nothing holds these, so what is found from the root is the same.

* `Grafted.unmoved`: trees that nothing holds do not show;
* `failed_attribute_unmoved`: a failing attribute leaves the module as it was;
* `failed_reference_annotates_at_most`: what a failing reference leaves behind;
* `annotation_outlives_failure`: the annotation without its style.
-/

namespace JsxStyle

namespace Tree

/-- The store `u` shows the module that `t` shows: the same nodes are found from the
root, each of them as it was, and the same is printed. -/
structure Unmoved (t u : Tree) : Prop where
  descendants : u.descendants root = t.descendants root
  node : ∀ n ∈ root :: t.descendants root, u.node n = t.node n
  print : u.print = t.print

section Unmoved

variable {t u : Tree}

/-- A node is printed as before if it stands as before and the nodes below are printed so. -/
theorem printNode_congr (ht : t.Linked) (hu : u.Linked) (hsource : u.source = t.source) {n : NodeId}
    (hnode : u.node n = t.node n) (habove : ∀ p ∈ t.parent n, u.form p = t.form p)
    (hbelow : ∀ c ∈ t.children n, u.printNode c = t.printNode c) :
    u.printNode n = t.printNode n := by
  have hplace : u.inAttribute n = t.inAttribute n := by
    have hparent : u.parent n = t.parent n := congrArg Node.parent hnode
    rw [inAttribute, inAttribute, hparent]
    cases hp : t.parent n with
    | none => rfl
    | some p => rw [Option.any_some, Option.any_some, habove p hp]
  have hkind : (u.kind n).map u.printNode = (t.kind n).map t.printNode := by
    have hsame : u.kind n = t.kind n := congrArg Node.kind hnode
    rw [hsame]
    exact Kind.map_congr hbelow
  rw [hu.printNode_eq, ht.printNode_eq, span, dirty, hnode, hsource, hplace, hkind]
  rfl

/-- Trees that nothing holds do not show. -/
theorem Grafted.unmoved {ids : List NodeId} {as : List Ast} (ht : t.Linked)
    (h : Grafted t u ids as) : Unmoved t u := by
  have hlook (n : NodeId) : n < t.size →
      u.descendants n = t.descendants n ∧ u.printNode n = t.printNode n := by
    induction n using ht.downward with
    | _ n ih =>
      intro hn
      have hnode := h.old n hn
      have hchildren : u.children n = t.children n := congrArg (fun m => m.kind.children) hnode
      have hbelow {c : NodeId} (hc : c ∈ t.children n) := ih c hc (ht.lt_size_of_mem hc)
      constructor
      · rw [h.linked.descendants_eq, ht.descendants_eq, hchildren]
        exact List.flatMap_congr fun c hc => congrArg (c :: ·) (hbelow hc).1
      · apply printNode_congr ht h.linked h.source hnode
        · intro p hp
          exact form_eq_of_kind (congrArg Node.kind (h.old p (ht.parent_lt_size hp)))
        · intro c hc
          exact (hbelow hc).2
  obtain ⟨hdescendants, hprint⟩ := hlook root ht.nonempty
  refine ⟨hdescendants, fun n hn => h.old n ?_, hprint⟩
  rcases List.mem_cons.mp hn with rfl | hn
  · exact ht.nonempty
  · obtain ⟨p, hp, -⟩ := Relation.TransGen.head'_iff.mp (ht.mem_descendants_iff.mp hn)
    exact lt_size_of_parent hp

end Unmoved

/-- The program stays the root. -/
theorem Handled.form_root {t : Tree} (h : Handled t) : t.form root = .program := by
  have hkeep {t t' : Tree} (ht : Handled t) (hmoves : Moves t t') (ih : t.form root = .program) :
      t'.form root = .program :=
    (hmoves.form_eq ht.sound ht.sound.linked.nonempty).trans ih
  induction h with
  | read h =>
    obtain ⟨body, -, rfl⟩ := map_eq_ok.mp h
    obtain ⟨ids, hkind, -⟩ := (ofBody_holds _ body).program
    exact congrArg Kind.form hkind
  | restyled ht hs attr ih =>
    exact hkeep ht (Stylist.moves_restyleAttribute ht.sound hs attr) ih
  | referred ht hs scope reference ih =>
    exact hkeep ht (Stylist.moves_restyleReference ht.sound hs scope reference) ih
  | @leftover t ht a _ ih =>
    have hold := (graft_spec a t ht.sound.linked).old root ht.sound.linked.nonempty
    exact (form_eq_of_kind (congrArg Node.kind hold)).trans ih

/-- An attached attribute stands in a tag. -/
theorem Handled.parent_of_attr {t : Tree} (h : Handled t) {attr : NodeId}
    (hattached : t.isAttached attr = true) (hform : t.form attr = .attr) :
    ∃ opening, t.parent attr = some opening ∧ t.form opening = .opening := by
  have hroot : attr ≠ root := by
    rintro rfl
    exact absurd (h.form_root.symm.trans hform) (by decide)
  obtain ⟨opening, hparent⟩ := h.sound.linked.exists_parent hattached hroot
  exact ⟨opening, hparent, h.sound.opening_of_attr hform hparent⟩

end Tree

namespace Stylist

open JsxStyle.Tree

variable {t : Tree} {s : Stylist} {attr opening : NodeId} {classes : Text} {e : StyleError}

/-- An annotation at the end of a tag finds its place. -/
theorem failure_attachTo (ht : t.Sound) (a : Annotator) (hopening : t.form opening = .opening)
    (attributes : List NodeId) (classes : Text) :
    (a.attachTo opening attributes classes t).failure = none := by
  refine (annotate_cases (P := fun _ => True) ht a opening attributes classes trivial
    (fun _ _ => trivial) ?_).1
  intro u new hadds _ _ _
  have hlt : opening < t.size := lt_size_of_form (by rw [hopening]; decide)
  have hopeningu : u.form opening = .opening := (hadds.form_eq hlt).trans hopening
  obtain ⟨u', happend⟩ := exists_append (items_eq_children (Or.inl hopeningu)) new
  exact ⟨u', happend, trivial⟩

/-- An annotation behind an attribute finds its place. -/
theorem failure_attachAfter (ht : t.Sound) (a : Annotator) {style : NodeId}
    (hparent : t.parent style = some opening) (hopening : t.form opening = .opening)
    (attributes : List NodeId) (classes : Text) :
    (a.attachAfter style attributes classes t).failure = none := by
  refine (annotate_cases (P := fun _ => True) ht a style attributes classes trivial
    (fun _ _ => trivial) ?_).1
  intro u new hadds _ _ _
  have hparentu : u.parent style = some opening :=
    (hadds.parent_eq (lt_size_of_parent hparent)).trans hparent
  have hopeningu : u.form opening = .opening :=
    (hadds.form_eq (ht.linked.parent_lt_size hparent)).trans hopening
  have hmem : style ∈ u.children opening := (hadds.moves.sound ht).linked.mem_children.mpr hparentu
  obtain ⟨u', hinsert⟩ :=
    exists_insertAfter hparentu (items_eq_children (Or.inl hopeningu)) hmem new
  exact ⟨u', hinsert, trivial⟩

/-- Putting a style in the place of an attribute fails only if there is none, and first. -/
theorem convert_failed (ht : t.Sound) (hs : s.generate.Plain)
    (hparent : t.parent attr = some opening) (hopening : t.form opening = .opening)
    {attributes : List NodeId} (hfail : (s.convert attr attributes classes t).failure = some e) :
    (s.convert attr attributes classes t).tree = t ∧ s.generate classes = .error e := by
  unfold convert at hfail ⊢
  cases hast : s.generate classes with
  | error e' =>
    rw [hast] at hfail
    obtain rfl := Option.some.inj hfail
    exact ⟨rfl, rfl⟩
  | ok ast =>
    obtain ⟨hstyles, hloose⟩ := adds_generated ht.linked hs hast
    simp only [hast] at hfail
    generalize (graft ast).run t = run at *
    obtain ⟨styles, u⟩ := run
    dsimp only at *
    obtain ⟨hadds, hkind, -, -⟩ := hstyles.styleAttribute ht.linked hloose
    rw [alloc_fst, alloc_fst] at hfail
    generalize (Tree.alloc (.attr Vocabulary.style (some u.size)) none
      (u.alloc (.container (some styles)) none).2).2 = w at *
    generalize (u.alloc (.container (some styles)) none).2.size = style at *
    obtain ⟨hreplaced, hnew⟩ :=
      moves_styleAttribute ht hparent hopening hadds (congrArg Kind.form hkind)
    have hall : Moves t (w.replaceAt attr style) := hadds.moves.trans hreplaced
    have hopening' : (w.replaceAt attr style).form opening = .opening :=
      (hall.form_eq ht (ht.linked.parent_lt_size hparent)).trans hopening
    rw [failure_attachAfter (hall.sound ht) s.annotator hnew hopening'] at hfail
    exact absurd hfail (by simp)

/-- Merging a style with others fails only if there are none to merge with or if there is
no style, and first. -/
theorem merge_failed (ht : t.Sound) (hs : s.generate.Plain) (hattr : t.form attr = .attr)
    (hparent : t.parent attr = some opening) (hopening : t.form opening = .opening) {style : NodeId}
    (hfail : (s.merge attr style opening classes t).failure = some e) :
    (s.merge attr style opening classes t).tree = t ∧
      (t.styleExpression style = none ∧ e = ⟨.emptyStyle, t.span style⟩ ∨
        s.generate classes = .error e) := by
  unfold merge at hfail ⊢
  cases hexpression : t.styleExpression style with
  | none =>
    rw [hexpression] at hfail
    exact ⟨rfl, Or.inl ⟨rfl, (Option.some.inj hfail).symm⟩⟩
  | some expression =>
    cases hast : s.generate classes with
    | error e' =>
      rw [hexpression, hast] at hfail
      obtain rfl := Option.some.inj hfail
      exact ⟨rfl, Or.inr rfl⟩
    | ok ast =>
      obtain ⟨-, container, -, -, hcontainer, hloose⟩ := ht.style_parts hexpression
      obtain ⟨hadds, hstyles⟩ := adds_generated ht.linked hs hast
      simp only [hexpression, hast] at hfail
      generalize (graft ast).run t = run at *
      obtain ⟨styles, u⟩ := run
      dsimp only at *
      obtain ⟨hremoved, -, hmerged⟩ := moves_remove_mergeStyles ht hattr hparent hopening hcontainer
        hloose hadds hstyles
      have hall : Moves t (mergeStyles expression styles (u.remove attr)) := hremoved.trans hmerged
      have hopening' : (mergeStyles expression styles (u.remove attr)).form opening = .opening :=
        (hall.form_eq ht (ht.linked.parent_lt_size hparent)).trans hopening
      rw [failure_attachTo (hall.sound ht) s.annotator hopening'] at hfail
      exact absurd hfail (by simp)

/-- An attribute in a tag fails for what is wrong with it, or because there is no style for
its classes, and then nothing was changed. -/
theorem restyleAttribute_failed (ht : t.Sound) (hs : s.generate.Plain)
    (hparent : t.parent attr = some opening)
    (hfail : (s.restyleAttribute attr t).failure = some e) :
    (s.restyleAttribute attr t).tree = t ∧
      (t.shorthandFault attr = some e ∨ ∃ classes, t.shorthandClasses attr = .ok classes ∧
        s.generate classes = .error e) := by
  by_cases hname : t.attributeName attr = some Vocabulary.shorthand
  · cases hclasses : t.shorthandClasses attr with
    | error e' =>
      have hstep : s.restyleAttribute attr t = ⟨t, some e'⟩ := by
        rw [restyleAttribute, if_pos hname, hclasses]
      rw [hstep] at hfail ⊢
      refine ⟨rfl, Or.inl ?_⟩
      rw [shorthandFault, if_pos hname, hclasses]
      exact hfail
    | ok classes =>
      obtain ⟨value, hkind⟩ := attributeName_eq_some hname
      have hattr : t.form attr = .attr := congrArg Kind.form hkind
      have hsome : t.classes attr = some classes := by
        rw [Tree.classes, if_pos hname, hclasses]
        rfl
      obtain ⟨hopening, hstep⟩ := restyleAttribute_of_some (s := s) ht hsome hparent
      rw [hstep] at hfail ⊢
      cases hstyle : t.attributeNamed (t.attributes opening) Vocabulary.style with
      | none =>
        rw [hstyle] at hfail
        obtain ⟨htree, hgenerate⟩ := convert_failed ht hs hparent hopening hfail
        exact ⟨htree, Or.inr ⟨classes, rfl, hgenerate⟩⟩
      | some style =>
        rw [hstyle] at hfail
        obtain ⟨htree, ⟨hnone, rfl⟩ | hgenerate⟩ := merge_failed ht hs hattr hparent hopening hfail
        · refine ⟨htree, Or.inl ?_⟩
          rw [shorthandFault_of_ok hname hclasses hparent, blankStyle, hstyle, Option.filter_some,
            hnone]
          rfl
        · exact ⟨htree, Or.inr ⟨classes, rfl, hgenerate⟩⟩
  · have hstep : s.restyleAttribute attr t = ⟨t, none⟩ := if_neg hname
    rw [hstep] at hfail
    exact absurd hfail (by simp)

/-- Annotating around a reference never fails. -/
theorem failure_annotateAround (ht : t.Sound) (reference : NodeId) (classes : Text) :
    (s.annotateAround reference classes t).failure = none := by
  unfold annotateAround
  cases henclosing : t.enclosing reference .opening with
  | none => rfl
  | some opening =>
    exact failure_attachTo ht s.annotator (ht.linked.form_of_enclosing henclosing).1 ..

/-- A reference fails where its template may not stand, and then nothing was changed, or
because there is no style for its classes, and then the element around it was annotated. -/
theorem restyleReference_failed (ht : t.Sound) {scope : Scope} {reference : NodeId}
    (hfail : (s.restyleReference scope reference t).failure = some e) :
    t.restriction scope.allowAnywhere reference = some e ∧
        (s.restyleReference scope reference t).tree = t ∨
      ∃ template classes, t.enclosing reference .template = some template ∧
        t.staticClasses template scope.builder = some classes ∧ s.generate classes = .error e ∧
        (s.restyleReference scope reference t).tree =
          (s.annotateAround reference classes t).tree := by
  unfold restyleReference at hfail ⊢
  split at hfail
  case isTrue hattached =>
    rw [if_pos hattached]
    cases henclosing : t.enclosing reference .template with
    | none =>
      rw [henclosing] at hfail
      exact absurd hfail (by simp)
    | some template =>
      rw [henclosing] at hfail
      dsimp only at hfail ⊢
      by_cases hpermits : permits scope template t = true
      · rw [if_pos hpermits] at hfail ⊢
        cases hstatic : t.staticClasses template scope.builder with
        | none =>
          rw [hstatic] at hfail
          exact absurd hfail (by simp)
        | some classes =>
          rw [hstatic] at hfail
          dsimp only at hfail ⊢
          refine Or.inr ⟨template, classes, rfl, hstatic, ?_⟩
          have hok : (s.annotateAround reference classes t).failure = none :=
            failure_annotateAround ht reference classes
          generalize s.annotateAround reference classes t = step at *
          obtain ⟨u, failure⟩ := step
          obtain rfl : failure = none := hok
          dsimp only at hfail ⊢
          unfold replaceTemplate at hfail ⊢
          cases hast : s.generate classes with
          | error e' =>
            rw [hast] at hfail
            obtain rfl := Option.some.inj hfail
            exact ⟨rfl, rfl⟩
          | ok ast =>
            rw [hast] at hfail
            have hnone : none = some e := hfail
            exact absurd hnone (by simp)
      · rw [if_neg hpermits] at hfail ⊢
        refine Or.inl ⟨?_, rfl⟩
        rw [restriction, henclosing, Option.bind_some,
          if_neg fun h => hpermits ((permits_iff ..).mpr h)]
        exact hfail
  case isFalse => exact absurd hfail (by simp)

end Stylist

namespace Generator

theorem plain_runtimeCall (callee : Text) : (runtimeCall callee).Plain :=
  fun _ _ hast => Or.inl ⟨callee, hast⟩

theorem plain_ofSnippet (write : Text → Text) : (ofSnippet write).Plain := by
  intro classes ast hast
  refine Or.inr ⟨write classes, ?_⟩
  unfold ofSnippet at hast
  cases hread : Read.snippet (write classes) with
  | ok found =>
    rw [hread] at hast
    exact congrArg Except.ok (Except.ok.inj hast)
  | error e =>
    rw [hread] at hast
    exact absurd hast (by simp)

/-- A generator that refuses some classes answers as before where it does not. -/
theorem Plain.guarded {g : Generator} (hg : g.Plain) (refuses : Text → Bool) (message : Text) :
    (g.guarded refuses message).Plain := by
  intro classes ast hast
  unfold Generator.guarded at hast
  split at hast
  · exact absurd hast (by simp)
  · exact hg classes ast hast

end Generator

namespace Tree

variable {t : Tree} {s : Stylist} {e : StyleError}

/-- **A failing attribute leaves the module as it was.**  An attribute that is found in a
module fails for what is wrong with it, or because no style could be made for its
classes; that its element is missing is never the reason.  Of what was seen so far
only that there is a shorthand attribute is noted.  Whatever trees the attempt to
make a style has left in the store, the module shows as before. -/
theorem failed_attribute_unmoved (ht : Handled t) (hs : s.generate.Plain) {attr : NodeId}
    (hattr : t.isAttached attr = true) (hfail : (s.restyleAttribute attr t).failure = some e)
    (seen : Seen) (left : List Ast) :
    Unmoved t ((left.mapM graft).run (s.restyleAttribute attr t).tree).2 ∧
      seen.note (t.attributeName attr) = { seen with shorthand := true } ∧
      (t.shorthandFault attr = some e ∧ e.fault ≠ .missingElement ∨
        ∃ classes, t.shorthandClasses attr = .ok classes ∧ s.generate classes = .error e) := by
  have hname : t.attributeName attr = some Vocabulary.shorthand := by
    by_contra hname
    rw [Stylist.restyleAttribute, if_neg hname] at hfail
    exact absurd hfail (by simp)
  obtain ⟨value, hkind⟩ := attributeName_eq_some hname
  obtain ⟨opening, hparent, -⟩ := ht.parent_of_attr hattr (congrArg Kind.form hkind)
  obtain ⟨htree, hreason⟩ := Stylist.restyleAttribute_failed ht.sound hs hparent hfail
  rw [htree]
  refine ⟨(mapM_graft_spec left t ht.sound.linked).unmoved ht.sound.linked, ?_, ?_⟩
  · have hne : Vocabulary.shorthand ≠ Vocabulary.style := by decide
    simp [Seen.note, hname, hne]
  · rcases hreason with hfault | hgenerate
    · refine Or.inl ⟨hfault, fun hmissing => ?_⟩
      rcases (shorthandFault_eq_some hfault).2 with h | h <;>
        exact absurd (h.symm.trans hmissing) (by simp)
    · exact Or.inr hgenerate

/-- The first of two shorthand attributes is merged, and the text that a style for the
second one is read from breaks off: the module shows what it showed in between. -/
theorem broken_style_unmoved :
    ∃ t : Tree, ofSource (Text.ofString "<a css=\x7bx\x7d tw='</b>' tw='\x7b' />") = .ok t ∧
      ∃ s : Stylist,
        s = ⟨Generator.ofSnippet (Text.ofString "<b>" ++ ·), ⟨true, Text.ofString "d"⟩⟩ ∧
        ∃ u : Tree, u = (s.restyleAttribute 5 t).tree ∧ u.isAttached 7 = true ∧
          (s.restyleAttribute 7 u).failure.map StyleError.message = some (Text.ofString
            "Style generation failed: Parse error at byte 3: Unclosed JSX expression container") ∧
          Unmoved u (([Ast.made (.text (Text.ofString "x"))].mapM graft).run
            (s.restyleAttribute 7 u).tree).2 := by
  let s : Stylist := ⟨Generator.ofSnippet (Text.ofString "<b>" ++ ·), ⟨true, Text.ofString "d"⟩⟩
  have hrun : ((ofSource (Text.ofString "<a css=\x7bx\x7d tw='</b>' tw='\x7b' />")).toOption.any
      fun t =>
        let u := (s.restyleAttribute 5 t).tree
        u.isAttached 7 = true ∧ (s.restyleAttribute 7 u).failure.map StyleError.message =
          some (Text.ofString
            "Style generation failed: Parse error at byte 3: Unclosed JSX expression container")) =
      true := by
    decide +kernel
  obtain ⟨t, hread, hu⟩ := exists_of_any hrun
  obtain ⟨hattached, hmessage⟩ := of_decide_eq_true hu
  obtain ⟨e, hfail, -⟩ := Option.map_eq_some_iff.mp hmessage
  have hs : s.generate.Plain := Generator.plain_ofSnippet _
  have hunmoved :=
    failed_attribute_unmoved ((Handled.read hread).restyled hs 5) hs hattached hfail {}
    [Ast.made (.text (Text.ofString "x"))]
  exact ⟨t, hread, s, rfl, _, rfl, hattached, hmessage, hunmoved.1⟩

/-- **A failing reference annotates at most.**  Where a reference fails, the module shows as
before, or else no style could be made for the classes of its template and the element
around it was annotated with them, and that is all. -/
theorem failed_reference_annotates_at_most (ht : Handled t) {scope : Scope} {reference : NodeId}
    (hfail : (s.restyleReference scope reference t).failure = some e) (left : List Ast) :
    Unmoved t ((left.mapM graft).run (s.restyleReference scope reference t).tree).2 ∨
      ∃ template classes opening, t.enclosing reference .template = some template ∧
        t.staticClasses template scope.builder = some classes ∧ s.generate classes = .error e ∧
        t.enclosing reference .opening = some opening ∧ s.annotator.enabled = true ∧
        Unmoved (s.annotator.attachTo opening (t.attributes opening) classes t).tree
          ((left.mapM graft).run (s.restyleReference scope reference t).tree).2 := by
  have hleft {u : Tree} (hu : u.Linked) : Unmoved u ((left.mapM graft).run u).2 :=
    (mapM_graft_spec left u hu).unmoved hu
  rcases Stylist.restyleReference_failed ht.sound hfail with
    ⟨-, htree⟩ | ⟨template, classes, htemplate, hstatic, hgenerate, htree⟩
  · rw [htree]
    exact Or.inl (hleft ht.sound.linked)
  · have hsound : (s.annotateAround reference classes t).tree.Sound :=
      (Stylist.moves_annotateAround ht.sound reference classes).sound ht.sound
    rw [htree]
    cases hopening : t.enclosing reference .opening with
    | none =>
      have hnone : s.annotateAround reference classes t = ⟨t, none⟩ := by
        rw [Stylist.annotateAround, hopening]
      rw [hnone]
      exact Or.inl (hleft ht.sound.linked)
    | some opening =>
      have haround : s.annotateAround reference classes t =
          s.annotator.attachTo opening (t.attributes opening) classes t := by
        rw [Stylist.annotateAround, hopening]
      rw [haround] at hsound ⊢
      cases hon : s.annotator.enabled with
      | false =>
        rw [Annotator.attachTo_of_off hon]
        exact Or.inl (hleft ht.sound.linked)
      | true =>
        exact Or.inr ⟨template, classes, opening, htemplate, hstatic, hgenerate, rfl, rfl,
          hleft hsound.linked⟩

/-- The style of a template is refused when the element around it has been annotated. -/
theorem refused_style_annotated :
    ∃ t : Tree,
      ofSource (Text.ofString "import tw from 'm';<a css=\x7btw\x60b\x60\x7d />") = .ok t ∧
      ∃ s : Stylist, s = ⟨(Generator.runtimeCall []).guarded (fun _ => true) [],
          ⟨true, Text.ofString "d"⟩⟩ ∧
        ∃ u : Tree, u = (s.restyleReference ⟨false, some (Text.ofString "tw")⟩ 2 t).tree ∧
          (s.restyleReference ⟨false, some (Text.ofString "tw")⟩ 2 t).failure =
            some ⟨.generator [], none⟩ ∧
          (Unmoved t (([].mapM graft).run u).2 ∨ ∃ template classes opening,
            t.enclosing 2 .template = some template ∧
            t.staticClasses template (some (Text.ofString "tw")) = some classes ∧
            s.generate classes = .error ⟨.generator [], none⟩ ∧
            t.enclosing 2 .opening = some opening ∧ s.annotator.enabled = true ∧
            Unmoved (s.annotator.attachTo opening (t.attributes opening) classes t).tree
              (([].mapM graft).run u).2) := by
  let s : Stylist :=
    ⟨(Generator.runtimeCall []).guarded (fun _ => true) [], ⟨true, Text.ofString "d"⟩⟩
  have hrun : ((ofSource (Text.ofString
      "import tw from 'm';<a css=\x7btw\x60b\x60\x7d />")).toOption.any fun t =>
        (s.restyleReference ⟨false, some (Text.ofString "tw")⟩ 2 t).failure =
          some ⟨.generator [], none⟩) = true := by
    decide +kernel
  obtain ⟨t, hread, hfail⟩ := exists_of_any hrun
  have hfail := of_decide_eq_true hfail
  exact ⟨t, hread, s, rfl, _, rfl, hfail,
    failed_reference_annotates_at_most (Handled.read hread) hfail []⟩

/-- Not every reference that fails leaves the module as it was: the annotation of a style
that could not be made stays. -/
theorem annotation_outlives_failure :
    ¬ ∀ (t : Tree) (s : Stylist) (scope : Scope) (reference : NodeId) (e : StyleError), Handled t →
      s.generate.Plain → (s.restyleReference scope reference t).failure = some e →
      (s.restyleReference scope reference t).tree.print = t.print := by
  intro h
  let s : Stylist :=
    ⟨(Generator.runtimeCall []).guarded (fun _ => true) [], ⟨true, Text.ofString "d"⟩⟩
  have hrun : ((ofSource (Text.ofString
      "import tw from 'm';<a css=\x7btw\x60b\x60\x7d />")).toOption.any fun t =>
        let step := s.restyleReference ⟨false, some (Text.ofString "tw")⟩ 2 t
        step.failure = some ⟨.generator [], none⟩ ∧ step.tree.print.code =
          Text.ofString "import tw from 'm';<a css=\x7btw\x60b\x60\x7d d=\"b\" />" ∧
        t.print.code =
          Text.ofString "import tw from 'm';<a css=\x7btw\x60b\x60\x7d />") = true := by
    decide +kernel
  obtain ⟨t, hread, hfacts⟩ := exists_of_any hrun
  obtain ⟨hfail, hafter, hbefore⟩ := of_decide_eq_true hfacts
  have hs : s.generate.Plain :=
    (Generator.plain_runtimeCall []).guarded (fun _ => true) []
  have hsame := h t s ⟨false, some (Text.ofString "tw")⟩ 2 _ (Handled.read hread) hs hfail
  rw [← hsame, hafter] at hbefore
  exact absurd hbefore (by decide)

end Tree

end JsxStyle
