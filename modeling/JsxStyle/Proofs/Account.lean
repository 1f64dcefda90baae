import JsxStyle.Proofs.Tally

/-!
# The account of a module

When attributes and references are restyled and failures do not end the
compilation, every failure is reported and leaves its mark: the shorthand
attributes that are left are those that failed, and the diagnostics are their
faults and then those of the references, each in the order of the source.

A reference that is restyled tags a template whose holes hold literals only, so
no other reference and no attribute goes with that template.  Whatever else is
changed for a reference, the way up from the others stays as it was.

* `Referred`: what is known after a reference was restyled;
* `restyleReference_referred`, `restyleReferences_referred`: a reference fails
  for the reason that there is, and so do several, one after the other;
* `run_accounted`: the account of a whole run.
-/

namespace JsxStyle

/-- Forms of nodes that are no attributes, no references and no templates. -/
def Form.Inert : Form → Prop
  | .str | .fragment | .code => True
  | _ => False

namespace Tree

/-- A store shows templates with as many chunks as its trees have. -/
theorem Depicts.paired_iff {t : Tree} {n : NodeId} {a : Ast} (h : t.Depicts n a) :
    (t.kind n).Paired ↔ a.kind.Paired := by
  cases h with
  | node z hlt hkind hbelow => rw [hkind, Kind.paired_map, Ast.kind, Kind.paired_map]

/-- Every template that was read has one more chunk than holes. -/
theorem paired_ofSource {source : Text} {t : Tree} (h : ofSource source = .ok t) (n : NodeId) :
    (t.kind n).Paired := by
  obtain ⟨body, hbody, rfl⟩ := map_eq_ok.mp h
  have hholds := ofBody_holds source body
  by_cases hroot : n = root
  · obtain ⟨ids, hkind, -⟩ := hholds.program
    rw [hroot, hkind]
    trivial
  · rcases Nat.lt_or_ge n (ofBody source body).size with hlt | hge
    · obtain ⟨a, ha, b, hb, hdepicts, -⟩ := hholds.others n hroot hlt
      exact hdepicts.paired_iff.mpr ((Read.fits_program hbody a ha).1.2 b hb).2
    · rw [kind_of_size_le hge]
      trivial

/-- Why a reference to the style builder cannot be restyled: the template around it does
not stand in a style attribute, and it may not stand anywhere else. -/
def restriction (t : Tree) (allowAnywhere : Bool) (reference : NodeId) : Option StyleError :=
  (t.enclosing reference .template).bind fun template =>
    if allowAnywhere ∨ ∃ attr ∈ t.enclosing template .attr,
      t.attributeName attr = some Vocabulary.style then none
    else some ⟨.styleRestricted, t.span template⟩

/-- A scope permits a template anywhere or in a style attribute. -/
theorem permits_iff (t : Tree) (scope : Scope) (template : NodeId) :
    Stylist.permits scope template t = true ↔ scope.allowAnywhere ∨
      ∃ attr ∈ t.enclosing template .attr, t.attributeName attr = some Vocabulary.style := by
  simp [Stylist.permits, Option.bind_eq_some_iff]

section Templates

variable {t : Tree}

/-- What stands in the holes of a template that is known in advance. -/
theorem literal_of_foldChunks {chunks : List Text} {holes : List NodeId} {classes : Text}
    (h : t.foldChunks chunks holes = some classes) (hlen : holes.length ≤ chunks.length) :
    ∀ hole ∈ holes, (t.literalText hole).isSome := by
  induction chunks generalizing holes classes with
  | nil => simp_all
  | cons chunk chunks ih =>
    cases holes with
    | nil => simp
    | cons hole holes =>
      obtain ⟨value, hvalue, h⟩ := Option.bind_eq_some_iff.mp h
      obtain ⟨more, hmore, -⟩ := Option.bind_eq_some_iff.mp h
      intro n hn
      rcases List.mem_cons.mp hn with rfl | hn
      · exact Option.isSome_iff_exists.mpr ⟨value, hvalue⟩
      · exact ih hmore (Nat.le_of_succ_le_succ hlen) n hn

/-- A literal has nothing in it but literals. -/
theorem Within.inert_of_literal (ht : t.Linked) {n hole : NodeId} (h : t.Within n hole)
    (hliteral : (t.literalText hole).isSome) : (t.form n).Inert := by
  obtain ⟨value, hvalue⟩ := Option.isSome_iff_exists.mp hliteral
  obtain ⟨quote, hkind⟩ | ⟨only, code, hkind, honly, -⟩ := literalText_eq_some.mp hvalue
  · obtain rfl := h.eq_of_leaf ht (by rw [children, hkind]; rfl)
    rw [form, hkind]
    trivial
  · rcases h.eq_or_of_only ht (by rw [children, hkind]; rfl) with rfl | h
    · rw [form, hkind]
      trivial
    · obtain rfl := h.eq_of_leaf ht (by rw [children, honly]; rfl)
      rw [form, honly]
      trivial

/-- In a template that is known in advance there are its tag, literals and nothing else. -/
theorem within_static (ht : t.Linked) {template : NodeId} {builder : Option Text} {classes : Text}
    (hpaired : (t.kind template).Paired) (h : t.staticClasses template builder = some classes) :
    t.form template = .template ∧ ∃ tag, t.form tag = .ident ∧
      ∀ n, t.Within n template → n = template ∨ n = tag ∨ (t.form n).Inert := by
  obtain ⟨tag, chunks, holes, name, hkind, htag, -, hfold⟩ := staticClasses_eq_some.mp h
  rw [hkind, Kind.Paired] at hpaired
  refine ⟨congrArg Kind.form hkind, tag, congrArg Kind.form htag, fun n hn => ?_⟩
  rcases Relation.ReflTransGen.cases_tail hn with heq | ⟨c, hnc, hc⟩
  · exact Or.inl heq.symm
  · have hmem : c ∈ tag :: holes := by
      have := ht.mem_children.mpr hc
      rwa [children, hkind] at this
    rcases List.mem_cons.mp hmem with rfl | hmem
    · exact Or.inr (Or.inl (Within.eq_of_leaf ht hnc (by rw [children, htag]; rfl)))
    · exact Or.inr (Or.inr (Within.inert_of_literal ht hnc
        (literal_of_foldChunks hfold (by omega) c hmem)))

/-- The way up from tags, attributes and other references does not lead through the template
of a reference, if the template is known in advance. -/
theorem ne_template_of_within (ht : t.Linked) {reference template n m : NodeId}
    {builder : Option Text} {classes : Text} (hpaired : (t.kind template).Paired)
    (hstatic : t.staticClasses template builder = some classes)
    (hwithin : t.Within reference template) (hform : t.form reference = .ident)
    (hn : t.form n = .attr ∨ t.form n = .opening ∨ t.form n = .ident ∧ n ≠ reference)
    (hm : t.Within n m) : m ≠ template := by
  rintro rfl
  obtain ⟨htform, tag, htag, honly⟩ := within_static ht hpaired hstatic
  have hreference : reference = tag := by
    rcases honly reference hwithin with rfl | heq | hinert
    · exact absurd (hform.symm.trans htform) (by decide)
    · exact heq
    · rw [hform] at hinert
      exact hinert.elim
  rcases honly n hm with rfl | rfl | hinert
  · rcases hn with hn | hn | ⟨hn, -⟩ <;> exact absurd (hn.symm.trans htform) (by decide)
  · rcases hn with hn | hn | ⟨-, hne⟩
    · exact absurd (hn.symm.trans htag) (by decide)
    · exact absurd (hn.symm.trans htag) (by decide)
    · exact hne hreference.symm
  · rcases hn with hn | hn | ⟨hn, -⟩ <;> rw [hn] at hinert <;> exact hinert.elim

end Templates

/-- A template that is supplied by nobody has been read, chunks and holes included. -/
theorem Supplies.paired {t t' : Tree} (h : Supplies t t') (ht : t.Sound) (hmoves : Moves t t')
    (hpaired : ∀ n, (t.kind n).Paired) (n : NodeId) : (t'.kind n).Paired := by
  by_cases hn : n < t.size
  · exact (hmoves.paired_iff ht hn).mpr (hpaired n)
  · have hform := (h n (Nat.le_of_not_lt hn)).1
    unfold form at hform
    cases hk : t'.kind n <;> simp_all [Kind.form, Kind.Paired]

section Ways

variable {t t' : Tree} {n : NodeId}

/-- The way up from a node is as it was. -/
def SameWay (t t' : Tree) (n : NodeId) : Prop :=
  ∀ m, t.Within n m → t'.parent m = t.parent m

namespace SameWay

theorem trans {u : Tree} (h : SameWay t u n) (h' : SameWay u t' n) : SameWay t t' n := by
  intro m hm
  rw [h' m ?_, h m hm]
  have hpath : ∀ {a}, t.Within n a → u.Within n a := by
    intro a ha
    induction ha with
    | refl => exact .refl
    | tail hin hup ih => exact ih.tail ((h _ hin).trans hup)
  exact hpath hm

/-- What stands above a node has the same way if the node has. -/
theorem above {a : NodeId} (h : SameWay t t' n) (ha : t.Within n a) : SameWay t t' a :=
  fun m hm => h m (ha.trans hm)

variable (h : SameWay t t' n) (ht : t.Sound) (hmoves : Moves t t')

include h ht hmoves

/-- With the same way to the root a node has the same ancestors. -/
theorem ancestors_eq : t'.ancestors n = t.ancestors n :=
  ancestors_eq_of_path ht.linked (hmoves.sound ht).linked h

/-- With the same way to the root a node is attached or not as before. -/
theorem isAttached_eq : t'.isAttached n = t.isAttached n := by
  rw [isAttached, h.ancestors_eq ht hmoves, isAttached]

/-- With the same way to the root a node is enclosed by the same nodes. -/
theorem enclosing_eq (f : Form) : t'.enclosing n f = t.enclosing n f := by
  unfold enclosing findAncestor
  rw [h.ancestors_eq ht hmoves, ← List.head?_filter, ← List.head?_filter]
  refine congrArg List.head? (List.filter_congr fun a ha => ?_)
  have hlt : a < t.size := by
    obtain ⟨c, -, hc⟩ := (Relation.TransGen.tail'_iff).mp (ht.linked.mem_ancestors_iff.mp ha)
    exact ht.linked.parent_lt_size hc
  exact congrArg (fun g => decide (g = f)) (hmoves.form_eq ht hlt)

/-- A reference is restricted as before. -/
theorem restriction_eq (hspan : ∀ m < t.size, t'.span m = t.span m) (allowAnywhere : Bool) :
    t'.restriction allowAnywhere n = t.restriction allowAnywhere n := by
  unfold restriction
  rw [h.enclosing_eq ht hmoves]
  cases htemplate : t.enclosing n .template with
  | none => rfl
  | some template =>
    have hwithin : t.Within n template :=
      (ht.linked.mem_ancestors_iff.mp (List.mem_of_find?_eq_some htemplate)).to_reflTransGen
    have hname : ∀ attr ∈ t.enclosing template .attr,
        t'.attributeName attr = t.attributeName attr := fun attr hattr =>
      hmoves.attributeName_eq ht (ht.linked.form_of_enclosing hattr).2
    rw [Option.bind_some, Option.bind_some, (h.above hwithin).enclosing_eq ht hmoves,
      hspan template (ht.linked.form_of_enclosing htemplate).2]
    refine if_congr (or_congr_right ?_) rfl rfl
    exact exists_congr fun attr => and_congr_right fun hattr => by rw [hname attr hattr]

end SameWay

/-- A node that is put somewhere is no concern of others. -/
theorem Linked.links_replaceAt (ht : t.Linked) (old : NodeId) {new : NodeId} (hlt : new < t.size)
    (hdirty : t.dirty new = true) (hnew : n ≠ new) :
    (t.replaceAt old new).size = t.size ∧ (t.replaceAt old new).span n = t.span n ∧
      (n ≠ old → (t.replaceAt old new).parent n = t.parent n) := by
  have hspan : (t.update new ({ · with span := t.span old })).span n = t.span n := by
    simp only [span, node_update, hnew, false_and, if_false]
  cases hp : t.parent old with
  | none =>
    rw [replaceAt_eq ht hlt hdirty, replace_of_free ((parent_place ..).trans hp)]
    exact ⟨size_update .., hspan, fun _ => parent_place ..⟩
  | some above =>
    have hedit := editAt_replaceAt ht hp hlt hdirty
    refine ⟨hedit.size.trans (size_update ..), (hedit.span n).trans hspan, fun hold => ?_⟩
    rw [hedit.parent, if_neg hnew, if_neg hold]

end Ways

/-- What is known after the reference `reference` was restyled: tags, attributes and other
references are where they were. -/
structure Referred (t t' : Tree) (reference : NodeId) : Prop where
  moves : Moves t t'
  supplies : Supplies t t'
  span : ∀ n < t.size, t'.span n = t.span n
  way : ∀ n, t.form n = .attr ∨ t.form n = .opening ∨ t.form n = .ident ∧ n ≠ reference →
    SameWay t t' n

theorem Referred.refl (t : Tree) (reference : NodeId) : Referred t t reference where
  moves := .refl
  supplies := .of_size_le (Nat.le_refl _)
  span _ _ := rfl
  way _ _ _ _ := rfl

end Tree

namespace Stylist

open JsxStyle.Tree

variable {t : Tree} {s : Stylist} {callee : Text} {reference template : NodeId} {classes : Text}

/-- An annotation around a reference never fails and cuts off a string at most. -/
theorem annotateAround_spec (ht : t.Sound) (hlabel : s.annotator.label ≠ Vocabulary.shorthand)
    (reference : NodeId) (classes : Text) :
    (s.annotateAround reference classes t).failure = none ∧
      Supplies t (s.annotateAround reference classes t).tree ∧
      (∀ n < t.size, (s.annotateAround reference classes t).tree.span n = t.span n) ∧
      ∀ n < t.size, t.form n ≠ .str →
        (s.annotateAround reference classes t).tree.parent n = t.parent n := by
  unfold annotateAround
  cases henclosing : t.enclosing reference .opening with
  | none => exact ⟨rfl, .of_size_le (Nat.le_refl _), fun _ _ => rfl, fun _ _ _ => rfl⟩
  | some opening =>
    obtain ⟨hok, hann, hnote⟩ := annotated_attachTo ht s.annotator
      (ht.linked.form_of_enclosing henclosing).1
      (fun b hb _ => parent_of_mem_attributes ht.linked hb) classes opening
    exact ⟨hok, hnote.supplies hlabel, hann.span, hnote.parent⟩

/-- The style that stands for a template is always found, and only the template is cut off. -/
theorem replaceTemplate_spec (ht : t.Sound) (hs : s.generate = Generator.runtimeCall callee)
    (htemplate : template < t.size) (classes : Text) :
    (s.replaceTemplate template classes t).failure = none ∧
      Supplies t (s.replaceTemplate template classes t).tree ∧
      (∀ n < t.size, (s.replaceTemplate template classes t).tree.span n = t.span n) ∧
      ∀ n < t.size, n ≠ template →
        (s.replaceTemplate template classes t).tree.parent n = t.parent n := by
  have hplain : s.generate.Plain := fun _ _ hast => Or.inl ⟨callee, hs ▸ hast⟩
  obtain ⟨ast, hast⟩ : ∃ ast, s.generate classes = .ok ast := ⟨_, by rw [hs]; rfl⟩
  have hsupplies := supplies_graft ht.linked (Generator.steady_runtimeCall (hs ▸ hast))
  obtain ⟨hadds, hloose⟩ := adds_generated ht.linked hplain hast
  unfold replaceTemplate
  rw [hast]
  dsimp only
  generalize (graft ast).run t = run at *
  obtain ⟨styles, u⟩ := run
  dsimp only at *
  have hu := hadds.moves.sound ht
  have hlinks {n : NodeId} (hn : n < t.size) :=
    hu.linked.links_replaceAt template hadds.lt_size hadds.dirty
      (Nat.ne_of_lt (Nat.lt_of_lt_of_le hn hadds.behind))
  have hreplace : Moves u (u.replaceAt template styles) :=
    moves_replaceAt hu hadds.lt_size hadds.dirty fun above habove => by
      rw [hadds.parent_eq htemplate] at habove
      exact ⟨hadds.free ht.linked (ht.linked.parent_lt_size habove), hloose.admits _⟩
  refine ⟨rfl, hsupplies.trans (.of_size_le ?_) hu hreplace, fun n hn => ?_, fun n hn hne => ?_⟩
  · exact Nat.le_of_eq (hlinks htemplate).1
  · exact (hlinks hn).2.1.trans (congrArg Node.span (hadds.old n hn))
  · exact ((hlinks hn).2.2 hne).trans (hadds.parent_eq hn)

/-- A reference fails for the reason that there is, and it leaves attributes and other
references where they are. -/
theorem restyleReference_referred (ht : t.Sound) (hpaired : ∀ n, (t.kind n).Paired)
    (hs : s.generate = Generator.runtimeCall callee)
    (hlabel : s.annotator.label ≠ Vocabulary.shorthand) (scope : Scope)
    (hattached : t.isAttached reference = true) (hform : t.form reference = .ident) :
    (s.restyleReference scope reference t).failure = t.restriction scope.allowAnywhere reference ∧
      Referred t (s.restyleReference scope reference t).tree reference := by
  have hplain : s.generate.Plain := fun _ _ hast => Or.inl ⟨callee, hs ▸ hast⟩
  have hmoves := moves_restyleReference ht hplain scope reference
  unfold restyleReference at hmoves ⊢
  rw [if_pos hattached] at hmoves ⊢
  unfold restriction
  cases henclosing : t.enclosing reference .template with
  | none => exact ⟨rfl, .refl ..⟩
  | some template =>
    rw [henclosing] at hmoves
    dsimp only at hmoves ⊢
    rw [Option.bind_some]
    by_cases hpermits : permits scope template t = true
    · rw [if_pos ((permits_iff ..).mp hpermits)]
      rw [if_pos hpermits] at hmoves ⊢
      cases hstatic : t.staticClasses template scope.builder with
      | none => exact ⟨rfl, .refl ..⟩
      | some classes =>
        rw [hstatic] at hmoves
        dsimp only at hmoves ⊢
        have hlt := (ht.linked.form_of_enclosing henclosing).2
        have hwithin : t.Within reference template :=
          (ht.linked.mem_ancestors_iff.mp (List.mem_of_find?_eq_some henclosing)).to_reflTransGen
        obtain ⟨hok, hsupplies, hspan, hparent⟩ := annotateAround_spec ht hlabel reference classes
        have hann := moves_annotateAround (s := s) ht reference classes
        generalize s.annotateAround reference classes t = step at *
        obtain ⟨u, failure⟩ := step
        dsimp only at hok hsupplies hspan hparent hann
        subst hok
        dsimp only at hmoves ⊢
        have hu := hann.sound ht
        have hsize := hann.size_le ht
        obtain ⟨hok', hsupplies', hspan', hparent'⟩ :=
          replaceTemplate_spec hu hs (Nat.lt_of_lt_of_le hlt hsize) classes
        have hreplace := moves_replaceTemplate hu hplain (Nat.lt_of_lt_of_le hlt hsize) classes
        refine ⟨hok', hmoves, hsupplies.trans hsupplies' hu hreplace, fun n hn => ?_,
          fun n hn m hm => ?_⟩
        · rw [hspan' n (Nat.lt_of_lt_of_le hn hsize), hspan n hn]
        · -- Neither the string of an annotation nor the template is on the way up.
          have hnlt : n < t.size :=
            lt_size_of_form (by rcases hn with hn | hn | ⟨hn, -⟩ <;> rw [hn] <;> decide)
          have hmlt := hm.lt_size ht.linked hnlt
          have hstr : t.form m ≠ .str := by
            rcases Relation.ReflTransGen.cases_tail hm with rfl | ⟨c, -, hc⟩
            · rcases hn with hn | hn | ⟨hn, -⟩ <;> rw [hn] <;> decide
            · exact ht.linked.form_ne_str hc
          have htemplate : m ≠ template :=
            ne_template_of_within ht.linked (hpaired template) hstatic hwithin hform hn hm
          rw [hparent' m (Nat.lt_of_lt_of_le hmlt hsize) htemplate, hparent m hmlt hstr]
    · rw [if_neg fun h => hpermits ((permits_iff ..).mpr h)]
      rw [if_neg hpermits] at hmoves ⊢
      exact ⟨rfl, .refl ..⟩

/-- Several references fail for the reasons that there are before the first of them is
restyled, and attributes stay attached or detached. -/
theorem restyleReferences_referred (ht : t.Sound) (hpaired : ∀ n, (t.kind n).Paired)
    (hs : s.generate = Generator.runtimeCall callee)
    (hlabel : s.annotator.label ≠ Vocabulary.shorthand) (scope : Scope) {references : List NodeId}
    (hreferences : ∀ r ∈ references, t.isAttached r = true ∧ t.form r = .ident)
    (hnodup : references.Nodup) :
    (s.restyleReferences scope references t).1 =
        references.filterMap (t.restriction scope.allowAnywhere) ∧
      Moves t (s.restyleReferences scope references t).2 ∧
      Supplies t (s.restyleReferences scope references t).2 ∧
      ∀ n, t.form n = .attr → SameWay t (s.restyleReferences scope references t).2 n := by
  induction references generalizing t with
  | nil => exact ⟨rfl, .refl, .of_size_le (Nat.le_refl _), fun _ _ _ _ => rfl⟩
  | cons r rest ih =>
    obtain ⟨hattached, hform⟩ := hreferences r List.mem_cons_self
    obtain ⟨hr, hnodup⟩ := List.nodup_cons.mp hnodup
    obtain ⟨hfailure, hreferred⟩ :=
      restyleReference_referred ht hpaired hs hlabel scope hattached hform
    rw [restyleReferences]
    dsimp only
    rw [hfailure]
    generalize (s.restyleReference scope r t).tree = u at *
    have hmoves := hreferred.moves
    have hwaiting : ∀ x ∈ rest, t.form x = .ident ∧ SameWay t u x := fun x hx => by
      have hx' := (hreferences x (List.mem_cons_of_mem _ hx)).2
      exact ⟨hx', hreferred.way x (Or.inr (Or.inr ⟨hx', fun e => hr (e ▸ hx)⟩))⟩
    have hready : ∀ x ∈ rest, u.isAttached x = true ∧ u.form x = .ident := fun x hx => by
      obtain ⟨hx', hsame⟩ := hwaiting x hx
      have hlt : x < t.size := lt_size_of_form (by rw [hx']; decide)
      rw [hsame.isAttached_eq ht hmoves, hmoves.form_eq ht hlt]
      exact hreferences x (List.mem_cons_of_mem _ hx)
    obtain ⟨hfailures, hmoves', hsupplies, hway⟩ :=
      ih (hmoves.sound ht) (hreferred.supplies.paired ht hmoves hpaired) hready hnodup
    refine ⟨?_, hmoves.trans hmoves', hreferred.supplies.trans hsupplies (hmoves.sound ht) hmoves',
      fun n hn => ?_⟩
    · have hrest : rest.filterMap (u.restriction scope.allowAnywhere) =
          rest.filterMap (t.restriction scope.allowAnywhere) :=
        List.filterMap_congr fun x hx =>
          (hwaiting x hx).2.restriction_eq ht hmoves hreferred.span _
      rw [hfailures, List.filterMap_cons, hrest]
      cases t.restriction scope.allowAnywhere r <;> rfl
    · have hlt : n < t.size := lt_size_of_form (by rw [hn]; decide)
      exact (hreferred.way n (Or.inl hn)).trans (hway n ((hmoves.form_eq ht hlt).trans hn))

end Stylist

namespace Tree

variable {t : Tree} {n : NodeId}

/-- Taking out an import leaves everything else where it is. -/
theorem stripImport_spec (ht : t.Sound) (found : StyleImport) :
    Supplies t (t.stripImport found) ∧
      ∀ n < t.size, t.form n ≠ .importing → SameWay t (t.stripImport found) n := by
  have hsame : Supplies t t ∧ ∀ n < t.size, t.form n ≠ .importing → SameWay t t n :=
    ⟨.of_size_le (Nat.le_refl _), fun _ _ _ _ _ => rfl⟩
  -- The statement has nothing below it, so it is on no way up.
  have hoff {decl : ImportDecl} (hkind : t.kind found.node = .importing decl) {n m : NodeId}
      (hn : t.form n ≠ .importing) (hm : t.Within n m) : m ≠ found.node := by
    rintro rfl
    obtain rfl := hm.eq_of_leaf ht.linked (by rw [children, hkind]; rfl)
    exact hn (congrArg Kind.form hkind)
  rcases t.stripImport_cases found with hkept | ⟨decl, hkind, hnew | hgone⟩
  · rw [hkept]
    exact hsame
  · rw [hnew]
    have hform : t.form found.node = .importing := congrArg Kind.form hkind
    have hadds : Adds t (t.alloc (.importing (decl.without found.name)) none).2 t.size :=
      .leaf t rfl
    have hu := hadds.moves.sound ht
    have hlinks (n : NodeId) (hn : n < t.size) :=
      hu.linked.links_replaceAt found.node hadds.lt_size hadds.dirty (Nat.ne_of_lt hn)
    have hlt : found.node < t.size := lt_size_of_form (by rw [hform]; decide)
    refine ⟨(Supplies.alloc t (by simp [Kind.form]) (by simp)).trans
      (.of_size_le (Nat.le_of_eq (hlinks _ hlt).1)) hu (moves_replaceImport ht hform _),
      fun n hn hother m hm => ?_⟩
    have hmlt := hm.lt_size ht.linked hn
    exact ((hlinks m hmlt).2.2 (hoff hkind hother hm)).trans (hadds.parent_eq hmlt)
  · rw [hgone]
    cases hp : t.parent found.node with
    | none =>
      rw [remove, hp]
      exact hsame
    | some above =>
      have hedit := editAt_remove ht.linked hp
      refine ⟨.of_size_le (Nat.le_of_eq hedit.size), fun n _ hother m hm => ?_⟩
      rw [hedit.parent, if_neg (hoff hkind hother hm)]

/-- The failures of a run, in order: `t₀` is the module as it was read and `restyled` what became
of it when the attributes were restyled. -/
def faults (settings : Settings) (t₀ restyled : Tree) : List StyleError :=
  t₀.allAttributes.filterMap t₀.shorthandFault ++
    match t₀.styleImport? settings.options.importSources with
    | none => []
    | some found => (restyled.referencesTo found.name).filterMap
        (restyled.restriction settings.options.allowStyleProp)

/-- The account of a run that answered `out` for the module `source`: `t₀` is the module as it was
read, `restyled` what became of it when the attributes were restyled, and `final` what it was at
the end. -/
structure Account (settings : Settings) (source : Text) (t₀ restyled final : Tree)
    (out : Output) : Prop where
  /-- An attribute is attached when its turn comes, and its failure could be told beforehand. -/
  turn : ∀ done attr todo, t₀.allAttributes = done ++ attr :: todo → ∃ now,
    done.foldlM (Draft.restyleAttribute true settings.stylist) { tree := t₀ } = .ok now ∧
      now.tree.isAttached attr = true ∧
      (settings.stylist.restyleAttribute attr now.tree).failure = t₀.shorthandFault attr
  /-- A shorthand attribute fails for one of two reasons. -/
  fault : ∀ attr e, t₀.shorthandFault attr = some e →
    e.fault = .invalidShorthand ∨ e.fault = .emptyStyle
  /-- The shorthand attributes that are left are those that failed. -/
  left : ∀ n, n ∈ final.descendants root ∧ final.attributeName n = some Vocabulary.shorthand ↔
    n ∈ t₀.descendants root ∧ (t₀.shorthandFault n).isSome
  /-- What is answered is the final module in print. -/
  printed : out.printed = final.print
  /-- Every failure is reported, with the position in the source where it is and its message. -/
  diagnostics : out.diagnostics =
    (faults settings t₀ restyled).map fun e => ⟨e.position source, e.message⟩
  /-- A shorthand attribute was seen if one was read. -/
  shorthand : out.seen.shorthand = true ↔
    ∃ n ∈ t₀.descendants root, t₀.attributeName n = some Vocabulary.shorthand
  /-- A style attribute was seen if one was read: those that the run adds do not count. -/
  style : out.seen.style = true ↔
    ∃ n ∈ t₀.descendants root, t₀.attributeName n = some Vocabulary.style

/-- Whatever has been found below the root is attached, but the root itself. -/
theorem Linked.mem_descendants_root (ht : t.Linked) :
    n ∈ t.descendants root ↔ t.isAttached n = true ∧ n ≠ root := by
  rw [ht.isAttached_iff_mem_descendants]
  constructor
  · intro h
    refine ⟨Or.inr h, ?_⟩
    rintro rfl
    exact ht.not_below_self _ (ht.mem_descendants_iff.mp h)
  · rintro ⟨h, hne⟩
    exact h.resolve_left hne

/-- Only shorthand attributes fail, for one of two reasons. -/
theorem shorthandFault_eq_some {attr : NodeId} {e : StyleError}
    (h : t.shorthandFault attr = some e) : t.attributeName attr = some Vocabulary.shorthand ∧
      (e.fault = .invalidShorthand ∨ e.fault = .emptyStyle) := by
  unfold shorthandFault at h
  split at h
  case isTrue hname =>
    refine ⟨hname, ?_⟩
    cases hclasses : t.shorthandClasses attr with
    | error e' =>
      rw [hclasses] at h
      obtain rfl := Option.some.inj h
      obtain ⟨n, rfl⟩ := exists_of_shorthandClasses_eq_error hclasses
      exact Or.inl rfl
    | ok classes =>
      rw [hclasses] at h
      obtain ⟨style, -, rfl⟩ := Option.map_eq_some_iff.mp h
      exact Or.inr rfl
  case isFalse => exact absurd h (by simp)

/-- Some attribute has a name if some node below the root has it. -/
theorem any_allAttributes (t : Tree) (name : Text) :
    (t.allAttributes.any fun n => t.attributeName n == some name) = true ↔
      ∃ n ∈ t.descendants root, t.attributeName n = some name := by
  simp only [List.any_eq_true, allAttributes, List.mem_filter, beq_iff_eq]
  constructor
  · rintro ⟨n, ⟨hmem, -⟩, hname⟩
    exact ⟨n, hmem, hname⟩
  · rintro ⟨n, hmem, hname⟩
    obtain ⟨value, hkind⟩ := attributeName_eq_some hname
    exact ⟨n, ⟨hmem, decide_eq_true (congrArg Kind.form hkind)⟩, hname⟩

/-- The account is drawn up when the attributes are done and nothing else happens to them. -/
theorem Tallied.account {settings : Settings} {t₀ : Tree} {d₁ d : Draft} (source : Text)
    (ht₀ : t₀.Sound)
    (hlabel : settings.debug.label ≠ Vocabulary.shorthand)
    (h : Tallied t₀ t₀.allAttributes d₁) (hmoves : Moves d₁.tree d.tree)
    (hsupplies : Supplies d₁.tree d.tree)
    (hway : ∀ n, d₁.tree.form n = .attr → SameWay d₁.tree d.tree n) (hseen : d.seen = d₁.seen)
    (hfailures : d.failures = d₁.failures ++
      match t₀.styleImport? settings.options.importSources with
      | none => []
      | some found => (d₁.tree.referencesTo found.name).filterMap
          (d₁.tree.restriction settings.options.allowStyleProp)) :
    Account settings source t₀ d₁.tree d.tree (d.output source) := by
  have ht := h.moves.sound ht₀
  have hall : Moves t₀ d.tree := h.moves.trans hmoves
  have hfaults : d.failures = faults settings t₀ d₁.tree := by rw [hfailures, h.failures, faults]
  refine ⟨fun done attr todo hsplit => ?_, fun attr e he => (shorthandFault_eq_some he).2,
    fun n => ?_, rfl, by rw [Draft.output, hfaults], ?_, ?_⟩
  · have hdone := tallied_of_split (s := settings.stylist) ht₀ rfl hlabel hsplit
    have hmem : attr ∈ t₀.allAttributes := hsplit ▸ by simp
    have hnodup : (done ++ attr :: todo).Nodup :=
      hsplit ▸ (ht₀.linked.nodup_descendants root).filter _
    have hnew : attr ∉ done := fun hin =>
      (List.nodup_append.mp hnodup).2.2 attr hin attr List.mem_cons_self rfl
    obtain ⟨hattached, hfailure, -⟩ :=
      hdone.visit (s := settings.stylist) ht₀ rfl hlabel hmem hnew
    exact ⟨_, Draft.foldlM_eq_visits .., hattached, hfailure⟩
  · by_cases hn : n < t₀.size
    · rw [(hmoves.sound ht).linked.mem_descendants_root, ht₀.linked.mem_descendants_root,
        hall.attributeName_eq ht₀ hn]
      by_cases hname : t₀.attributeName n = some Vocabulary.shorthand
      · obtain ⟨value, hkind⟩ := attributeName_eq_some hname
        have hform : t₀.form n = .attr := congrArg Kind.form hkind
        have hway := hway n ((h.moves.form_eq ht₀ hn).trans hform)
        have hfault : (t₀.shorthandFault n).isSome ↔ ¬ t₀.IsRestylable n := by
          rw [IsRestylable, Option.isSome_iff_ne_none]
          simp [hname]
        rw [hway.isAttached_eq ht hmoves, h.attached n hform, hfault]
        have hlisted : t₀.isAttached n = true → n ≠ root → n ∈ t₀.allAttributes := fun hatt hne =>
          List.mem_filter.mpr
            ⟨ht₀.linked.mem_descendants_root.mpr ⟨hatt, hne⟩, decide_eq_true hform⟩
        grind
      · have hfault : (t₀.shorthandFault n).isSome = false := by
          rw [shorthandFault, if_neg hname]
          rfl
        simp [hname, hfault]
    · have hge := Nat.le_of_not_lt hn
      have hsupplied := (h.supplies.trans hsupplies ht hmoves n hge).2
      have hout : t₀.shorthandFault n = none := by
        rw [shorthandFault, attributeName, kind_of_size_le hge]
        rfl
      simp [hsupplied, hout]
  · rw [Draft.output, hseen, h.seen, ← any_allAttributes]
  · rw [Draft.output, hseen, h.seen, ← any_allAttributes]

end Tree

/-- Failures are noted one after the other. -/
theorem Draft.foldlM_report (failures : List StyleError) (d : Draft) :
    failures.foldlM (report true) d = .ok { d with failures := d.failures ++ failures } := by
  induction failures generalizing d with
  | nil => simp only [List.foldlM_nil, List.append_nil]; rfl
  | cons e rest ih =>
    rw [List.foldlM_cons]
    exact (ih _).trans (by simp)

/-- Going on after failures, the references change the tree and add their failures. -/
theorem Draft.restyleReferences_eq (s : Stylist) (scope : Scope) (name : Text) (d : Draft) :
    d.restyleReferences true s scope name =
      .ok { d with
        tree := (s.restyleReferences scope (d.tree.referencesTo name) d.tree).2
        failures := d.failures ++
          (s.restyleReferences scope (d.tree.referencesTo name) d.tree).1 } :=
  foldlM_report ..

/-- What is done once the attributes of a module are restyled. -/
theorem Settings.restyle_of_attributes {settings : Settings} {stylist : Stylist} {t : Tree}
    {d : Draft}
    (hrun : Draft.restyleAttributes settings.options.continueOnError stylist { tree := t } = .ok d)
    (himport : settings.options.requireImport = false ∨
      (t.styleImport? settings.options.importSources).isSome) :
    settings.restyle stylist t =
      match t.styleImport? settings.options.importSources with
      | none => .ok d
      | some found =>
        (d.restyleReferences settings.options.continueOnError stylist
          ⟨settings.options.allowStyleProp, some found.name⟩ found.name).map fun d =>
            if settings.options.stripImport then { d with tree := d.tree.stripImport found }
            else d := by
  have hwanted : (settings.options.requireImport &&
      (t.styleImport? settings.options.importSources).isNone) = false := by
    rcases himport with h | h <;> simp [h]
  unfold restyle
  dsimp only
  rw [hwanted, hrun]
  cases t.styleImport? settings.options.importSources <;> rfl

namespace Tree

/-- **The account of a whole run.**  When failures do not end the compilation and annotations
are no shorthand attributes, a module with the import that may be required is compiled.  The
shorthand attributes that are left in the final module are those that failed.  The answer is
that module in print, the diagnostics of their faults and then of the restricted references, and
for either kind of attribute whether one was read. -/
theorem run_accounted {settings : Settings} {source : Text} {t₀ : Tree}
    (hgoOn : settings.options.continueOnError = true)
    (hlabel : settings.debug.label ≠ Vocabulary.shorthand) (hread : ofSource source = .ok t₀)
    (himport : settings.options.requireImport = false ∨
      (t₀.styleImport? settings.options.importSources).isSome) :
    ∃ d₁ d out, Draft.restyleAttributes true settings.stylist { tree := t₀ } = .ok d₁ ∧
      settings.restyle settings.stylist t₀ = .ok d ∧ compile settings source = .ok out ∧
      Account settings source t₀ d₁.tree d.tree out := by
  have ht₀ := sound_ofSource hread
  have hpaired := paired_ofSource hread
  have h := tallied_of_split (s := settings.stylist) ht₀ rfl hlabel (List.append_nil _).symm
  have hrun : Draft.restyleAttributes true settings.stylist { tree := t₀ } =
      .ok (t₀.allAttributes.foldl (Draft.visit settings.stylist) { tree := t₀ }) :=
    Draft.foldlM_eq_visits ..
  generalize t₀.allAttributes.foldl (Draft.visit settings.stylist) { tree := t₀ } = d₁ at *
  have ht := h.moves.sound ht₀
  refine ⟨d₁, ?_⟩
  suffices hdone : ∃ d, settings.restyle settings.stylist t₀ = .ok d ∧
      Account settings source t₀ d₁.tree d.tree (d.output source) by
    obtain ⟨d, hrestyle, haccount⟩ := hdone
    exact ⟨d, d.output source, hrun, hrestyle, compile_eq_ok.mpr ⟨t₀, d, hread, hrestyle, rfl⟩,
      haccount⟩
  have hrest := Settings.restyle_of_attributes (by rwa [hgoOn]) himport
  cases hfound : t₀.styleImport? settings.options.importSources with
  | none =>
    rw [hfound] at hrest
    exact ⟨d₁, hrest, h.account source ht₀ hlabel .refl (.of_size_le (Nat.le_refl _))
      (fun _ _ _ _ => rfl) rfl (by simp [hfound])⟩
  | some found =>
    have hreferences : ∀ r ∈ d₁.tree.referencesTo found.name,
        d₁.tree.isAttached r = true ∧ d₁.tree.form r = .ident := by
      intro r hr
      obtain ⟨hmem, hkind⟩ := List.mem_filter.mp hr
      exact ⟨ht.linked.isAttached_iff_mem_descendants.mpr (Or.inr hmem),
        congrArg Kind.form (of_decide_eq_true hkind)⟩
    obtain ⟨hfailures, hmoves, hsupplies, hway⟩ := Stylist.restyleReferences_referred ht
      (h.supplies.paired ht₀ h.moves hpaired) (s := settings.stylist) rfl hlabel
      ⟨settings.options.allowStyleProp, some found.name⟩ hreferences
      ((ht.linked.nodup_descendants root).filter _)
    rw [hfound, hgoOn] at hrest
    dsimp only at hrest
    rw [Draft.restyleReferences_eq, hfailures, Except.map] at hrest
    generalize (settings.stylist.restyleReferences _ _ d₁.tree).2 = u at *
    refine ⟨_, hrest, ?_⟩
    have hu := hmoves.sound ht
    split
    · obtain ⟨hsupplies', hway'⟩ := stripImport_spec hu found
      have hstrip := moves_stripImport hu found
      refine h.account source ht₀ hlabel (hmoves.trans hstrip)
        (hsupplies.trans hsupplies' hu hstrip)
        (fun n hn => ?_) rfl (by rw [hfound])
      have hlt : n < d₁.tree.size := lt_size_of_form (by rw [hn]; decide)
      refine (hway n hn).trans (hway' n (Nat.lt_of_lt_of_le hlt (hmoves.size_le ht)) ?_)
      rw [hmoves.form_eq ht hlt, hn]
      decide
    · exact h.account source ht₀ hlabel hmoves hsupplies hway rfl (by rw [hfound])

/-- Of three shorthand attributes, one is no string and one stands beside an empty style
attribute; of two templates, one stands where it may not. -/
theorem three_tags_accounted :
    ∃ (settings : Settings) (source : Text) (t₀ : Tree) (d₁ d : Draft) (out : Output),
      settings = { options := { continueOnError := true, requireImport := true } } ∧
      source = Text.ofString ("import tw from 'twin.macro';\n<a tw={y} tw='p' /><b css tw='m' />" ++
        "<i css=\x7btw\x60w\x60\x7d tw='q' id=\x7btw\x60v\x60\x7d />") ∧
      ofSource source = .ok t₀ ∧ (t₀.styleImport? settings.options.importSources).isSome ∧
      Draft.restyleAttributes true settings.stylist { tree := t₀ } = .ok d₁ ∧
      settings.restyle settings.stylist t₀ = .ok d ∧ compile settings source = .ok out ∧
      Account settings source t₀ d₁.tree d.tree out ∧
      out.diagnostics = [⟨⟨2, 8⟩, StyleFault.invalidShorthand.message⟩,
        ⟨⟨2, 23⟩, StyleFault.emptyStyle.message⟩, ⟨⟨2, 62⟩, StyleFault.styleRestricted.message⟩] ∧
      out.seen = { shorthand := true, style := true } ∧
      ((d.tree.descendants root).filter fun n =>
        d.tree.attributeName n = some Vocabulary.shorthand).length = 2 := by
  obtain ⟨settings, hsettings⟩ : ∃ settings : Settings,
      settings = { options := { continueOnError := true, requireImport := true } } := ⟨_, rfl⟩
  obtain ⟨source, hsource⟩ : ∃ source : Text, source =
      Text.ofString ("import tw from 'twin.macro';\n<a tw={y} tw='p' /><b css tw='m' />" ++
        "<i css=\x7btw\x60w\x60\x7d tw='q' id=\x7btw\x60v\x60\x7d />") := ⟨_, rfl⟩
  have hrun : ((ofSource source).toOption.any fun t₀ =>
      (t₀.styleImport? settings.options.importSources).isSome ∧
        (settings.restyle settings.stylist t₀).toOption.any fun d =>
          ((d.tree.descendants root).filter fun n =>
            d.tree.attributeName n = some Vocabulary.shorthand).length = 2) = true := by
    subst hsettings hsource
    decide +kernel
  have hanswer : ((compile settings source).toOption.any fun out =>
      out.diagnostics = [⟨⟨2, 8⟩, StyleFault.invalidShorthand.message⟩,
        ⟨⟨2, 23⟩, StyleFault.emptyStyle.message⟩, ⟨⟨2, 62⟩, StyleFault.styleRestricted.message⟩] ∧
      out.seen = { shorthand := true, style := true }) = true := by
    subst hsettings hsource
    decide +kernel
  obtain ⟨t₀, hread, hfacts⟩ := exists_of_any hrun
  obtain ⟨himport, hfacts⟩ := of_decide_eq_true hfacts
  obtain ⟨d', hd', hfacts⟩ := exists_of_any hfacts
  have hleft := of_decide_eq_true hfacts
  obtain ⟨out', hout', hfacts⟩ := exists_of_any hanswer
  obtain ⟨hdiagnostics, hseen⟩ := of_decide_eq_true hfacts
  obtain ⟨d₁, d, out, hpass, hrestyle, hcompile, haccount⟩ := @run_accounted settings source t₀
    (by rw [hsettings]) (by rw [hsettings]; decide) hread (Or.inr himport)
  obtain rfl := Except.ok.inj (hrestyle.symm.trans hd')
  obtain rfl := Except.ok.inj (hcompile.symm.trans hout')
  exact ⟨settings, source, t₀, d₁, d, out, hsettings, hsource, hread, himport, hpass, hrestyle,
    hcompile, haccount, hdiagnostics, hseen, hleft⟩

end Tree

end JsxStyle
