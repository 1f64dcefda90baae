import JsxStyle.Proofs.Bystanders

/-!
# What the annotation of a tag lists

With annotations turned on, a tag ends with the classes of everything that was restyled in
it: its shorthand attributes, in the order of the tag, and behind them the templates that it is
the nearest tag around, in the order of the source.

The attributes come one after the other, and only those of the tag itself add to its
annotation.  After them every reference to the style builder finds what it would have found
in the module as it was read.  A reference adds the classes of its template if the template makes
way.  That is no concern of the references that wait, for in a template that
is known in advance there is no other reference, so each adds what it would have added at
the start.  What has been restyled can be told at the end: those attributes and templates
are gone from the module.

* `Tree.due`: what a reference adds to the annotation of a tag;
* `restyleReference_passed`, `bears_restyleReference`: what one reference does to those that
  wait, and to the annotations;
* `Concluded.cons`, `restyleReferences_concluded`: what all of them do;
* `Enlisting.run`: what the attributes add, and that the references wait as before.
-/

namespace JsxStyle

namespace Tree

/-- The classes that a reference adds to the annotation of the tag `o`: those of its template, if
that makes way and `o` is the nearest tag around. -/
def due (t : Tree) (scope : Scope) (o reference : NodeId) : Option Text :=
  if t.isAttached reference ∧ t.enclosing reference .opening = some o then
    (t.enclosing reference .template).bind fun template =>
      if Stylist.permits scope template t then t.staticClasses template scope.builder else none
  else none

section Due

variable {t t' : Tree} {scope : Scope} {o reference template : NodeId} {classes : Text}

theorem due_eq_some : t.due scope o reference = some classes ↔
    t.enclosing reference .opening = some o ∧ ∃ template, t.MakesWay scope reference template ∧
      t.staticClasses template scope.builder = some classes := by
  unfold due MakesWay
  by_cases hattached : t.isAttached reference = true
  · by_cases hopening : t.enclosing reference .opening = some o
    · rw [if_pos ⟨hattached, hopening⟩, Option.bind_eq_some_iff]
      refine ⟨fun ⟨template, henclosing, h⟩ => ?_,
        fun ⟨_, template, ⟨_, henclosing, hpermits, _⟩, h⟩ =>
        ⟨template, henclosing, by rwa [if_pos hpermits]⟩⟩
      split at h
      case isTrue hpermits =>
        exact ⟨hopening, template, ⟨hattached, henclosing, hpermits, by rw [h]; rfl⟩, h⟩
      case isFalse => exact absurd h (by simp)
    · rw [if_neg fun h => hopening h.2]
      simp [hopening]
  · rw [if_neg fun h => hattached h.1]
    simp [hattached]

theorem due_eq_none (h : ∀ template, ¬ t.MakesWay scope reference template) :
    t.due scope o reference = none := by
  refine Option.eq_none_iff_forall_not_mem.mpr fun classes hclasses => ?_
  obtain ⟨-, template, hway, -⟩ := due_eq_some.mp hclasses
  exact h template hway

/-- The reference of a template that makes way adds the classes of the template to the tag around
it. -/
theorem MakesWay.due_eq (hway : t.MakesWay scope reference template)
    (hclasses : t.staticClasses template scope.builder = some classes) :
    t.due scope o reference =
      if t.enclosing reference .opening = some o then some classes else none := by
  refine Option.ext fun more => ?_
  rw [due_eq_some]
  split
  case isTrue hopening =>
    refine ⟨fun ⟨_, other, hother, hmore⟩ => ?_,
      fun h => ⟨hopening, template, hway, by rw [hclasses, h]⟩⟩
    rw [← Option.some.inj (hway.2.1.symm.trans hother.2.1), hclasses] at hmore
    exact hmore
  case isFalse hopening => simp [hopening]

theorem SameWay.due_eq (h : SameWay t t' reference) (ht : t.Sound) (hmoves : Moves t t')
    (hknown : ∀ n < t.size, t'.staticClasses n scope.builder = t.staticClasses n scope.builder)
    (o : NodeId) : t'.due scope o reference = t.due scope o reference := by
  have hsame (template : NodeId) (henclosing : t.enclosing reference .template = some template) :=
    hknown template (ht.linked.form_of_enclosing henclosing).2
  refine Option.ext fun classes => ?_
  rw [due_eq_some, due_eq_some, h.enclosing_eq ht hmoves]
  refine and_congr_right fun _ => exists_congr fun template => ?_
  rw [h.makesWay_iff ht hmoves scope (hsame template)]
  exact and_congr_right fun hway => by rw [hsame template hway.2.1]

end Due

/-- An annotation changes nothing about what templates stand for. -/
theorem Inscribed.known {label : Text} {t t' : Tree} (h : Inscribed label t t') (ht : t.Linked)
    {n : NodeId}
    (hn : n < t.size) (builder : Option Text) :
    t'.staticClasses n builder = t.staticClasses n builder := by
  refine staticClasses_eq_of_kept ht (fun m hm => (h.old m hm).form_eq) (fun m hm => ?_) hn builder
  cases h.old m hm with
  | same hkind => exact .inl hkind
  | longer hkind =>
    refine .inr ?_
    rw [form, hkind]
    simp [Kind.form, Form.Telling]
  | extended hkind =>
    refine .inr ?_
    rw [form, hkind]
    simp [Kind.form, Form.Telling]

/-- What is known after a reference had its turn. -/
structure Passed (scope : Scope) (t t' : Tree) (reference : NodeId) : Prop where
  ready : t'.Ready
  referred : Referred t t' reference
  known : ∀ n < t.size, ∀ builder, t'.staticClasses n builder = t.staticClasses n builder
  cut : ∀ n, t.MakesWay scope reference n →
    t'.parent n = none ∧ t'.parent reference = t.parent reference
  kept : (∀ n, ¬ t.MakesWay scope reference n) → t' = t

end Tree

namespace Stylist

open JsxStyle.Tree

variable {t : Tree} {s : Stylist} {callee : Text} {scope : Scope} {reference template o : NodeId}
  {classes : Text} {note : Option Note}

/-- The two steps in which a template makes way. -/
theorem restyleReference_steps (ht : t.Ready) (hs : s.generate = Generator.runtimeCall callee)
    (hlabel : s.annotator.label ≠ Vocabulary.shorthand) (hway : t.MakesWay scope reference template)
    (hclasses : t.staticClasses template scope.builder = some classes) :
    ∃ u above call, (s.annotateAround reference classes t).tree = u ∧ u.Ready ∧ Moves t u ∧
      Inscribed s.annotator.label t u ∧ (∀ n < t.size, t.form n ≠ .str → u.parent n = t.parent n) ∧
      u.form template = .template ∧
      Recalled callee classes u (s.restyleReference scope reference t).tree template above call ∧
      ∃ f, Refilled callee scope (fun n => False ∨ n = template) u
        (s.restyleReference scope reference t).tree f := by
  have hattached := hway.1
  have henclosing := hway.2.1
  have hpermits := hway.2.2.1
  rcases s.restyleReference_cases scope reference t with
      ⟨hnone, -⟩ | ⟨other, more, hother, hmore, -, hrun⟩
  · exact absurd hway (hnone template)
  obtain rfl := Option.some.inj (henclosing.symm.trans hother.2.1)
  obtain rfl := Option.some.inj (hclasses.symm.trans hmore)
  have hsound := ht.sound
  obtain ⟨hform, hlt⟩ := hsound.linked.form_of_enclosing henclosing
  have hwithin : t.Within reference template :=
    (hsound.linked.mem_ancestors_iff.mp (List.mem_of_find?_eq_some henclosing)).to_reflTransGen
  obtain ⟨-, above, hparent⟩ := exists_above hsound.linked hattached hwithin (by
    rintro rfl
    exact absurd (ht.root.symm.trans hform) (by decide))
  obtain ⟨hok, hinscribed⟩ := inscribed_annotateAround (s := s) hsound reference classes
  obtain ⟨-, -, -, hparents⟩ := annotateAround_spec hsound hlabel reference classes
  have hmoves := moves_annotateAround (s := s) hsound reference classes
  generalize s.annotateAround reference classes t = step at *
  obtain ⟨u, failure⟩ := step
  dsimp only at hok hinscribed hparents hmoves
  subst hok
  dsimp only at hrun
  rw [hrun]
  have hu := (hinscribed.settled hsound hmoves).kept.ready ht
  have hformu : u.form template = .template := (hmoves.form_eq hsound hlt).trans hform
  have hparentu : u.parent template = some above :=
    (hparents template hlt (by rw [hform]; decide)).trans hparent
  have hstatic := (hinscribed.known hsound.linked hlt scope.builder).trans hclasses
  have hsame : SameWay t u template := by
    intro m hm
    refine hparents m (hm.lt_size hsound.linked hlt) ?_
    rcases Relation.ReflTransGen.cases_tail hm with rfl | ⟨c, -, hc⟩
    · rw [hform]
      decide
    · exact hsound.linked.form_ne_str hc
  obtain ⟨call, hrecalled⟩ :=
    recalled_replaceTemplate hu.sound hs (hu.paired template) hstatic hparentu
  exact ⟨u, above, call, rfl, hu, hmoves, hinscribed, hparents, hformu, hrecalled,
    (Refilled.refl callee scope u).replaceTemplate hu hs not_false
      ((hsame.permits_eq hsound hmoves scope).trans hpermits) hstatic hparentu⟩

/-- A reference has had its turn. -/
theorem restyleReference_passed (ht : t.Ready) (hs : s.generate = Generator.runtimeCall callee)
    (hlabel : s.annotator.label ≠ Vocabulary.shorthand) (scope : Scope)
    (hattached : t.isAttached reference = true) (hform : t.form reference = .ident) :
    Passed scope t (s.restyleReference scope reference t).tree reference := by
  have hreferred := (restyleReference_referred ht.sound ht.paired hs hlabel scope hattached hform).2
  have hready := (settled_restyleReference ht hs scope reference).kept.ready ht
  rcases s.restyleReference_cases scope reference t with
      ⟨hnone, hrun⟩ | ⟨template, classes, hway, hclasses, -⟩
  · rw [hrun] at hreferred hready ⊢
    exact ⟨hready, hreferred, fun _ _ _ => rfl, fun n hn => absurd hn (hnone n), fun _ => rfl⟩
  · obtain ⟨u, above, call, -, hu, hmoves, hinscribed, hparents, hformu, hrecalled, f, hrefilled⟩ :=
      restyleReference_steps ht hs hlabel hway hclasses
    have hsize := hmoves.size_le ht.sound
    have hlt : reference < t.size := lt_size_of_form (by rw [hform]; decide)
    have hne : reference ≠ template := by
      rintro rfl
      rw [hmoves.form_eq ht.sound hlt, hform] at hformu
      exact absurd hformu (by decide)
    refine ⟨hready, hreferred, fun n hn builder => ?_, fun n hn => ⟨?_, ?_⟩, fun hnone =>
      absurd hway (hnone template)⟩
    · rw [hrefilled.staticClasses_eq hu (Nat.lt_of_lt_of_le hn hsize) builder,
        hinscribed.known ht.sound.linked hn builder]
    · obtain rfl := Option.some.inj (hway.2.1.symm.trans hn.2.1)
      rw [hrecalled.parent template (lt_size_of_form (by rw [hformu]; decide)), if_pos rfl]
    · rw [hrecalled.parent reference (Nat.lt_of_lt_of_le hlt hsize), if_neg hne,
        hparents reference hlt (by rw [hform]; decide)]

/-- A reference adds its classes to the annotation of the nearest tag around it, if its
template makes way. -/
theorem bears_restyleReference (ht : t.Ready) (hs : s.generate = Generator.runtimeCall callee)
    (hlabel : s.annotator.label ≠ Vocabulary.shorthand) (hon : s.annotator.enabled = true)
    (scope : Scope) (reference : NodeId) (ho : t.form o = .opening)
    (hb : t.Bears s.annotator.label o note) :
    ∃ note', (s.restyleReference scope reference t).tree.Bears s.annotator.label o note' ∧
      Lengthened note ((t.due scope o reference).toList.map Text.collapse) note' := by
  rcases s.restyleReference_cases scope reference t with
      ⟨hnone, hrun⟩ | ⟨template, classes, hway, hclasses, -⟩
  · rw [hrun, due_eq_none hnone]
    exact ⟨note, hb, .refl note⟩
  · obtain ⟨u, above, call, hann, hu, hmoves, -, -, hformu, hrecalled, -⟩ :=
      restyleReference_steps ht hs hlabel hway hclasses
    have hlt : o < t.size := lt_size_of_form (by rw [ho]; decide)
    suffices hnote : ∃ note', u.Bears s.annotator.label o note' ∧
        Lengthened note ((t.due scope o reference).toList.map Text.collapse) note' by
      obtain ⟨note', hbu, hlength⟩ := hnote
      exact ⟨note', hrecalled.bears hu.sound ((hmoves.form_eq ht.sound hlt).trans ho) hformu hbu,
        hlength⟩
    rw [hway.due_eq hclasses, ← hann]
    unfold annotateAround
    cases henclosing : t.enclosing reference .opening with
    | none => exact ⟨note, hb, .refl note⟩
    | some p =>
      dsimp only
      have hp := (ht.sound.linked.form_of_enclosing henclosing).1
      by_cases hop : o = p
      · subst hop
        rw [if_pos rfl]
        exact bears_attachTo ht.sound hon ho hb classes
      · rw [if_neg fun h => hop (Option.some.inj h).symm]
        obtain ⟨-, hannotated, -⟩ := annotated_attachTo ht.sound s.annotator hp
          (fun b hb _ => parent_of_mem_attributes ht.sound.linked hb) classes p
        exact ⟨note, hannotated.bears ht.sound hp ho hop hb, .refl note⟩

end Stylist

namespace Tree

/-- What is known after all of `references` had their turn. -/
structure Concluded (scope : Scope) (t t' : Tree) (references : List NodeId) : Prop where
  ready : t'.Ready
  moves : Moves t t'
  way : ∀ n, t.form n = .attr ∨ t.form n = .opening → SameWay t t' n
  stays : ∀ r, t.form r = .ident → (r ∈ references → ∀ n, ¬ t.MakesWay scope r n) → SameWay t t' r
  cut : ∀ r n, r ∈ references → t.MakesWay scope r n → t.parent r = some n → t'.parent n = none

/-- For other references nothing has changed. -/
theorem Passed.other {scope : Scope} {t t' : Tree} {reference x : NodeId}
    (h : Passed scope t t' reference) (ht : t.Ready) (hx : t.form x = .ident)
    (hne : x ≠ reference) :
    SameWay t t' x ∧ (∀ n, t'.MakesWay scope x n ↔ t.MakesWay scope x n) ∧
      ∀ o, t'.due scope o x = t.due scope o x := by
  have hway := h.referred.way x (.inr (.inr ⟨hx, hne⟩))
  have hmoves := h.referred.moves
  refine ⟨hway, fun n => ?_, hway.due_eq ht.sound hmoves fun n hn => h.known n hn scope.builder⟩
  exact hway.makesWay_iff ht.sound hmoves scope fun henclosing =>
    h.known n (ht.sound.linked.form_of_enclosing henclosing).2 scope.builder

/-- One reference has its turn, and then the others. -/
theorem Concluded.cons {scope : Scope} {t t₁ t' : Tree} {r : NodeId} {rest : List NodeId}
    (h : Concluded scope t₁ t' rest) (ht : t.Ready) (hpassed : Passed scope t t₁ r)
    (hform : t.form r = .ident) (hr : r ∉ rest) (hrest : ∀ x ∈ rest, t.form x = .ident) :
    Concluded scope t t' (r :: rest) := by
  have hmoves := hpassed.referred.moves
  refine ⟨h.ready, hmoves.trans h.moves, fun n hn => ?_, fun x hx hnone => ?_,
    fun x n hx hway hparent => ?_⟩
  · exact (hpassed.referred.way n (hn.imp_right .inl)).trans (h.way n
      (hn.imp (hmoves.form_of_form ht.sound · (by decide))
        (hmoves.form_of_form ht.sound · (by decide))))
  · by_cases hxr : x = r
    · subst hxr
      obtain rfl := hpassed.kept (hnone List.mem_cons_self)
      exact h.stays x hx fun hin => absurd hin hr
    · obtain ⟨hway, hmakes, -⟩ := hpassed.other ht hx hxr
      refine hway.trans (h.stays x (hmoves.form_of_form ht.sound hx (by decide)) fun hin n hn => ?_)
      exact hnone (List.mem_cons_of_mem _ hin) n ((hmakes n).mp hn)
  · rcases List.mem_cons.mp hx with rfl | hin
    · -- The reference has left with its template, and nothing happens to it any more.
      obtain ⟨hgone, hkept⟩ := hpassed.cut n hway
      have hstays :=
        h.stays x (hmoves.form_of_form ht.sound hform (by decide)) fun hin => absurd hin hr
      rw [hstays n (.single (hkept.trans hparent)), hgone]
    · obtain ⟨hway', hmakes, -⟩ := hpassed.other ht (hrest x hin) fun heq => hr (heq ▸ hin)
      exact h.cut x n hin ((hmakes n).mpr hway) ((hway' x .refl).trans hparent)

/-- The import statement goes last, which is no concern of tags and what is in them. -/
theorem Concluded.stripImport {scope : Scope} {t u : Tree} {references : List NodeId}
    (h : Concluded scope t u references) (ht : t.Sound) (found : StyleImport) :
    Concluded scope t (u.stripImport found) references := by
  have hu := h.ready.sound
  have hway {n : NodeId} {f : Form} (hn : t.form n = f) (hf : f ≠ .fragment ∧ f ≠ .importing) :
      SameWay u (u.stripImport found) n := by
    have hu' : u.form n = f := h.moves.form_of_form ht hn hf.1
    exact (stripImport_spec hu found).2 n (lt_size_of_form (hu' ▸ hf.1)) (hu' ▸ hf.2)
  refine ⟨(settled_stripImport hu found).kept.ready h.ready,
    h.moves.trans (moves_stripImport hu found), fun n hn => ?_, fun r hr hnone => ?_,
    fun r n hr hmakes hparent => ?_⟩
  · exact (h.way n hn).trans (hn.elim (hway · (by decide)) (hway · (by decide)))
  · exact (h.stays r hr hnone).trans (hway hr (by decide))
  · rw [hway (ht.linked.form_of_enclosing hmakes.2.1).1 (by decide) n .refl]
    exact h.cut r n hr hmakes hparent

end Tree

namespace Stylist

open JsxStyle.Tree

/-- All references have had their turn, and each has added what it would have added before the
first of them. -/
theorem restyleReferences_concluded {t : Tree} {s : Stylist} {callee : Text} {o : NodeId}
    {note : Option Note} (ht : t.Ready) (hs : s.generate = Generator.runtimeCall callee)
    (hlabel : s.annotator.label ≠ Vocabulary.shorthand) (hon : s.annotator.enabled = true)
    (scope : Scope) {references : List NodeId}
    (hreferences : ∀ r ∈ references, t.isAttached r = true ∧ t.form r = .ident)
    (hnodup : references.Nodup) (ho : t.form o = .opening) (hb : t.Bears s.annotator.label o note) :
    Concluded scope t (s.restyleReferences scope references t).2 references ∧
      ∃ note', (s.restyleReferences scope references t).2.Bears s.annotator.label o note' ∧
        Lengthened note ((references.filterMap (t.due scope o)).map Text.collapse) note' := by
  induction references generalizing t note with
  | nil =>
    exact ⟨⟨ht, .refl, fun _ _ _ _ => rfl, fun _ _ _ _ _ => rfl, fun _ _ h => absurd h (by simp)⟩,
      note, hb, .refl note⟩
  | cons r rest ih =>
    obtain ⟨hattached, hform⟩ := hreferences r List.mem_cons_self
    obtain ⟨hr, hnodup⟩ := List.nodup_cons.mp hnodup
    have hpassed := restyleReference_passed ht hs hlabel scope hattached hform
    obtain ⟨note₁, hb₁, hlength₁⟩ := bears_restyleReference ht hs hlabel hon scope r ho hb
    rw [restyleReferences]
    dsimp only
    generalize (s.restyleReference scope r t).tree = t₁ at *
    have hmoves := hpassed.referred.moves
    have hother {x : NodeId} (hx : x ∈ rest) :=
      hpassed.other ht (hreferences x (List.mem_cons_of_mem _ hx)).2 fun heq => hr (heq ▸ hx)
    have hwaiting : ∀ x ∈ rest, t₁.isAttached x = true ∧ t₁.form x = .ident := fun x hx => by
      obtain ⟨hx', hxform⟩ := hreferences x (List.mem_cons_of_mem _ hx)
      exact ⟨((hother hx).1.isAttached_eq ht.sound hmoves).trans hx',
        hmoves.form_of_form ht.sound hxform (by decide)⟩
    obtain ⟨hconcluded, note', hb', hlength⟩ :=
      ih hpassed.ready hwaiting hnodup (hmoves.form_of_form ht.sound ho (by decide)) hb₁
    refine ⟨hconcluded.cons ht hpassed hform hr fun x hx =>
      (hreferences x (List.mem_cons_of_mem _ hx)).2, note', hb', ?_⟩
    have hrest : rest.filterMap (t₁.due scope o) = rest.filterMap (t.due scope o) :=
      List.filterMap_congr fun x hx => (hother hx).2.2 o
    have hsplit : (r :: rest).filterMap (t.due scope o) =
        (t.due scope o r).toList ++ rest.filterMap (t.due scope o) := by
      cases hdue : t.due scope o r <;> simp [hdue]
    rw [hsplit, List.map_append, ← hrest]
    exact hlength₁.trans hlength

end Stylist

namespace Tree

section Attributes

variable {s : Stylist} {callee : Text} {t₀ : Tree} {o : NodeId} {note : Option Note}
  {done : List NodeId} {d : Draft} {x : NodeId}

/-- The classes that an attribute adds to the annotation of the tag `o`, if it is restylable and
stands in that tag. -/
def own (t : Tree) (o attr : NodeId) : Option Text :=
  if t.parent attr = some o ∧ t.IsRestylable attr then t.classes attr else none

/-- The state of affairs for the tag `o` when the attributes `done` are restyled. -/
structure Enlisting (s : Stylist) (t₀ : Tree) (o : NodeId) (note : Option Note) (done : List NodeId)
    (d : Draft) : Prop where
  tallied : Tallied t₀ done d
  underway : Underway t₀ d.tree
  bystanding : Bystanding t₀ done d.tree
  attached : d.tree.isAttached o = true
  bears : ∃ note', d.tree.Bears s.annotator.label o note' ∧
    Lengthened note ((done.filterMap (t₀.own o)).map Text.collapse) note'

theorem Enlisting.start (hattached : t₀.isAttached o = true)
    (hb : t₀.Bears s.annotator.label o note) :
    Enlisting s t₀ o note [] { tree := t₀ } where
  tallied := .start t₀
  underway := .refl t₀
  bystanding := .start t₀
  attached := hattached
  bears := ⟨note, hb, .refl note⟩

variable (hr : Regular s callee t₀) (hon : s.annotator.enabled = true) (ho₀ : t₀.form o = .opening)

include hr hon ho₀

/-- The visit to an attribute adds its classes to the annotation of its tag. -/
theorem Enlisting.visit (h : Enlisting s t₀ o note done d) (hx : x ∈ t₀.allAttributes)
    (hnew : x ∉ done) : Enlisting s t₀ o note (done ++ [x]) (d.visit s x) := by
  have ht := h.tallied.moves.sound hr.sound
  have hform : t₀.form x = .attr := of_decide_eq_true (List.mem_filter.mp hx).2
  have hlt : x < t₀.size := lt_size_of_form (by rw [hform]; decide)
  have ho : d.tree.form o = .opening :=
    h.tallied.moves.form_of_form hr.sound ho₀ (by decide)
  obtain ⟨-, -, htallied⟩ := h.tallied.visit hr.sound hr.generate hr.label.1 hx hnew
  obtain ⟨note₁, hb₁, hlength₁⟩ := h.bears
  have hsplit : ((done ++ [x]).filterMap (t₀.own o)).map Text.collapse =
      (done.filterMap (t₀.own o)).map Text.collapse ++ ((t₀.own o x).toList).map Text.collapse := by
    cases hown : t₀.own o x <;> simp [hown]
  suffices hstep : (d.visit s x).tree.isAttached o = true ∧ ∃ note',
      (d.visit s x).tree.Bears s.annotator.label o note' ∧
        Lengthened note₁ ((t₀.own o x).toList.map Text.collapse) note' by
    obtain ⟨hattached, note', hb', hlength⟩ := hstep
    refine ⟨htallied, h.underway.visit hr hlt,
      h.bystanding.visit hr.sound hr.generate hr.label.1 h.tallied hx hnew, hattached,
      note', hb', ?_⟩
    rw [hsplit]
    exact hlength₁.trans hlength
  rcases h.tallied.dealt hr.sound hr.generate hr.label.1 hx hnew with
    ⟨hnot, hsame⟩ | ⟨hdo, hdo', p, hp, hopening, hvisit, hdealt⟩
  · rw [hsame, own, if_neg fun hown => hnot hown.2]
    exact ⟨h.attached, note₁, hb₁, .refl note₁⟩
  · refine ⟨hdealt.reworked.attached o ho h.attached, ?_⟩
    have hp₀ : t₀.parent x = some p := (h.bystanding.parent x hform hnew).symm.trans hp
    by_cases hop : o = p
    · subst hop
      obtain ⟨classes, hclasses⟩ := hdo.exists_classes
      rw [own, if_pos ⟨hp₀, hdo⟩, hclasses, hvisit]
      exact Stylist.bears_restyleAttribute ht hr.generate hon hr.label hdo' hp
        ((h.underway.classes x hlt).trans hclasses) hb₁
    · rw [own, if_neg fun hown => hop (Option.some.inj (hown.1.symm.trans hp₀))]
      exact ⟨note₁, hdealt.reworked.bears ht hopening ho hop hb₁, .refl note₁⟩

/-- All attributes have been visited, and each has added its classes. -/
theorem Enlisting.run (h : Enlisting s t₀ o note done d) {todo : List NodeId}
    (hmem : ∀ x ∈ todo, x ∈ t₀.allAttributes) (hnodup : (done ++ todo).Nodup) :
    Enlisting s t₀ o note (done ++ todo) (todo.foldl (Draft.visit s) d) :=
  Draft.visits_of_step (fun h hx hnew => h.visit hr hon ho₀ hx hnew) h hmem hnodup

end Attributes

end Tree

end JsxStyle
