import JsxStyle.Proofs.Inscribed

/-!
# Restyling with and without annotations

A silent stylist does what another does, annotations apart.  So each handler is
compared in two steps: the silent one works in step on alike stores, and on one
store the other handler annotates what the silent one has made, or annotates
first and goes on.  Annotating never fails, so the two fail for the same
reasons.

* `restyleAttribute_alike`, `inscribed_restyleAttribute`: the two steps for
  attributes;
* `restyleReference_alike`, `restyleReferences_alike`: references, with
  annotations on one side;
* `Alike.stripImport`: the import.
-/

namespace JsxStyle

namespace Annotator

variable {a : Annotator} {t : Tree}

theorem attachTo_of_off (h : a.enabled = false) (opening : NodeId) (attributes : List NodeId)
    (classes : Text) : a.attachTo opening attributes classes t = ⟨t, none⟩ := by
  rw [attachTo, annotate, h]
  rfl

theorem attachAfter_of_off (h : a.enabled = false) (style : NodeId) (attributes : List NodeId)
    (classes : Text) : a.attachAfter style attributes classes t = ⟨t, none⟩ := by
  rw [attachAfter, annotate, h]
  rfl

end Annotator

namespace Stylist

open JsxStyle.Tree

/-- The same stylist, who annotates nothing. -/
def silent (s : Stylist) : Stylist :=
  { s with annotator := { s.annotator with enabled := false } }

/-- Two steps that fail for the same reason or do not fail, and lead to alike stores. -/
structure StepsAlike (label : Text) (f : NodeId → NodeId) (x y : Step) : Prop where
  failure : x.failure = y.failure
  tree : Alike label f x.tree y.tree

section InStep

variable {label : Text} {f : NodeId → NodeId} {a p : Tree} {s : Stylist}
variable (h : Alike label f a p) (ha : a.Sound) (hp : p.Sound) (hs : s.generate.Plain)
include h ha hp hs

/-- What is generated from classes is added to both stores. -/
theorem generated_alike {classes : Text} {ast : Ast} (hast : s.generate classes = .ok ast) :
    ∃ styles u u', (Tree.graft ast).run p = (styles, u) ∧ (Tree.graft ast).run a = (f styles, u') ∧
      Alike label f u' u ∧ (Adds p u styles ∧ (u.form styles).Loose) ∧
      Adds a u' (f styles) ∧ (u'.form (f styles)).Loose := by
  obtain ⟨hid, hgraft⟩ := h.graft ast
  have hadds := adds_generated hp.linked hs hast
  have hadds' := adds_generated ha.linked hs hast
  rw [hid] at hadds'
  exact ⟨_, _, _, rfl, Prod.ext hid rfl, hgraft, hadds, hadds'⟩

/-- A template is replaced in both stores. -/
theorem replaceTemplate_alike (classes : Text) {template : NodeId}
    (htemplate : p.form template = .template) :
    StepsAlike label f (s.replaceTemplate (f template) classes a)
      (s.replaceTemplate template classes p) := by
  unfold replaceTemplate
  cases hast : s.generate classes with
  | error e => exact ⟨rfl, h⟩
  | ok ast =>
    obtain ⟨styles, u, u', hrun, hrun', hgraft, ⟨hadds, -⟩, hadds', -⟩ :=
      generated_alike h ha hp hs hast
    dsimp only
    rw [hrun, hrun']
    refine ⟨rfl, hgraft.replaceAt (hadds'.moves.sound ha).linked (hadds.moves.sound hp).linked
      template hadds.lt_size ?_⟩
    rw [hadds.form_eq (lt_size_of_form (by rw [htemplate]; decide)), htemplate]
    decide

variable (hoff : s.annotator.enabled = false)
include hoff

/-- A shorthand attribute is converted in both stores. -/
theorem convert_alike (classes : Text) {attr : NodeId} (hattr : p.form attr = .attr)
    (attributes attributes' : List NodeId) :
    StepsAlike label f (s.convert (f attr) attributes' classes a)
      (s.convert attr attributes classes p) := by
  unfold convert
  cases hast : s.generate classes with
  | error e => exact ⟨rfl, h⟩
  | ok ast =>
    obtain ⟨styles, u, u', hrun, hrun', hgraft, ⟨hadds, hloose⟩, hadds', hloose'⟩ :=
      generated_alike h ha hp hs hast
    dsimp only
    rw [hrun, hrun']
    dsimp only
    have hcontainer : Alike label f (alloc (.container (some (f styles))) none u').2
        (alloc (.container (some styles)) none u).2 := hgraft.alloc (.container (some styles)) none
    have hstyle := hcontainer.alloc (.attr Vocabulary.style (some u.size)) none
    rw [Kind.map, Option.map_some, hgraft.size_eq] at hstyle
    have hnew := (hadds.styleAttribute hp.linked hloose).1
    have hnew' := (hadds'.styleAttribute ha.linked hloose').1
    have hlt : attr < p.size := lt_size_of_form (by rw [hattr]; decide)
    have hreplaced := hstyle.replaceAt (hnew'.moves.sound ha).linked
      (hnew.moves.sound hp).linked attr hnew.lt_size (by rw [hnew.form_eq hlt, hattr]; decide)
    rw [hcontainer.size_eq] at hreplaced
    rw [Annotator.attachAfter_of_off hoff, Annotator.attachAfter_of_off hoff]
    exact ⟨rfl, hreplaced⟩

/-- A shorthand attribute is merged in both stores. -/
theorem merge_alike (classes : Text) (hlabel : label ≠ Vocabulary.style)
    {attr style opening : NodeId} (hattr : p.form attr = .attr)
    (hparent : p.parent attr = some opening)
    (hopening : p.form opening = .opening)
    (hstyle : p.attributeName style = some Vocabulary.style) :
    StepsAlike label f (s.merge (f attr) (f style) (f opening) classes a)
      (s.merge attr style opening classes p) := by
  have hexpressions := h.styleExpression_eq hp hlabel hstyle
  unfold merge
  cases hexpression : p.styleExpression style with
  | none =>
    rw [hexpression] at hexpressions
    rw [hexpressions, h.span_eq]
    exact ⟨rfl, h⟩
  | some expression =>
    rw [hexpression] at hexpressions
    rw [hexpressions]
    dsimp only [Option.map_some]
    cases hast : s.generate classes with
    | error e => exact ⟨rfl, h⟩
    | ok ast =>
      obtain ⟨styles, u, u', hrun, hrun', hgraft, ⟨hadds, hloose⟩, hadds', hloose'⟩ :=
        generated_alike h ha hp hs hast
      dsimp only
      rw [hrun, hrun']
      dsimp only
      obtain ⟨-, container, -, hcontkind, hexpparent, hexploose⟩ := hp.style_parts hexpression
      obtain ⟨-, container', -, -, hexpparent', hexploose'⟩ := ha.style_parts hexpressions
      obtain ⟨hremoved, hbelow, -⟩ := moves_remove_mergeStyles hp hattr hparent hopening hexpparent
        hexploose hadds hloose
      obtain ⟨hparent', -⟩ := h.parent_of_child ha.linked hp.linked hparent
        (Or.inl (by simp [hattr]))
      obtain ⟨hremoved', -, -⟩ :=
        moves_remove_mergeStyles ha ((h.form_eq attr).trans hattr) hparent'
        ((h.form_eq opening).trans hopening) hexpparent' hexploose' hadds' hloose'
      have hattrlt : attr < p.size := lt_size_of_parent hparent
      have hrest := hgraft.remove (hadds'.moves.sound ha).linked (hadds.moves.sound hp).linked attr
        (by rw [hadds.form_eq hattrlt, hattr]; decide)
      have hcontainer : (u.remove attr).form container = .container := by
        rw [hremoved.form_eq hp (hp.linked.parent_lt_size hexpparent), form, hcontkind]
        rfl
      have hlt : styles < (u.remove attr).size := by
        rw [(editAt_remove (hadds.moves.sound hp).linked
          ((hadds.parent_eq hattrlt).trans hparent)).size]
        exact hadds.lt_size
      have hmerged :=
        hrest.mergeStyles (hremoved'.sound ha).linked (hremoved.sound hp).linked hbelow
        hcontainer hlt
      rw [Annotator.attachTo_of_off hoff, Annotator.attachTo_of_off hoff]
      exact ⟨rfl, hmerged⟩

/-- An attribute is restyled in both stores. -/
theorem restyleAttribute_alike (hshorthand : label ≠ Vocabulary.shorthand)
    (hstyle : label ≠ Vocabulary.style) (attr : NodeId) :
    StepsAlike label f (s.restyleAttribute (f attr) a) (s.restyleAttribute attr p) := by
  unfold restyleAttribute
  rw [h.attributeName_eq]
  split
  case isTrue hname =>
    obtain ⟨value, hkind⟩ := attributeName_eq_some hname
    have hattr : p.form attr = .attr := congrArg Kind.form hkind
    rw [h.shorthandClasses_eq hp hshorthand hname]
    cases p.shorthandClasses attr with
    | error e => exact ⟨rfl, h⟩
    | ok classes =>
      dsimp only
      rw [h.enclosing_eq ha.linked hp.linked (by simp [hattr])]
      cases henclosing : p.enclosing attr .opening with
      | none =>
        dsimp only [Option.map_none]
        rw [h.span_eq]
        exact ⟨rfl, h⟩
      | some opening =>
        obtain ⟨hparent, hopening⟩ := hp.parent_of_enclosing hattr henclosing
        dsimp only [Option.map_some]
        rw [h.attributeNamed_eq hstyle]
        cases hnamed : p.attributeNamed (p.attributes opening) Vocabulary.style with
        | none => exact convert_alike h ha hp hs hoff classes hattr ..
        | some style =>
          have hname : p.attributeName style = some Vocabulary.style := by
            simpa using List.find?_some hnamed
          exact merge_alike h ha hp hs hoff classes hstyle hattr hparent hopening hname
  case isFalse => exact ⟨rfl, h⟩

end InStep

section Annotating

variable {t : Tree} {s : Stylist} {callee : Text}

/-- Converting with annotations is converting without and annotating then. -/
theorem inscribed_convert (ht : t.Sound) (hs : s.generate = Generator.runtimeCall callee)
    (hlabel : s.annotator.label ≠ Vocabulary.shorthand) {attr opening : NodeId} {classes : Text}
    (hname : t.attributeName attr = some Vocabulary.shorthand)
    (hparent : t.parent attr = some opening) (hopening : t.form opening = .opening)
    (hclasses : t.shorthandClasses attr = .ok classes) :
    (s.convert attr (t.attributes opening) classes t).failure =
        (s.silent.convert attr (t.attributes opening) classes t).failure ∧
      Inscribed s.annotator.label (s.silent.convert attr (t.attributes opening) classes t).tree
        (s.convert attr (t.attributes opening) classes t).tree := by
  have hplain : s.generate.Plain := fun _ _ hast => Or.inl ⟨callee, hs ▸ hast⟩
  obtain ⟨ast, hast⟩ : ∃ ast, s.generate classes = .ok ast := ⟨_, by rw [hs]; rfl⟩
  have hsteady := Generator.steady_runtimeCall (hs ▸ hast)
  obtain ⟨v, style, hswap, hconvert⟩ :=
    swapped_before ht hplain hname hparent hopening hclasses hast
    hsteady (t.attributes opening)
  have hmoves := (hswap.reworked s.annotator.label).moves
  have hv := hmoves.sound ht
  have hopening' : v.form opening = .opening :=
    (hmoves.form_eq ht (ht.linked.parent_lt_size hparent)).trans hopening
  have hsilent : s.silent.convert attr (t.attributes opening) classes t = ⟨v, none⟩ :=
    (hconvert _).trans (Annotator.attachAfter_of_off rfl ..)
  have hloud : s.convert attr (t.attributes opening) classes t =
      s.annotator.attachAfter style (t.attributes opening) classes v := hconvert _
  obtain ⟨hok, -, -⟩ := annotated_attachAfter hv s.annotator hswap.below hopening'
    (hswap.parent_of_label ht hopening hname hlabel) classes
  rw [hsilent, hloud]
  exact ⟨hok, inscribed_attachAfter hv s.annotator hswap.below hopening' hok⟩

/-- A tag is annotated, and that does not fail. -/
theorem inscribed_tag (ht : t.Sound) (a : Annotator) {opening : NodeId}
    (hopening : t.form opening = .opening) (classes : Text) :
    (a.attachTo opening (t.attributes opening) classes t).failure = none ∧
      Inscribed a.label t (a.attachTo opening (t.attributes opening) classes t).tree := by
  obtain ⟨hok, -, -⟩ := annotated_attachTo ht a hopening
    (fun b hb _ => parent_of_mem_attributes ht.linked hb) classes opening
  exact ⟨hok, inscribed_attachTo ht a hopening hok⟩

/-- Merging with annotations is merging without and annotating then. -/
theorem inscribed_merge (ht : t.Sound) (hs : s.generate.Plain) {attr style opening : NodeId}
    (hattr : t.form attr = .attr) (hparent : t.parent attr = some opening)
    (hopening : t.form opening = .opening) (classes : Text) :
    (s.merge attr style opening classes t).failure =
        (s.silent.merge attr style opening classes t).failure ∧
      Inscribed s.annotator.label (s.silent.merge attr style opening classes t).tree
        (s.merge attr style opening classes t).tree := by
  have hmoves := moves_merge (s := s.silent) ht hs hattr hparent hopening style classes
  unfold merge at *
  cases hexpression : t.styleExpression style with
  | none => exact ⟨rfl, .refl ..⟩
  | some expression =>
    rw [hexpression] at hmoves
    dsimp only at *
    cases hast : s.generate classes with
    | error e =>
      rw [show s.silent.generate classes = .error e from hast]
      exact ⟨rfl, .refl ..⟩
    | ok ast =>
      rw [show s.silent.generate classes = .ok ast from hast] at hmoves ⊢
      dsimp only at *
      generalize (graft ast).run t = run at *
      obtain ⟨styles, u⟩ := run
      dsimp only at *
      rw [Annotator.attachTo_of_off (a := s.silent.annotator) rfl] at hmoves ⊢
      dsimp only at *
      exact inscribed_tag (hmoves.sound ht) s.annotator
        ((hmoves.form_eq ht (ht.linked.parent_lt_size hparent)).trans hopening) classes

/-- Restyling an attribute with annotations is restyling it without and annotating then. -/
theorem inscribed_restyleAttribute (ht : t.Sound) (hs : s.generate = Generator.runtimeCall callee)
    (hlabel : s.annotator.label ≠ Vocabulary.shorthand) (attr : NodeId) :
    (s.restyleAttribute attr t).failure = (s.silent.restyleAttribute attr t).failure ∧
      Inscribed s.annotator.label (s.silent.restyleAttribute attr t).tree
        (s.restyleAttribute attr t).tree := by
  have hplain : s.generate.Plain := fun _ _ hast => Or.inl ⟨callee, hs ▸ hast⟩
  unfold restyleAttribute
  split
  case isTrue hname =>
    obtain ⟨value, hkind⟩ := attributeName_eq_some hname
    have hattr : t.form attr = .attr := congrArg Kind.form hkind
    cases hclasses : t.shorthandClasses attr with
    | error e => exact ⟨rfl, .refl ..⟩
    | ok classes =>
      cases henclosing : t.enclosing attr .opening with
      | none => exact ⟨rfl, .refl ..⟩
      | some opening =>
        obtain ⟨hparent, hopening⟩ := ht.parent_of_enclosing hattr henclosing
        dsimp only
        cases t.attributeNamed (t.attributes opening) Vocabulary.style with
        | none => exact inscribed_convert ht hs hlabel hname hparent hopening hclasses
        | some style => exact inscribed_merge ht hplain hattr hparent hopening classes
  case isFalse => exact ⟨rfl, .refl ..⟩

/-- The element around a reference is annotated, if there is one, and that does not fail. -/
theorem inscribed_annotateAround (ht : t.Sound) (reference : NodeId) (classes : Text) :
    (s.annotateAround reference classes t).failure = none ∧
      Inscribed s.annotator.label t (s.annotateAround reference classes t).tree := by
  unfold annotateAround
  cases henclosing : t.enclosing reference .opening with
  | none => exact ⟨rfl, .refl ..⟩
  | some opening =>
    exact inscribed_tag ht s.annotator (ht.linked.form_of_enclosing henclosing).1 classes

theorem annotateAround_of_off (hoff : s.annotator.enabled = false) (reference : NodeId)
    (classes : Text) : s.annotateAround reference classes t = ⟨t, none⟩ := by
  unfold annotateAround
  split
  · rfl
  · exact Annotator.attachTo_of_off hoff ..

end Annotating

section Runs

variable {label : Text} {f : NodeId → NodeId} {a p : Tree} {s : Stylist} {callee : Text}

/-- A reference is restyled in both stores, with annotations in one of them. -/
theorem restyleReference_alike (h : Alike s.annotator.label f a p) (ha : a.Sound) (hp : p.Sound)
    (hs : s.generate.Plain) (scope : Scope) {reference : NodeId}
    (hreference : p.form reference ≠ .str) :
    (s.restyleReference scope (f reference) a).failure =
        (s.silent.restyleReference scope reference p).failure ∧
      ∃ g, (∀ n < p.size, g n = f n) ∧ Alike s.annotator.label g
        (s.restyleReference scope (f reference) a).tree
        (s.silent.restyleReference scope reference p).tree := by
  have hunchanged : ∃ g, (∀ n < p.size, g n = f n) ∧ Alike s.annotator.label g a p :=
    ⟨f, fun _ _ => rfl, h⟩
  unfold restyleReference
  rw [h.isAttached_eq ha.linked hp.linked hreference]
  split
  · rw [h.enclosing_eq ha.linked hp.linked hreference]
    cases henclosing : p.enclosing reference .template with
    | none => exact ⟨rfl, hunchanged⟩
    | some template =>
      obtain ⟨htemplate, hlt⟩ := hp.linked.form_of_enclosing henclosing
      dsimp only [Option.map_some]
      rw [h.permits_eq ha.linked hp.linked scope (by simp [htemplate])]
      split
      · rw [h.staticClasses_eq hp]
        cases p.staticClasses template scope.builder with
        | none => exact ⟨rfl, hunchanged⟩
        | some classes =>
          obtain ⟨hok, hinscribed⟩ := inscribed_annotateAround (s := s) ha (f reference) classes
          have hmoves := moves_annotateAround (s := s) ha (f reference) classes
          dsimp only
          rw [annotateAround_of_off (s := s.silent) rfl]
          generalize s.annotateAround (f reference) classes a = step at *
          obtain ⟨a', failure⟩ := step
          dsimp only at *
          subst hok
          obtain ⟨g, hg, halike⟩ := h.inscribed ha.linked hp.linked hinscribed
          obtain ⟨hfailure, htree⟩ := replaceTemplate_alike (s := s) halike
            (hmoves.sound ha) hp hs classes htemplate
          rw [hg template hlt] at hfailure htree
          exact ⟨hfailure, g, hg, htree⟩
      · rw [h.span_eq]
        exact ⟨rfl, hunchanged⟩
  · exact ⟨rfl, hunchanged⟩

/-- References are restyled in both stores, with annotations in one of them. -/
theorem restyleReferences_alike (h : Alike s.annotator.label f a p) (ha : a.Sound) (hp : p.Sound)
    (hs : s.generate.Plain) (scope : Scope) {references : List NodeId}
    (hreferences : ∀ r ∈ references, p.form r = .ident) :
    (s.restyleReferences scope (references.map f) a).1 =
        (s.silent.restyleReferences scope references p).1 ∧
      ∃ g, (∀ n < p.size, g n = f n) ∧ Alike s.annotator.label g
        (s.restyleReferences scope (references.map f) a).2
        (s.silent.restyleReferences scope references p).2 := by
  induction references generalizing f a p with
  | nil => exact ⟨rfl, f, fun _ _ => rfl, h⟩
  | cons r rest ih =>
    have hr := hreferences r List.mem_cons_self
    obtain ⟨hfailure, g, hg, halike⟩ :=
      restyleReference_alike h ha hp hs scope (show p.form r ≠ .str by simp [hr])
    have hmoves := moves_restyleReference ha hs scope (f r)
    have hmoves' := moves_restyleReference (s := s.silent) hp hs scope r
    have hlt {m : NodeId} (hm : m ∈ rest) : m < p.size :=
      lt_size_of_form (by rw [hreferences m (List.mem_cons_of_mem _ hm)]; decide)
    have hrename : rest.map f = rest.map g :=
      List.map_congr_left fun m hm => (hg m (hlt hm)).symm
    obtain ⟨hfailures, g', hg', hrest⟩ := ih halike (hmoves.sound ha) (hmoves'.sound hp)
      fun m hm => (hmoves'.form_eq hp (hlt hm)).trans (hreferences m (List.mem_cons_of_mem _ hm))
    simp only [List.map_cons, restyleReferences]
    rw [hrename, hfailure, hfailures]
    refine ⟨rfl, g', fun n hn => ?_, hrest⟩
    rw [hg' n (Nat.lt_of_lt_of_le hn (hmoves'.size_le hp)), hg n hn]

end Runs

end Stylist

namespace Tree

/-- The import is kept, trimmed or taken out in both stores. -/
theorem Alike.stripImport {label : Text} {f : NodeId → NodeId} {a p : Tree}
    (h : Alike label f a p) (ha : a.Sound) (hp : p.Sound) (found : StyleImport)
    (hfound : f found.node = found.node) :
    Alike label f (a.stripImport found) (p.stripImport found) := by
  have hform : a.form found.node = p.form found.node := by rw [← h.form_eq, hfound]
  by_cases himport : p.form found.node = .importing
  · obtain ⟨decl, hkind⟩ : ∃ decl, p.kind found.node = .importing decl := by
      unfold form at himport
      cases hk : p.kind found.node <;> simp_all [Kind.form]
    have hkind' : a.kind found.node = .importing decl := by
      rw [← hfound]
      exact h.kind_eq hkind (by simp [Kind.form]) (by simp)
    have hne : p.form found.node ≠ .str := by simp [himport]
    unfold Tree.stripImport
    simp only [hkind, hkind', h.isReferenced_eq ha.linked hp.linked]
    split
    · exact h
    · split
      · have hadds : Adds p (p.alloc (.importing (decl.without found.name)) none).2 p.size :=
          .leaf p rfl
        have hadds' : Adds a (a.alloc (.importing (decl.without found.name)) none).2 a.size :=
          .leaf a rfl
        have hreplaced := (h.alloc (.importing (decl.without found.name)) none).replaceAt
          (hadds'.moves.sound ha).linked (hadds.moves.sound hp).linked found.node hadds.lt_size ?_
        · rw [hfound, h.size_eq] at hreplaced
          exact hreplaced
        · rwa [hadds.form_eq (lt_size_of_form (by rw [himport]; decide))]
      · have hremoved := h.remove ha.linked hp.linked found.node hne
        rwa [hfound] at hremoved
  · have hother {t : Tree} (ht : t.form found.node ≠ .importing) : t.stripImport found = t := by
      unfold form at ht
      unfold Tree.stripImport
      cases hk : t.kind found.node <;> simp_all [Kind.form]
    rw [hother himport, hother (by rwa [hform])]
    exact h

end Tree

end JsxStyle
