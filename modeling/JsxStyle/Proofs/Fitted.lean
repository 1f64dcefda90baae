import JsxStyle.Proofs.Access
import JsxStyle.Proofs.Marks
import JsxStyle.Proofs.Order
import JsxStyle.Proofs.Restyled
import JsxStyle.Proofs.Verbatim

/-!
# Places that fit the source

A place is good for cutting the source if its ends are the right way round, within the
source and between characters.  The places that reading notes down are, and restyling
notes down no others: it hands a place on from the node that is replaced, and whatever
it adds has none.  What an error points at is the place of some node.

In the same way opaque code stays what it was in the source, in which a character begins
behind every ASCII byte.

* `fitted_ofSource`: the tree of a module;
* `Fitted.mapKind`, `Fitted.alloc`, `Fitted.graft`, `Fitted.replaceAt`: the steps that
  restyling is made of;
* `fitted_restyleAttribute`, `fitted_restyleReferences`, `Fitted.stripImport`: what is
  made of them.
-/

namespace JsxStyle

/-- A range that leads forward, from between two characters to between two characters. -/
structure Span.Fits (s : Span) (text : Text) : Prop where
  le : s.lo ≤ s.hi
  le_length : s.hi ≤ text.length
  lo : text.isBoundary s.lo = true
  hi : text.isBoundary s.hi = true

/-- A range between two boundaries that leads forward fits the text. -/
theorem Span.fits_of_isBoundary {s : Span} {text : Text} (hle : s.lo ≤ s.hi)
    (hlo : text.isBoundary s.lo = true) (hhi : text.isBoundary s.hi = true) : s.Fits text :=
  ⟨hle, Text.le_length_of_isBoundary hhi, hlo, hhi⟩

/-- An error that points at a range of the source, if it points anywhere. -/
def StyleError.Fits (e : StyleError) (source : Text) : Prop :=
  ∀ s, e.span = some s → s.Fits source

/-- The text of opaque code. -/
def Kind.code? {α : Type} : Kind α → Option Text
  | code t => some t
  | _ => none

/-- Opaque code has nothing below it, so no edit of the nodes below changes it. -/
theorem Kind.lasting_code : Lasting code? where
  setItems _ k := by cases k <;> rfl
  replaceChild _ _ k := by
    cases k with
    | element head children closing => simp only [Kind.replaceChild]; split <;> rfl
    | call callee arguments => simp only [Kind.replaceChild]; split <;> rfl
    | template tag chunks holes => simp only [Kind.replaceChild]; split <;> rfl
    | _ => rfl
  dropChild _ k := by cases k <;> rfl

/-- A generator whose code is text and whose errors point at nothing. -/
structure Generator.Tidy (g : Generator) : Prop where
  code : ∀ {classes : Text} {ast : Ast}, g classes = .ok ast →
    ast.Every fun b => ∀ code, b.kind.code? = some code → code.Breaks
  error : ∀ {classes : Text} {e : StyleError}, g classes = .error e → e.span = none

/-- The call of the runtime holds no opaque code, and making it never fails. -/
theorem Generator.tidy_runtimeCall (callee : Text) : (runtimeCall callee).Tidy where
  code h b hb code hcode := by
    have hform := steady_runtimeCall h b hb
    cases hk : b.kind <;> simp_all [Kind.code?, Kind.form, Form.Steady]
  error h := absurd h (by simp [runtimeCall])

namespace Tree

/-- A store over a source, with places that fit it and code that is text. -/
structure Fitted (t : Tree) (source : Text) : Prop where
  source_eq : t.source = source
  place : ∀ n s, t.span n = some s → s.Fits source
  code : ∀ n code, (t.kind n).code? = some code → code.Breaks

variable {t t' : Tree} {source : Text}

/-- A node of the store holds the code of the tree that it shows. -/
theorem Depicts.code? {n : NodeId} {a : Ast} (h : t.Depicts n a) :
    (t.kind n).code? = a.kind.code? := by
  cases h with
  | node z _ hkind =>
    rw [hkind, Ast.kind]
    cases z <;> rfl

/-- The places that reading notes down fit the source. -/
theorem fitted_ofSource (hutf8 : Text.isUtf8 source = true) (h : ofSource source = .ok t) :
    t.Fitted source := by
  have hnested {n : NodeId} := nested_ofSource h (n := n)
  obtain ⟨body, hbody, rfl⟩ := map_eq_ok.mp h
  have hholds := ofBody_holds source body
  refine ⟨hholds.source_eq, fun n s hs => ?_, fun n code hcode => ?_⟩
  · rcases Nat.lt_or_ge n (ofBody source body).size with hn | hn
    · obtain ⟨s', hat⟩ := hnested hn
      obtain rfl := Option.some.inj (hs.symm.trans hat.span)
      exact Span.fits_of_isBoundary hat.le (hat.lo.boundary hutf8) (hat.hi.boundary hutf8)
    · rw [span, node_of_size_le hn] at hs
      exact absurd hs (by simp)
  · have hform : (ofBody source body).form n = .code := by
      unfold Tree.form
      cases hk : (ofBody source body).kind n <;> simp_all [Kind.code?, Kind.form]
    have hroot : n ≠ root := by
      rintro rfl
      obtain ⟨ids, hkind, -⟩ := hholds.program
      rw [form, hkind] at hform
      exact absurd hform (by simp [Kind.form])
    obtain ⟨a, ha, b, hsub, hdepicts, -⟩ :=
      hholds.others n hroot (lt_size_of_form (by rw [hform]; decide))
    rw [hdepicts.code?] at hcode
    obtain ⟨s, -, rfl⟩ := Read.verbatim_program hbody a ha b hsub code (by
      cases hk : b.kind <;> simp_all [Kind.code?])
    exact (Text.breaks_of_isUtf8 hutf8).of_isInfix (Text.slice_isInfix ..)

namespace Fitted

/-- A store with the same places and the same code fits as well. -/
theorem congr (h : t.Fitted source) (hsource : t'.source = t.source)
    (hspan : ∀ n, t'.span n = t.span n) (hcode : ∀ n, (t'.kind n).code? = (t.kind n).code?) :
    t'.Fitted source where
  source_eq := hsource.trans h.source_eq
  place n s hs := h.place n s (hspan n ▸ hs)
  code n code hk := h.code n code (hcode n ▸ hk)

/-- Which node is above which has no say in it. -/
theorem setParent (h : t.Fitted source) (parent : Option NodeId) (id : NodeId) :
    (t.setParent parent id).Fitted source :=
  h.congr (by simp) (by simp) (by simp)

/-- What is marked as changed has no say in it. -/
theorem markDirty (h : t.Fitted source) (id : NodeId) : (t.markDirty id).Fitted source :=
  h.congr (by simp) (by simp) (by simp)

/-- Changing what a node is keeps the places, and the code as long as the change does. -/
theorem mapKind (h : t.Fitted source) (id : NodeId) {f : Kind NodeId → Kind NodeId}
    (hf : ∀ k, (f k).code? = k.code?) : (t.mapKind id f).Fitted source := by
  refine h.congr (by simp) (by simp) fun n => ?_
  rw [kind_mapKind]
  split
  · exact hf _
  · rfl

/-- A place that fits may be noted down anywhere. -/
theorem atPlace (h : t.Fitted source) (id : NodeId) {s? : Option Span}
    (hs : ∀ s, s? = some s → s.Fits source) :
    (t.update id ({ · with span := s? })).Fitted source where
  source_eq := h.source_eq
  place n s hspan := by
    rw [span, node_update] at hspan
    split at hspan
    · exact hs s hspan
    · exact h.place n s hspan
  code n code hk := h.code n code (by rwa [kind_place] at hk)

/-- A new node has no place. -/
theorem alloc (h : t.Fitted source) {kind : Kind NodeId} (hk : kind.code? = none) :
    (t.alloc kind none).2.Fitted source where
  source_eq := (source_alloc ..).trans h.source_eq
  place n s hs := by
    rw [span_alloc] at hs
    split at hs
    · exact absurd hs (by simp)
    · exact h.place n s hs
  code n code hcode := by
    rw [kind_alloc] at hcode
    split at hcode
    · exact absurd (hcode.symm.trans hk) (by simp)
    · exact h.code n code hcode

/-- What a generator makes has no places. -/
theorem graft (h : t.Fitted source) (ht : t.Linked) {ast : Ast}
    (hspan : ast.Every fun b => b.span = none)
    (hcode : ast.Every fun b => ∀ code, b.kind.code? = some code → code.Breaks) :
    ((Tree.graft ast).run t).2.Fitted source := by
  have hg := graft_spec ast t ht
  have hadded {n : NodeId} (hn : t.size ≤ n) (hlt : n < ((Tree.graft ast).run t).2.size) :
      ∃ b : Ast, b.Sub ast ∧ Depicts ((Tree.graft ast).run t).2 n b := by
    obtain ⟨a, ha, b, hsub, hdepicts, -⟩ := hg.added n hn hlt
    obtain rfl := List.mem_singleton.mp ha
    exact ⟨b, hsub, hdepicts⟩
  refine ⟨hg.source.trans h.source_eq, fun n s hs => ?_, fun n code hk => ?_⟩
  · rcases Nat.lt_or_ge n t.size with hn | hn
    · exact h.place n s ((congrArg Node.span (hg.old n hn)).symm.trans hs)
    · rcases Nat.lt_or_ge n ((Tree.graft ast).run t).2.size with hlt | hge
      · obtain ⟨b, hsub, hdepicts⟩ := hadded hn hlt
        exact absurd ((hdepicts.span_eq.trans (hspan b hsub)).symm.trans hs) (by simp)
      · rw [span, node_of_size_le hge] at hs
        exact absurd hs (by simp)
  · rcases Nat.lt_or_ge n t.size with hn | hn
    · rw [show Tree.kind _ n = t.kind n from congrArg Node.kind (hg.old n hn)] at hk
      exact h.code n code hk
    · rcases Nat.lt_or_ge n ((Tree.graft ast).run t).2.size with hlt | hge
      · obtain ⟨b, hsub, hdepicts⟩ := hadded hn hlt
        exact hcode b hsub code (hdepicts.code? ▸ hk)
      · rw [kind_of_size_le hge] at hk
        exact absurd hk (by simp [Kind.code?])

/-! ## Edits -/

section

variable {old new id anchor holder : NodeId}

/-- A node built on the way to a replacement is covered by what is said of building it. -/
theorem replaceWith (h : t.Fitted source) {build : Tree → NodeId × Tree}
    (hbuild : ∀ {u : Tree}, u.Fitted source → (build u).2.Fitted source) :
    (t.replaceWith old build).2.Fitted source := by
  have hbuilt := hbuild (h.setParent none old)
  unfold Tree.replaceWith
  cases t.parent old with
  | none => exact hbuilt
  | some above =>
    exact ((hbuilt.mapKind above (Kind.lasting_code.replaceChild old _)).setParent ..).markDirty
      above

/-- Putting one node in the place of another moves no place. -/
theorem replace (h : t.Fitted source) : (t.replace old new).Fitted source :=
  h.replaceWith id

/-- The new node takes over a place that fits. -/
theorem replaceAt (h : t.Fitted source) : (t.replaceAt old new).Fitted source := by
  have hplaced : Fitted (Tree.replace old new _) source := (h.atPlace new (h.place old)).replace
  refine hplaced.congr rfl (fun n => ?_) fun n => ?_
  · simp only [Tree.replaceAt, span, node_update]
    split <;> rfl
  · simp only [Tree.replaceAt, kind, node_update]
    split <;> rfl

/-- Taking a node out leaves the places of the others. -/
theorem remove (h : t.Fitted source) : (t.remove id).Fitted source := by
  unfold Tree.remove
  cases t.parent id with
  | none => exact h
  | some above =>
    exact ((h.setParent ..).mapKind above (Kind.lasting_code.dropChild id)).markDirty above

/-- A node that is put in behind another leaves the places of the others. -/
theorem insertAfter (h : t.Fitted source) (hr : t.insertAfter anchor new = some t') :
    t'.Fitted source := by
  obtain ⟨above, items, -, -, -, rfl⟩ := insertAfter_eq_some hr
  exact ((h.mapKind above (Kind.lasting_code.setItems _)).setParent ..).markDirty above

/-- A node that is put in at the end does, too. -/
theorem append (h : t.Fitted source) (hr : t.append holder new = some t') : t'.Fitted source := by
  obtain ⟨items, -, rfl⟩ := append_eq_some hr
  exact ((h.mapKind holder (Kind.lasting_code.setItems _)).setParent ..).markDirty holder

end

end Fitted

end Tree

/-! ## Handlers -/

/-- An attempt that leaves a store with places that fit, and fails there if at all. -/
structure Step.Fitted (step : Step) (source : Text) : Prop where
  tree : step.tree.Fitted source
  failure : ∀ e, step.failure = some e → e.Fits source

variable {t : Tree} {source : Text}

/-- A step that does not fail leaves its store fitted. -/
theorem Tree.Fitted.step (h : t.Fitted source) : Step.Fitted ⟨t, none⟩ source :=
  ⟨h, fun _ he => absurd he (by simp)⟩

/-- An attempt may fail at any node. -/
theorem Tree.Fitted.failAt (h : t.Fitted source) (fault : StyleFault) (n : NodeId) :
    Step.Fitted ⟨t, some ⟨fault, t.span n⟩⟩ source :=
  ⟨h, fun _ he => Option.some.inj he ▸ h.place n⟩

namespace Annotator

variable {a : Annotator} {ids : List NodeId} {classes : Text}

/-- Extending an annotation changes the value of an attribute, which has no place to lose. -/
theorem fitted_extend (h : t.Fitted source) {t' : Tree} (hr : a.extend ids classes t = some t') :
    t'.Fitted source := by
  unfold extend at hr
  simp only [Option.bind_eq_bind, Option.bind_eq_some_iff] at hr
  obtain ⟨existing, -, value, -, hr⟩ := hr
  split at hr
  · rw [← Option.some.inj hr]
    exact (h.alloc rfl).replace
  · rwa [← Option.some.inj hr]

/-- Annotating is extending, or inserting a new attribute in a way that keeps places. -/
theorem fitted_annotate (h : t.Fitted source) {insert : NodeId → Tree → Option Tree}
    (hinsert : ∀ {new : NodeId} {u u' : Tree}, u.Fitted source → insert new u = some u' →
      u'.Fitted source) (target : NodeId) :
    (a.annotate insert target ids classes t).Fitted source := by
  have hfresh : (a.fresh classes.collapse t).2.Fitted source := (h.alloc rfl).alloc rfl
  unfold annotate
  split
  case isTrue =>
    cases hextended : a.extend ids classes.collapse t with
    | some extended => exact (fitted_extend h hextended).step
    | none =>
      dsimp only
      cases hinserted : insert (a.fresh classes.collapse t).1 (a.fresh classes.collapse t).2 with
      | some inserted => exact (hinsert hfresh hinserted).step
      | none => exact hfresh.failAt ..
  case isFalse => exact h.step

/-- An annotation behind a style keeps places. -/
theorem fitted_attachAfter (h : t.Fitted source) (style : NodeId) :
    (a.attachAfter style ids classes t).Fitted source :=
  fitted_annotate h (fun hu hr => hu.insertAfter hr) style

/-- An annotation at the end of an opening tag keeps places. -/
theorem fitted_attachTo (h : t.Fitted source) (opening : NodeId) :
    (a.attachTo opening ids classes t).Fitted source :=
  fitted_annotate h (fun hu hr => hu.append hr) opening

end Annotator

namespace Stylist

open JsxStyle.Tree

variable {s : Stylist} {classes : Text}

/-- A tidy generator fails at no place at all. -/
theorem fits_generate (hs : s.generate.Tidy) {e : StyleError} (h : s.generate classes = .error e) :
    e.Fits source :=
  fun _ hspan => absurd ((hs.error h).symm.trans hspan) (by simp)

/-- What a tidy generator makes can be put into a store that fits. -/
theorem fitted_generated (h : t.Fitted source) (ht : t.Linked) (hplain : s.generate.Plain)
    (hs : s.generate.Tidy) {ast : Ast} (hast : s.generate classes = .ok ast) :
    ((Tree.graft ast).run t).2.Fitted source :=
  h.graft ht (hplain.graftable hast).2.1 (hs.code hast)

/-- Merging two styles rearranges what is there. -/
theorem fitted_mergeStyles (h : t.Fitted source) (expression styles : NodeId) :
    (mergeStyles expression styles t).Fitted source := by
  unfold mergeStyles
  split
  · cases hr : t.append expression styles with
    | none => exact h
    | some t' => exact h.append hr
  · exact h.replaceWith fun hu => hu.alloc rfl

/-- Merging the shorthand into a style keeps places, or fails at one. -/
theorem fitted_merge (h : t.Fitted source) (ht : t.Linked) (hplain : s.generate.Plain)
    (hs : s.generate.Tidy) (attr style opening : NodeId) :
    (s.merge attr style opening classes t).Fitted source := by
  unfold merge
  cases t.styleExpression style with
  | none => exact h.failAt ..
  | some expression =>
    dsimp only
    cases hgenerate : s.generate classes with
    | error e => exact ⟨h, fun _ heq => Option.some.inj heq ▸ fits_generate hs hgenerate⟩
    | ok ast =>
      exact Annotator.fitted_attachTo
        (fitted_mergeStyles (fitted_generated h ht hplain hs hgenerate).remove ..) opening

/-- Converting the shorthand into a style keeps places, or fails at one. -/
theorem fitted_convert (h : t.Fitted source) (ht : t.Linked) (hplain : s.generate.Plain)
    (hs : s.generate.Tidy) (attr : NodeId) (ids : List NodeId) :
    (s.convert attr ids classes t).Fitted source := by
  unfold convert
  cases hgenerate : s.generate classes with
  | error e => exact ⟨h, fun _ heq => Option.some.inj heq ▸ fits_generate hs hgenerate⟩
  | ok ast =>
    exact Annotator.fitted_attachAfter
      (((fitted_generated h ht hplain hs hgenerate).alloc rfl).alloc rfl).replaceAt _

/-- What is wrong with a shorthand is wrong with a node of the store, and so at its place. -/
theorem fits_shorthandClasses (h : t.Fitted source) {attr : NodeId} {e : StyleError}
    (he : t.shorthandClasses attr = .error e) : e.Fits source := by
  obtain ⟨n, rfl⟩ := Tree.exists_of_shorthandClasses_eq_error he
  exact h.place n

/-- Restyling an attribute hands places on and fails at a place, if anywhere. -/
theorem fitted_restyleAttribute (h : t.Fitted source) (ht : t.Linked) (hplain : s.generate.Plain)
    (hs : s.generate.Tidy) (attr : NodeId) : (s.restyleAttribute attr t).Fitted source := by
  unfold restyleAttribute
  split
  case isTrue =>
    cases hclasses : t.shorthandClasses attr with
    | error e => exact ⟨h, fun _ heq => Option.some.inj heq ▸ fits_shorthandClasses h hclasses⟩
    | ok classes =>
      dsimp only
      cases t.enclosing attr .opening with
      | none => exact h.failAt ..
      | some opening =>
        dsimp only
        cases t.attributeNamed (t.attributes opening) Vocabulary.style with
        | some style => exact fitted_merge h ht hplain hs ..
        | none => exact fitted_convert h ht hplain hs ..
  case isFalse => exact h.step

/-- Annotating the element around a reference keeps places, or fails at one. -/
theorem fitted_annotateAround (h : t.Fitted source) (reference : NodeId) :
    (s.annotateAround reference classes t).Fitted source := by
  unfold annotateAround
  split
  · exact h.step
  · exact Annotator.fitted_attachTo h _

/-- The styles that replace a template take over its place. -/
theorem fitted_replaceTemplate (h : t.Fitted source) (ht : t.Linked) (hplain : s.generate.Plain)
    (hs : s.generate.Tidy) (template : NodeId) :
    (s.replaceTemplate template classes t).Fitted source := by
  unfold replaceTemplate
  cases hgenerate : s.generate classes with
  | error e => exact ⟨h, fun _ heq => Option.some.inj heq ▸ fits_generate hs hgenerate⟩
  | ok ast => exact (fitted_generated h ht hplain hs hgenerate).replaceAt.step

/-- Restyling one reference hands places on and fails at a place, if at all. -/
theorem fitted_restyleReference (h : t.Fitted source) (ht : t.Sound) (hplain : s.generate.Plain)
    (hs : s.generate.Tidy) (scope : Scope) (reference : NodeId) :
    (s.restyleReference scope reference t).Fitted source := by
  unfold restyleReference
  split
  case isTrue =>
    cases t.enclosing reference .template with
    | none => exact h.step
    | some template =>
      dsimp only
      split
      case isTrue =>
        cases t.staticClasses template scope.builder with
        | none => exact h.step
        | some classes =>
          dsimp only
          have hmoves := moves_annotateAround (s := s) ht reference classes
          have hfitted : (s.annotateAround reference classes t).Fitted source :=
            fitted_annotateAround h reference
          generalize s.annotateAround reference classes t = step at hmoves hfitted ⊢
          obtain ⟨u, failure⟩ := step
          cases failure with
          | some e => exact hfitted
          | none => exact fitted_replaceTemplate hfitted.tree (hmoves.sound ht).linked hplain hs _
      case isFalse => exact h.failAt ..
  case isFalse => exact h.step

/-- Restyling references, one after the other, hands places on and fails at places. -/
theorem fitted_restyleReferences (h : t.Fitted source) (ht : t.Sound) (hplain : s.generate.Plain)
    (hs : s.generate.Tidy) (scope : Scope) (references : List NodeId) :
    (s.restyleReferences scope references t).2.Fitted source ∧
      ∀ e ∈ (s.restyleReferences scope references t).1, e.Fits source := by
  induction references generalizing t with
  | nil => exact ⟨h, by simp [restyleReferences]⟩
  | cons reference rest ih =>
    have hstep := fitted_restyleReference h ht hplain hs scope reference
    have hmoves := moves_restyleReference ht hplain scope reference
    obtain ⟨htree, hfailures⟩ := ih hstep.tree (hmoves.sound ht)
    refine ⟨htree, fun e he => ?_⟩
    rw [restyleReferences] at he
    rcases List.mem_append.mp he with he | he
    · exact hstep.failure e (Option.mem_toList.mp he)
    · exact hfailures e he

end Stylist

/-- The import statement that is written out again takes over the place of the old one. -/
theorem Tree.Fitted.stripImport (h : t.Fitted source) (found : StyleImport) :
    (t.stripImport found).Fitted source := by
  rcases t.stripImport_cases found with hkept | ⟨decl, -, hnew | hgone⟩
  · rwa [hkept]
  · rw [hnew]
    exact (h.alloc rfl).replaceAt
  · rw [hgone]
    exact h.remove

/-! ## Drafts -/

/-- A draft whose store is sound, with places that fit, and whose failures point at such. -/
structure Draft.Fitted (d : Draft) (source : Text) : Prop where
  sound : d.tree.Sound
  tree : d.tree.Fitted source
  failures : ∀ e ∈ d.failures, e.Fits source

/-- A fitted draft, or an error that points at a place that fits. -/
def Draft.Settled (source : Text) : Except StyleError Draft → Prop
  | .ok d => d.Fitted source
  | .error e => e.Fits source

namespace Draft

open JsxStyle.Tree

variable {d : Draft} {s : Stylist} {goOn : Bool}

/-- Two attempts in a row settle if the first does, and the second does on every fitted draft. -/
theorem Settled.bind {r : Except StyleError Draft} {f : Draft → Except StyleError Draft}
    (hr : Settled source r) (hf : ∀ d, d.Fitted source → Settled source (f d)) :
    Settled source (r >>= f) := by
  cases r with
  | error e => exact hr
  | ok d => exact hf d hr

/-- A run of attempts settles if each of them does. -/
theorem Settled.foldlM {α : Type} {f : Draft → α → Except StyleError Draft} {l : List α}
    (hf : ∀ d, ∀ a ∈ l, d.Fitted source → Settled source (f d a)) (hd : d.Fitted source) :
    Settled source (l.foldlM f d) := by
  induction l generalizing d with
  | nil => exact hd
  | cons a rest ih =>
    rw [List.foldlM_cons]
    exact (hf d a List.mem_cons_self hd).bind fun d hd =>
      ih (fun d b hb => hf d b (List.mem_cons_of_mem a hb)) hd

/-- An error at a place that fits may be noted down or end the run. -/
theorem Fitted.report (hd : d.Fitted source) {e : StyleError} (he : e.Fits source) :
    Settled source (d.report goOn e) := by
  unfold Draft.report
  split
  · refine ⟨hd.sound, hd.tree, fun e' he' => ?_⟩
    rcases List.mem_append.mp he' with h | h
    · exact hd.failures e' h
    · rwa [List.mem_singleton.mp h]
  · exact he

/-- Restyling an attribute settles. -/
theorem Fitted.restyleAttribute (hd : d.Fitted source) (hplain : s.generate.Plain)
    (hs : s.generate.Tidy) (attr : NodeId) : Settled source (d.restyleAttribute goOn s attr) := by
  unfold Draft.restyleAttribute
  split
  · have hstep := Stylist.fitted_restyleAttribute hd.tree hd.sound.linked hplain hs attr
    have hsound := (Stylist.moves_restyleAttribute hd.sound hplain attr).sound hd.sound
    have hnext (seen : Seen) : Draft.Fitted
        { d with tree := (s.restyleAttribute attr d.tree).tree, seen } source :=
      ⟨hsound, hstep.tree, hd.failures⟩
    dsimp only
    cases hfailure : (s.restyleAttribute attr d.tree).failure with
    | none => exact hnext _
    | some e => exact (hnext _).report (hstep.failure e hfailure)
  · exact hd

/-- Restyling all attributes settles. -/
theorem Fitted.restyleAttributes (hd : d.Fitted source) (hplain : s.generate.Plain)
    (hs : s.generate.Tidy) : Settled source (d.restyleAttributes goOn s) :=
  .foldlM (fun _ _ _ hd => hd.restyleAttribute hplain hs _) hd

/-- Restyling all references settles. -/
theorem Fitted.restyleReferences (hd : d.Fitted source) (hplain : s.generate.Plain)
    (hs : s.generate.Tidy) (scope : Scope) (name : Text) :
    Settled source (d.restyleReferences goOn s scope name) := by
  obtain ⟨htree, hfailures⟩ := Stylist.fitted_restyleReferences hd.tree hd.sound hplain hs scope
    (d.tree.referencesTo name)
  refine .foldlM (fun _ e he hd => hd.report (hfailures e he)) ⟨?_, htree, hd.failures⟩
  exact (Stylist.moves_restyleReferences hplain scope _ hd.sound).sound hd.sound

/-- Without its style import, a draft that fits still fits. -/
theorem Fitted.stripImport (hd : d.Fitted source) (found : StyleImport) :
    Draft.Fitted { d with tree := d.tree.stripImport found } source :=
  ⟨(moves_stripImport hd.sound found).sound hd.sound, hd.tree.stripImport found, hd.failures⟩

end Draft

variable {settings : Settings} {s : Stylist}

/-- First the attributes, then the references to the style builder and its import. -/
theorem Settings.restyle_eq_bind (settings : Settings) (s : Stylist) (t : Tree) :
    settings.restyle s t =
      (if settings.options.requireImport &&
          (t.styleImport? settings.options.importSources).isNone then pure { tree := t }
        else Draft.restyleAttributes settings.options.continueOnError s { tree := t }) >>= fun d =>
      match t.styleImport? settings.options.importSources with
      | none => pure d
      | some found => do
        let d ← d.restyleReferences settings.options.continueOnError s
          { allowAnywhere := settings.options.allowStyleProp, builder := some found.name }
          found.name
        return if settings.options.stripImport then { d with tree := d.tree.stripImport found }
          else d := by
  unfold Settings.restyle
  dsimp only
  split <;> rfl

/-- Carrying out the changes to a module leaves places that fit, and fails at one if at all. -/
theorem Settings.settled_restyle (ht : t.Sound) (hfitted : t.Fitted source)
    (hplain : s.generate.Plain) (hs : s.generate.Tidy) :
    Draft.Settled source (settings.restyle s t) := by
  have hd : Draft.Fitted { tree := t } source := ⟨ht, hfitted, by simp⟩
  rw [Settings.restyle_eq_bind]
  refine Draft.Settled.bind ?_ fun d hd => ?_
  · split
    · exact hd
    · exact hd.restyleAttributes hplain hs
  · cases t.styleImport? settings.options.importSources with
    | none => exact hd
    | some found =>
      refine (hd.restyleReferences hplain hs _ found.name).bind fun d hd => ?_
      split
      · exact hd.stripImport found
      · exact hd

/-- Every store that a compilation goes through has places that fit. -/
theorem Tree.Visits.fitted {t' : Tree} (h : Visits settings s t t') (ht : t.Sound)
    (hfitted : t.Fitted source) (hplain : s.generate.Plain) (hs : s.generate.Tidy) :
    t'.Fitted source := by
  have hd : Draft.Fitted { tree := t } source := ⟨ht, hfitted, by simp⟩
  cases h with
  | attributes hsplit hrun =>
    have hsettled : Draft.Settled source (.ok _) := hrun ▸ Draft.Settled.foldlM
      (fun _ attr _ hd => hd.restyleAttribute hplain hs attr) hd
    exact hsettled.tree
  | references hfound hrun hsplit =>
    have hsettled : Draft.Settled source (.ok _) := hrun ▸ hd.restyleAttributes hplain hs
    exact (Stylist.fitted_restyleReferences hsettled.tree hsettled.sound hplain hs _ _).1
  | finished hrun =>
    have hsettled : Draft.Settled source (.ok _) :=
      hrun ▸ Settings.settled_restyle ht hfitted hplain hs
    exact hsettled.tree

end JsxStyle
