import JsxStyle.Proofs.Exchange
import JsxStyle.Proofs.Account

/-!
# The annotation of a tag

A tag without an annotation gets one from the first classes that come in, at its end
or behind its style attribute.  Classes that come later find that annotation, or the one
that was there from the start, and extend its string.  It does not matter that
the attributes to look through were listed before the style attribute came in, since the
attribute that went out for it was no annotation.

Whatever is done to other tags, or to the styles of this one, leaves the annotation
alone: an attribute and a string change only if something is put in
their place, and the nodes that handlers put something in the place of are
shorthand attributes, style expressions, templates and the strings of annotations.

* `Tree.Bears`: a tag carries no annotation, or exactly one that is a plain string;
* `Lengthened`: what adding classes one after the other makes of an annotation;
* `bears_attachTo`, `bears_attachAfter`: one annotation more;
* `Reworked.bears`, `Swapped.bears`, `Joined.bears`, `Annotated.bears`, `Recalled.bears`,
  `bears_stripImport`: everything else;
* `bears_restyleAttribute`: a shorthand attribute of the tag.
-/

namespace JsxStyle

namespace Annotator

/-- An annotation that was extended several times lists what it had and what was added. -/
theorem foldl_extended {added : List Text} (hadded : ∀ classes ∈ added, classes ≠ [])
    (existing : Text) : added.foldl extended existing =
      Text.join (Text.ofString " | ") ((if existing = [] then [] else [existing]) ++ added) := by
  induction added generalizing existing with
  | nil =>
    by_cases h : existing = []
    · simp [h, Text.join]
    · simp [h, Text.join]
  | cons classes rest ih =>
    have hclasses := hadded classes List.mem_cons_self
    have hrest : ∀ classes ∈ rest, classes ≠ [] := fun c hc =>
      hadded c (List.mem_cons_of_mem _ hc)
    rw [List.foldl_cons, ih hrest]
    by_cases h : existing = []
    · simp [h, extended, hclasses]
    · have hne : extended existing classes ≠ [] := by simp [extended, h]
      rw [if_neg hne, if_neg h, extended, if_neg (by simpa using h)]
      cases rest with
      | nil => simp [Text.join, List.intercalate_cons_cons]
      | cons next rest => simp [Text.join, List.intercalate_cons_cons]

end Annotator

/-- An annotation whose value is a plain string. -/
structure Note where
  attr : NodeId
  value : NodeId
  text : Text
  quote : Char
deriving DecidableEq, Repr

/-- The string of an annotation; without one it is empty. -/
def Note.written : Option Note → Text
  | none => []
  | some note => note.text

/-- What becomes of an annotation when classes are added to it one after the other. -/
structure Lengthened (before : Option Note) (added : List Text) (after : Option Note) : Prop where
  same : added = [] → after = before
  isSome : added ≠ [] → after.isSome
  written : Note.written after = added.foldl Annotator.extended (Note.written before)

namespace Lengthened

variable {before between after : Option Note} {added more : List Text}

theorem refl (note : Option Note) : Lengthened note [] note where
  same _ := rfl
  isSome h := absurd rfl h
  written := rfl

/-- An annotation with one list of classes added. -/
theorem single {note : Note} {classes : Text}
    (h : note.text = Annotator.extended (Note.written before) classes) :
    Lengthened before [classes] (some note) where
  same h := absurd h (by simp)
  isSome _ := rfl
  written := h

theorem trans (h : Lengthened before added between) (h' : Lengthened between more after) :
    Lengthened before (added ++ more) after where
  same hnil := by
    obtain ⟨hadded, hmore⟩ := List.append_eq_nil_iff.mp hnil
    rw [h'.same hmore, h.same hadded]
  isSome hne := by
    by_cases hmore : more = []
    · rw [h'.same hmore]
      exact h.isSome fun hadded => hne (by rw [hadded, hmore, List.append_nil])
    · exact h'.isSome hmore
  written := by rw [h'.written, h.written, List.foldl_append]

end Lengthened

/-- A kind that has no room for children. -/
def Kind.leaf? {α : Type} (k : Kind α) : Option (Kind α) :=
  match k with
  | code _ | importing _ | text _ | str _ _ | ident _ => some k
  | _ => none

/-- Whether a node is a leaf, and which, survives a change of its children. -/
theorem Kind.lasting_leaf : Lasting leaf? where
  setItems _ k := by cases k <;> rfl
  replaceChild _ _ k := by
    cases k with
    | element head children closing => simp only [Kind.replaceChild]; split <;> rfl
    | call callee arguments => simp only [Kind.replaceChild]; split <;> rfl
    | template tag chunks holes => simp only [Kind.replaceChild]; split <;> rfl
    | _ => rfl
  dropChild _ k := by cases k <;> rfl

/-- Replacing one of the others does not change what is picked out of a list. -/
theorem filter_replace_of_not {α : Type} [DecidableEq α] {p : α → Bool} {old new : α}
    (hold : p old = false) (hnew : p new = false) (l : List α) :
    (l.replace old new).filter p = l.filter p := by
  induction l with
  | nil => rfl
  | cons a rest ih =>
    rw [Kind.replace_cons_eq_ite]
    split
    case isTrue ha =>
      rw [List.filter_cons_of_neg (by simp [hnew]), ha, List.filter_cons_of_neg (by simp [hold])]
    case isFalse => rw [List.filter_cons, List.filter_cons, ih]

namespace Tree

variable {t t' : Tree} {label : Text} {o p n : NodeId} {note : Option Note}

/-- A node keeps its form, `fragment` being that of what is not a node. -/
theorem Moves.form_of_form (h : Moves t t') (ht : t.Sound) {f : Form} (hn : t.form n = f)
    (hf : f ≠ .fragment) : t'.form n = f :=
  (h.form_eq ht (lt_size_of_form (hn ▸ hf))).trans hn

/-- No move changes a node that has no room for children. -/
theorem Moves.kind_of_leaf (h : Moves t t') (ht : t.Sound) (hn : n < t.size)
    (hleaf : (t.kind n).leaf? = some (t.kind n)) : t'.kind n = t.kind n := by
  have hsame := (h.keeps Kind.lasting_leaf ht).2 n hn
  rw [hleaf] at hsame
  cases hk : t'.kind n <;> simp_all [Kind.leaf?]

/-- The attributes of a tag that are called `label`. -/
def labels (t : Tree) (label : Text) (o : NodeId) : List NodeId :=
  (t.attributes o).filter fun a => t.attributeName a = some label

/-- The tag `o` has no attribute called `label`, or only the plain string `note`. -/
def Bears (t : Tree) (label : Text) (o : NodeId) : Option Note → Prop
  | none => t.labels label o = []
  | some note => t.labels label o = [note.attr] ∧
      t.kind note.attr = .attr label (some note.value) ∧
      t.kind note.value = .str note.text note.quote

instance (t : Tree) (label : Text) (o : NodeId) (note : Option Note) :
    Decidable (t.Bears label o note) :=
  match note with
  | none => inferInstanceAs (Decidable (_ = _))
  | some _ => inferInstanceAs (Decidable (_ ∧ _ ∧ _))

/-- The annotations of a tag hang under it. -/
theorem parent_of_mem_labels (ht : t.Linked) (h : n ∈ t.labels label o) : t.parent n = some o :=
  parent_of_mem_attributes ht (List.mem_of_mem_filter h)

/-- The attributes called `label` are the same if the others of the tag are no concern. -/
theorem labels_eq {l : List NodeId} (ht : t.Sound) (hmoves : Moves t t') (ho : t.form o = .opening)
    (hlist : t'.attributes o = l)
    (hsame : l.filter (fun a => t'.attributeName a = some label) =
      (t.attributes o).filter fun a => t'.attributeName a = some label) :
    t'.labels label o = t.labels label o := by
  rw [labels, hlist, hsame, labels]
  exact List.filter_congr fun a ha => by
    rw [hmoves.attributeName_eq ht (lt_size_of_mem_attributes ht.linked ho ha)]

/-- An annotation is the same if it is where it was and still has its value. -/
theorem Bears.keep (h : t.Bears label o note) (ht : t.Sound) (hmoves : Moves t t')
    (hlabels : t'.labels label o = t.labels label o)
    (hkind : ∀ n value, t.parent n = some o → t.kind n = .attr label (some value) →
      t.form value = .str → t'.kind n = t.kind n) : t'.Bears label o note := by
  cases note with
  | none => exact hlabels.trans h
  | some note =>
    obtain ⟨hlist, hattr, hvalue⟩ := h
    have hform : t.form note.value = .str := congrArg Kind.form hvalue
    have hparent := parent_of_mem_labels ht.linked (hlist ▸ List.mem_singleton_self note.attr)
    refine ⟨hlabels.trans hlist, (hkind _ _ hparent hattr hform).trans hattr, ?_⟩
    exact (hmoves.kind_of_leaf ht (lt_size_of_form (by rw [hform]; decide))
      (by rw [hvalue]; rfl)).trans hvalue

section Annotating

variable {a : Annotator} {attributes : List NodeId} {classes : Text}

/-- The attribute of a name is the first that has it. -/
theorem attributeNamed_eq_head? (t : Tree) (l : List NodeId) (name : Text) :
    t.attributeNamed l name = (l.filter fun a => t.attributeName a = some name).head? := by
  rw [List.head?_filter, attributeNamed]
  exact congrArg (l.find? ·) (funext fun _ => beq_eq_decide ..)

/-- Where there is no annotation none is extended. -/
theorem extend_eq_none
    (hlist : (attributes.filter fun b => t.attributeName b = some a.label) = []) :
    a.extend attributes classes t = none := by
  rw [Annotator.extend, attributeNamed_eq_head?, hlist]
  rfl

/-- The annotation that there is gets a longer string. -/
theorem bears_extend {note : Note} (ht : t.Sound) (ho : t.form o = .opening)
    (hlist : (attributes.filter fun b => t.attributeName b = some a.label) = t.labels a.label o)
    (h : t.Bears a.label o (some note)) (classes : Text) :
    ∃ t' note', a.extend attributes classes t = some t' ∧ t'.Bears a.label o (some note') ∧
      note'.text = Annotator.extended note.text classes := by
  obtain ⟨hlabels, hattr, hvalue⟩ := h
  have hbelow : t.parent note.value = some note.attr :=
    ht.linked.parent_of_kind hattr (by simp [Kind.children])
  have hrun : a.extend attributes classes t =
      some ((t.alloc (.str (Annotator.extended note.text classes) note.quote) none).2.replace
        note.value t.size) := by
    rw [Annotator.extend, attributeNamed_eq_head?, hlist, hlabels]
    simp [attributeValue, hattr, hvalue, alloc_fst]
  have hmoves := moves_extend ht hrun
  have hadds : Adds t (t.alloc (.str (Annotator.extended note.text classes) note.quote) none).2
      t.size := .leaf t rfl
  have hself : (t.alloc (.str (Annotator.extended note.text classes) note.quote) none).2.kind
      t.size = .str (Annotator.extended note.text classes) note.quote := by
    rw [kind_alloc, if_pos rfl]
  have hedit := editAt_replace (hadds.moves.sound ht).linked
    ((hadds.parent_eq (lt_size_of_parent hbelow)).trans hbelow) hadds.lt_size
  refine ⟨_, ⟨note.attr, t.size, Annotator.extended note.text classes, note.quote⟩, hrun, ?_, rfl⟩
  generalize (t.alloc (.str (Annotator.extended note.text classes) note.quote) none).2 = u at *
  have hattrlt := ht.linked.parent_lt_size hbelow
  have holt : o < t.size := lt_size_of_form (by rw [ho]; decide)
  have hne : o ≠ note.attr := by
    rintro rfl
    rw [form, hattr] at ho
    exact absurd ho (by simp [Kind.form])
  have hkind : (u.replace note.value t.size).kind o = t.kind o := by
    rw [hedit.kind, if_neg hne, hadds.kind_eq holt]
  refine ⟨(labels_eq ht hmoves ho (attributes_congr hkind) rfl).trans hlabels, ?_, ?_⟩
  · dsimp only
    rw [hedit.kind, if_pos rfl, hadds.kind_eq hattrlt, hattr]
    simp [Kind.replaceChild]
  · dsimp only
    rw [hedit.kind, if_neg (Nat.ne_of_gt hattrlt), hself]

/-- A new annotation is the only one where there was none. -/
theorem Tagged.bears (h : Tagged a classes o t t') (ht : t.Sound) (hmoves : Moves t t')
    (hnone : t.Bears a.label o none) :
    ∃ note, t'.Bears a.label o (some note) ∧ note.text = classes := by
  obtain @⟨name, before, after, selfClosing, up, hkind, hedit⟩ := h
  obtain ⟨hnew, hsize, hfresh, -⟩ := fresh_spec a classes t
  have ho : t.form o = .opening := congrArg Kind.form hkind
  have hlt : o < t.size := lt_size_of_form (by rw [ho]; decide)
  rw [hnew] at hedit
  generalize (a.fresh classes t).2 = u at *
  have hattr : t'.kind (t.size + 1) = .attr a.label (some t.size) := by
    rw [hedit.kind, if_neg (Nat.ne_of_gt (Nat.lt_succ_of_lt hlt)), hfresh, if_pos rfl]
  have hold : ∀ b ∈ before ++ after, t'.attributeName b ≠ some a.label := by
    intro b hb hname
    have hmem : b ∈ t.attributes o := by rwa [Tree.attributes, hkind]
    rw [hmoves.attributeName_eq ht (lt_size_of_mem_attributes ht.linked ho hmem)] at hname
    have hin : b ∈ t.labels a.label o := List.mem_filter.mpr ⟨hmem, by simpa using hname⟩
    rw [show t.labels a.label o = [] from hnone] at hin
    exact absurd hin (by simp)
  refine ⟨⟨t.size + 1, t.size, classes, '"'⟩, ⟨?_, hattr, ?_⟩, rfl⟩
  · have hbefore : (before.filter fun b => t'.attributeName b = some a.label) = [] :=
      List.filter_eq_nil_iff.mpr fun b hb => by simpa using hold b (List.mem_append_left _ hb)
    have hafter : (after.filter fun b => t'.attributeName b = some a.label) = [] :=
      List.filter_eq_nil_iff.mpr fun b hb => by simpa using hold b (List.mem_append_right _ hb)
    rw [labels, Tree.attributes, hedit.kind, if_pos rfl]
    dsimp only
    rw [List.filter_append, hbefore, List.filter_cons_of_pos (by simp [attributeName, hattr]),
      hafter]
    rfl
  · dsimp only
    rw [hedit.kind, if_neg (Nat.ne_of_gt hlt), hfresh, if_neg (Nat.ne_of_lt (Nat.lt_succ_self _)),
      if_pos rfl]

/-- Annotating a tag adds to its annotation, wherever a new one would be put. -/
theorem bears_annotate {insert : NodeId → Tree → Option Tree} {target : NodeId} (ht : t.Sound)
    (hon : a.enabled = true) (ho : t.form o = .opening)
    (hlist : (attributes.filter fun b => t.attributeName b = some a.label) = t.labels a.label o)
    (hb : t.Bears a.label o note)
    (hinsert : ∀ t',
      insert (a.fresh classes.collapse t).1 (a.fresh classes.collapse t).2 = some t' →
      Tagged a classes.collapse o t t')
    (hok : (a.annotate insert target attributes classes t).failure = none)
    (hmoves : Moves t (a.annotate insert target attributes classes t).tree) :
    ∃ note', (a.annotate insert target attributes classes t).tree.Bears a.label o note' ∧
      Lengthened note [classes.collapse] note' := by
  unfold Annotator.annotate at *
  rw [if_pos hon] at *
  cases note with
  | some note =>
    obtain ⟨t', note', hextend, hbears, htext⟩ := bears_extend ht ho hlist hb classes.collapse
    rw [hextend]
    exact ⟨some note', hbears, .single htext⟩
  | none =>
    rw [extend_eq_none (hlist.trans hb)] at *
    dsimp only at *
    cases hinserted : insert (a.fresh classes.collapse t).1 (a.fresh classes.collapse t).2 with
    | some t' =>
      rw [hinserted] at hmoves
      obtain ⟨note', hbears, htext⟩ := (hinsert t' hinserted).bears ht hmoves hb
      exact ⟨some note', hbears, .single htext⟩
    | none =>
      rw [hinserted] at hok
      exact absurd hok (by simp)

/-- A list with the annotations of a tag has no others. -/
theorem parent_of_listed (ht : t.Linked)
    (hlist : (attributes.filter fun b => t.attributeName b = some label) = t.labels label o) :
    ∀ b ∈ attributes, t.attributeName b = some label → t.parent b = some o := by
  intro b hb hname
  have hmem : b ∈ t.labels label o := by
    rw [← hlist]
    exact List.mem_filter.mpr ⟨hb, by simpa using hname⟩
  exact parent_of_mem_labels ht hmem

/-- A tag is annotated at its end. -/
theorem bears_attachTo (ht : t.Sound) (hon : a.enabled = true) (ho : t.form o = .opening)
    (hb : t.Bears a.label o note) (classes : Text) :
    ∃ note', (a.attachTo o (t.attributes o) classes t).tree.Bears a.label o note' ∧
      Lengthened note [classes.collapse] note' := by
  obtain ⟨hok, hann, -⟩ := annotated_attachTo ht a ho
    (fun b hb _ => parent_of_mem_attributes ht.linked hb) classes o
  exact bears_annotate ht hon ho rfl hb (fun _ happend => tagged_append ho happend) hok hann.moves

/-- A tag is annotated behind one of its attributes. -/
theorem bears_attachAfter (ht : t.Sound) (hon : a.enabled = true) {style : NodeId}
    (hparent : t.parent style = some o) (ho : t.form o = .opening)
    (hlist : (attributes.filter fun b => t.attributeName b = some a.label) = t.labels a.label o)
    (hb : t.Bears a.label o note) (classes : Text) :
    ∃ note', (a.attachAfter style attributes classes t).tree.Bears a.label o note' ∧
      Lengthened note [classes.collapse] note' := by
  obtain ⟨hok, hann, -⟩ :=
    annotated_attachAfter ht a hparent ho (parent_of_listed ht.linked hlist) classes
  exact bears_annotate ht hon ho hlist hb
    (fun _ hinsert => tagged_insertAfter ht hparent ho hinsert) hok hann.moves

end Annotating

section Frames

variable {ast : Ast} {attr style above template call : NodeId} {callee classes : Text}

/-- Restyling an attribute of another tag is no concern. -/
theorem Reworked.bears {name : Text} (h : Reworked name t t' p) (ht : t.Sound)
    (hp : t.form p = .opening) (ho : t.form o = .opening) (hne : o ≠ p)
    (hb : t.Bears label o note) : t'.Bears label o note :=
  hb.keep ht h.moves (labels_eq ht h.moves ho (attributes_congr (h.kind_tag ho hne)) rfl)
    fun _ _ hparent _ _ => h.kind_attribute ht hp ho hne hparent

/-- Neither is annotating another tag. -/
theorem Annotated.bears {name : Text} (h : Annotated name t t' p) (ht : t.Sound)
    (hp : t.form p = .opening) (ho : t.form o = .opening) (hne : o ≠ p)
    (hb : t.Bears label o note) : t'.Bears label o note := by
  have hkind : t'.kind o = t.kind o := by
    rcases h.kind o (lt_size_of_form (by rw [ho]; decide)) hne with hsame | ⟨-, _, _, _, hattr, -⟩
    · exact hsame
    · exact absurd (ho.symm.trans (congrArg Kind.form hattr)) (by simp [Kind.form])
  refine hb.keep ht h.moves (labels_eq ht h.moves ho (attributes_congr hkind) rfl) ?_
  intro n value hparent hattr _
  have hnp : n ≠ p := by
    rintro rfl
    exact absurd (hp.symm.trans (congrArg Kind.form hattr)) (by simp [Kind.form])
  rcases h.kind n (lt_size_of_parent hparent) hnp with hsame | ⟨hother, -⟩
  · exact hsame
  · exact absurd (Option.some.inj (hparent.symm.trans hother)) hne

/-- A style attribute in the place of a shorthand attribute is none. -/
theorem Swapped.bears (h : Swapped ast t t' o attr style) (ht : t.Sound) (ho : t.form o = .opening)
    (hname : t.attributeName attr = some Vocabulary.shorthand)
    (hlabel : label ≠ Vocabulary.shorthand ∧ label ≠ Vocabulary.style) (hb : t.Bears label o note) :
    ((t.attributes o).filter fun b => t'.attributeName b = some label) = t'.labels label o ∧
      t'.Bears label o note := by
  have hmoves := (h.reworked label).moves
  have hattr : t'.attributeName attr = some Vocabulary.shorthand := by
    obtain ⟨value, hkind⟩ := attributeName_eq_some hname
    rw [hmoves.attributeName_eq ht (lt_size_of_form (by rw [form, hkind]; simp [Kind.form])), hname]
  have hstyle : t'.attributeName style = some Vocabulary.style := by
    obtain ⟨container, styles, hkind, -⟩ := h.holds
    rw [attributeName, hkind]
  have hlist :
      ((t.attributes o).replace attr style).filter (fun b => t'.attributeName b = some label) =
      (t.attributes o).filter fun b => t'.attributeName b = some label :=
    filter_replace_of_not (by simp [hattr, hlabel.1.symm]) (by simp [hstyle, hlabel.2.symm]) _
  refine ⟨?_, hb.keep ht hmoves (labels_eq ht hmoves ho h.attributes hlist) ?_⟩
  · rw [labels, h.attributes, hlist]
  · intro n value hparent hkind _
    refine h.kind n (lt_size_of_parent hparent) ?_
    rintro rfl
    exact absurd (ho.symm.trans (congrArg Kind.form hkind)) (by simp [Kind.form])

/-- Neither is a shorthand attribute that is taken out. -/
theorem Joined.bears (h : Joined ast t t' o attr style) (ht : t.Sound) (ho : t.form o = .opening)
    (hname : t.attributeName attr = some Vocabulary.shorthand)
    (hlabel : label ≠ Vocabulary.shorthand) (hb : t.Bears label o note) :
    t'.Bears label o note := by
  have hmoves := (h.reworked label).moves
  have hattr : t'.attributeName attr ≠ some label := by
    obtain ⟨value, hkind⟩ := attributeName_eq_some hname
    rw [hmoves.attributeName_eq ht (lt_size_of_form (by rw [form, hkind]; simp [Kind.form])), hname]
    simpa using hlabel.symm
  have ho' : t'.form o = .opening :=
    hmoves.form_of_form ht ho (by decide)
  have hattributes : t'.attributes o = (t.attributes o).filter (· ≠ attr) := by
    rw [attributes_eq_children ho', h.children, attributes_eq_children ho]
  refine hb.keep ht hmoves (labels_eq ht hmoves ho hattributes ?_) ?_
  · rw [List.filter_filter]
    refine List.filter_congr fun b _ => ?_
    by_cases hba : b = attr
    · simp [hba, hattr]
    · simp [hba]
  · intro n value hparent hkind _
    have hne : n ≠ o := by
      rintro rfl
      exact absurd (ho.symm.trans (congrArg Kind.form hkind)) (by simp [Kind.form])
    rcases h.kind n (lt_size_of_parent hparent) hne with hsame | hgrown
    · exact hsame
    · cases hgrown with
      | longer harray => exact absurd (hkind.symm.trans harray) (by simp)
      | wrapped hcontainer => exact absurd (hkind.symm.trans hcontainer) (by simp)

/-- A call in the place of a template is none either. -/
theorem Recalled.bears (h : Recalled callee classes t t' template above call) (ht : t.Sound)
    (ho : t.form o = .opening) (htemplate : t.form template = .template)
    (hb : t.Bears label o note) : t'.Bears label o note := by
  have hmoves := h.settled.kept.moves
  have hnone {n : NodeId} (hn : t'.form n ≠ .attr) : t'.attributeName n ≠ some label := by
    intro hname
    obtain ⟨value, hkind⟩ := attributeName_eq_some hname
    exact hn (congrArg Kind.form hkind)
  have hold := hnone (n := template) (by
    rw [hmoves.form_eq ht (lt_size_of_form (by rw [htemplate]; decide)), htemplate]
    decide)
  have hnew := hnone (n := call) (by
    rw [h.isCall.form_eq]
    decide)
  have holt : o < t.size := lt_size_of_form (by rw [ho]; decide)
  refine hb.keep ht hmoves ?_ fun n value hparent hkind hstr => ?_
  · by_cases hoa : o = above
    · -- The tag could hold the template itself, which is no annotation.
      have hattributes : t'.attributes o = (t.attributes o).replace template call := by
        have hkind := h.kind o holt
        rw [if_pos hoa, ← hoa] at hkind
        unfold form at ho
        cases hk : t.kind o with
        | opening name attributes selfClosing =>
          rw [hk] at hkind
          rw [Tree.attributes, hkind, Tree.attributes, hk]
          rfl
        | _ => exact absurd ho (by simp [hk, Kind.form])
      exact labels_eq ht hmoves ho hattributes
        (filter_replace_of_not (by simpa using hold) (by simpa using hnew) _)
    · exact labels_eq ht hmoves ho (attributes_congr ((h.kind o holt).trans (if_neg hoa))) rfl
  · rw [h.kind n (lt_size_of_parent hparent)]
    split
    case isTrue hna =>
      have hne : value ≠ template := by
        rintro rfl
        exact absurd (hstr.symm.trans htemplate) (by decide)
      rw [← hna, hkind]
      simp [Kind.replaceChild, hne]
    case isFalse => rfl

/-- Taking out an import changes programs at most, or fragments that statements were put in. -/
theorem kind_stripImport (ht : t.Sound) (found : StyleImport) (hprogram : t.form n ≠ .program)
    (hfragment : t.form n ≠ .fragment) : (t.stripImport found).kind n = t.kind n := by
  have hn : n < t.size := lt_size_of_form hfragment
  have hne {decl : ImportDecl} (hkind : t.kind found.node = .importing decl) {above : NodeId}
      (hp : t.parent found.node = some above) : n ≠ above := by
    rintro rfl
    exact (ht.above_importing (congrArg Kind.form hkind) hp).elim hprogram hfragment
  rcases t.stripImport_cases found with hkept | ⟨decl, hkind, hnew | hgone⟩
  · rw [hkept]
  · rw [hnew]
    have hform : t.form found.node = .importing := congrArg Kind.form hkind
    have hadds : Adds t (t.alloc (.importing (decl.without found.name)) none).2 t.size :=
      .leaf t rfl
    have hu := (hadds.moves.sound ht).linked
    have hparent := hadds.parent_eq (lt_size_of_form (by rw [hform]; decide))
    cases hp : t.parent found.node with
    | none =>
      rw [replaceAt_eq hu hadds.lt_size hadds.dirty,
        replace_of_free ((parent_place ..).trans (hparent.trans hp)), kind_place, hadds.kind_eq hn]
    | some above =>
      rw [(editAt_replaceAt hu (hparent.trans hp) hadds.lt_size hadds.dirty).kind,
        if_neg (hne hkind hp), kind_place, hadds.kind_eq hn]
  · rw [hgone]
    cases hp : t.parent found.node with
    | none => rw [remove, hp]
    | some above => rw [(editAt_remove ht.linked hp).kind, if_neg (hne hkind hp)]

/-- Import statements have nothing to do with annotations. -/
theorem bears_stripImport (ht : t.Sound) (found : StyleImport) (ho : t.form o = .opening)
    (hb : t.Bears label o note) : (t.stripImport found).Bears label o note := by
  have hmoves := moves_stripImport ht found
  refine hb.keep ht hmoves (labels_eq ht hmoves ho (attributes_congr ?_) rfl)
    fun n value _ hkind _ => ?_
  · exact kind_stripImport ht found (by rw [ho]; decide) (by rw [ho]; decide)
  · exact kind_stripImport ht found (by rw [form, hkind]; simp [Kind.form])
      (by rw [form, hkind]; simp [Kind.form])

end Frames

end Tree

namespace Stylist

open JsxStyle.Tree

variable {t : Tree} {s : Stylist} {callee : Text} {o attr : NodeId} {note : Option Note}
  {classes : Text}

/-- What restyling a shorthand attribute comes down to, before its tag is annotated. -/
theorem restyleAttribute_parts (ht : t.Sound) (hs : s.generate = Generator.runtimeCall callee)
    (hrestylable : t.IsRestylable attr) (hparent : t.parent attr = some o)
    (hclasses : t.classes attr = some classes) :
    t.form o = .opening ∧ ∃ ast, Generator.runtimeCall callee classes = .ok ast ∧
      ((∃ v style, Swapped ast t v o attr style ∧ s.restyleAttribute attr t =
          s.annotator.attachAfter style (t.attributes o) classes v) ∨
        ∃ w style, Joined ast t w o attr style ∧ s.restyleAttribute attr t =
          s.annotator.attachTo o (w.attributes o) classes w) := by
  have hplain : s.generate.Plain := fun _ _ hast => Or.inl ⟨callee, hs ▸ hast⟩
  obtain ⟨ast, hast⟩ : ∃ ast, s.generate classes = .ok ast := ⟨_, by rw [hs]; rfl⟩
  have hsteady := Generator.steady_runtimeCall (hs ▸ hast)
  obtain ⟨hname, hok⟩ := classes_eq_some hclasses
  obtain ⟨ho, hstep⟩ := restyleAttribute_of_some (s := s) ht hclasses hparent
  refine ⟨ho, ast, hs ▸ hast, ?_⟩
  rw [hstep]
  cases hstyle : t.attributeNamed (t.attributes o) Vocabulary.style with
  | none =>
    obtain ⟨v, style, hswap, hrun⟩ := swapped ht hplain hname hparent ho hok hast hsteady
      (t.attributes o)
    exact .inl ⟨v, style, hswap, hrun⟩
  | some style =>
    obtain ⟨expression, hexpression⟩ : ∃ expression, t.styleExpression style = some expression := by
      have hfault := hrestylable.2
      rw [shorthandFault_of_ok hname hok hparent, Option.map_eq_none_iff, blankStyle, hstyle,
        Option.filter_some] at hfault
      cases hexpression : t.styleExpression style with
      | none => simp [hexpression] at hfault
      | some expression => exact ⟨expression, rfl⟩
    obtain ⟨w, hjoin, hrun⟩ := joined ht hplain hname hparent ho hok hast hsteady hstyle hexpression
    exact .inr ⟨w, style, hjoin, hrun⟩

/-- A shorthand attribute that is restyled adds its classes to the annotation of its tag. -/
theorem bears_restyleAttribute (ht : t.Sound) (hs : s.generate = Generator.runtimeCall callee)
    (hon : s.annotator.enabled = true)
    (hlabel : s.annotator.label ≠ Vocabulary.shorthand ∧ s.annotator.label ≠ Vocabulary.style)
    (hrestylable : t.IsRestylable attr) (hparent : t.parent attr = some o)
    (hclasses : t.classes attr = some classes) (hb : t.Bears s.annotator.label o note) :
    ∃ note', (s.restyleAttribute attr t).tree.Bears s.annotator.label o note' ∧
      Lengthened note [classes.collapse] note' := by
  have hname := (classes_eq_some hclasses).1
  obtain ⟨ho, ast, -, ⟨v, style, hswap, hrun⟩ | ⟨w, style, hjoin, hrun⟩⟩ :=
    restyleAttribute_parts ht hs hrestylable hparent hclasses
  · have hmoves := (hswap.reworked s.annotator.label).moves
    obtain ⟨hlist, hbv⟩ := hswap.bears ht ho hname hlabel hb
    rw [hrun]
    exact bears_attachAfter (hmoves.sound ht) hon hswap.below
      (hmoves.form_of_form ht ho (by decide)) hlist hbv classes
  · have hmoves := (hjoin.reworked s.annotator.label).moves
    rw [hrun]
    exact bears_attachTo (hmoves.sound ht) hon
      (hmoves.form_of_form ht ho (by decide))
      (hjoin.bears ht ho hname hlabel.1 hb) classes

end Stylist

end JsxStyle
