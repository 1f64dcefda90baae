import JsxStyle.Proofs.Annotated

/-!
# What one restyled attribute changes

Restyling a shorthand attribute changes the tag it stands in, the annotation of
that tag, and the style attribute with its braces and its array.  Every other
node keeps its kind.  This file says so for all nodes at once, and says exactly
what becomes of the tag and of its style.

The annotation is set apart throughout: it may come and go behind any attribute,
so the attributes of a tag are looked at without it.

* `converted`: a style attribute in the place of a shorthand attribute;
* `merged`: a style behind others, in an array.
-/

namespace JsxStyle

/-- The forms of the nodes that restyling attributes never changes and that calls
left to run time consist of. -/
def Form.Steady : Form → Prop
  | .call | .ident | .str => True
  | _ => False

theorem Form.Steady.ne {f g : Form} (hf : f.Steady) (hg : ¬ g.Steady) : f ≠ g :=
  fun e => hg (e ▸ hf)

/-- A call left to run time is made of steady forms. -/
theorem Generator.steady_runtimeCall {callee classes : Text} {ast : Ast}
    (h : Generator.runtimeCall callee classes = .ok ast) :
    ast.Every fun b => b.kind.form.Steady := by
  obtain rfl := Except.ok.inj h
  refine Ast.every_node.mpr ⟨trivial, fun c hc => ?_⟩
  simp only [Kind.children, List.mem_cons, List.not_mem_nil, or_false] at hc
  rcases hc with rfl | rfl
  · exact Ast.every_node.mpr ⟨trivial, by simp [Kind.children]⟩
  · exact Ast.every_node.mpr ⟨trivial, by simp [Kind.children]⟩

namespace Tree

/-- A tree of steady forms supplies no templates and no attributes. -/
theorem supplies_graft {t : Tree} (ht : t.Linked) {a : Ast}
    (ha : a.Every fun b => b.kind.form.Steady) : Supplies t ((graft a).run t).2 := by
  have hg := graft_spec a t ht
  intro n hn
  rcases Nat.lt_or_ge n ((graft a).run t).2.size with hlt | hge
  · obtain ⟨b, hb, c, hc, hdepicts, -⟩ := hg.added n hn hlt
    obtain rfl : b = a := by simpa using hb
    have hsteady : c.kind.form.Steady := ha c hc
    rw [← hdepicts.form_eq] at hsteady
    refine ⟨hsteady.ne id, fun hname => ?_⟩
    obtain ⟨value, hkind⟩ := attributeName_eq_some hname
    exact hsteady.ne id (congrArg Kind.form hkind)
  · exact Supplies.of_size_le (Nat.le_refl _) n hge

/-- The attributes of a tag besides its annotations. -/
def besides (t : Tree) (label : Text) (opening : NodeId) : List NodeId :=
  (t.attributes opening).filter fun a => t.attributeName a ≠ some label

/-- The nodes that restyling an attribute of the tag `opening` may change: the tag,
its annotations, and in its style attributes the braces and an array in them. -/
inductive StylePart (label : Text) (t : Tree) (opening : NodeId) : NodeId → Prop
  | tag : StylePart label t opening opening
  | labelled {n value : NodeId} (hparent : t.parent n = some opening)
      (hkind : t.kind n = .attr label (some value)) : StylePart label t opening n
  | braces {style n : NodeId} (hparent : t.parent style = some opening)
      (hkind : t.kind style = .attr Vocabulary.style (some n)) (hform : t.form n = .container) :
      StylePart label t opening n
  | array {style container n : NodeId} (hparent : t.parent style = some opening)
      (hkind : t.kind style = .attr Vocabulary.style (some container))
      (hcontainer : t.kind container = .container (some n)) (hform : t.form n = .array) :
      StylePart label t opening n

/-- An attribute that is no annotation is not touched. -/
theorem StylePart.label_of_attr {label name : Text} {t : Tree} {opening n : NodeId}
    {value : Option NodeId} (h : t.StylePart label opening n) (hopening : t.form opening = .opening)
    (hkind : t.kind n = .attr name value) : name = label := by
  have hform : t.form n = .attr := congrArg Kind.form hkind
  cases h with
  | tag => exact absurd (hopening.symm.trans hform) (by decide)
  | labelled hparent hlabel =>
    rw [hkind, Kind.attr.injEq] at hlabel
    exact hlabel.1
  | braces hparent hstyle hbraces => exact absurd (hbraces.symm.trans hform) (by decide)
  | array hparent hstyle hcontainer harray => exact absurd (harray.symm.trans hform) (by decide)

/-- What restyling an attribute of the tag `opening` leaves as it was. -/
structure Reworked (label : Text) (t t' : Tree) (opening : NodeId) : Prop where
  moves : Moves t t'
  span : ∀ n < t.size, t'.span n = t.span n
  kind : ∀ n < t.size, t'.kind n = t.kind n ∨ t.StylePart label opening n
  below : ∀ n < t.size, t'.parent n = some opening → t.parent n = some opening
  attached : ∀ tag, t.form tag = .opening → t.isAttached tag = true → t'.isAttached tag = true

/-- A tag stays attached if every link above it is still there, perhaps with
further nodes in between. -/
theorem isAttached_of_links {t t' : Tree} (ht : t.Linked) (ht' : t'.Linked) {n : NodeId}
    (hn : t.isAttached n = true)
    (hlinks : ∀ m p, t.Within n m → t.parent m = some p → t'.Within m p) :
    t'.isAttached n = true := by
  rw [ht.isAttached_iff] at hn
  rw [ht'.isAttached_iff]
  have hall : ∀ a, t.Within n a → t'.Within n a := by
    intro a ha
    induction ha with
    | refl => exact .refl
    | tail hm hup ih => exact ih.trans (hlinks _ _ hm hup)
  exact hall root hn

/-- Within a node without children there is only the node. -/
theorem Within.eq_of_leaf {t : Tree} (ht : t.Linked) {n a : NodeId} (h : t.Within n a)
    (ha : t.children a = []) : n = a := by
  rcases Relation.ReflTransGen.cases_tail h with rfl | ⟨c, -, hc⟩
  · rfl
  · rw [Up, ← ht.mem_children, ha] at hc
    exact absurd hc (by simp)

/-- Below a node with one child stands what stands at or below that child. -/
theorem Within.eq_or_of_only {t : Tree} (ht : t.Linked) {n a only : NodeId} (h : t.Within n a)
    (ha : t.children a = [only]) : n = a ∨ t.Within n only := by
  rcases Relation.ReflTransGen.cases_tail h with rfl | ⟨c, hnc, hc⟩
  · exact Or.inl rfl
  · rw [Up, ← ht.mem_children, ha, List.mem_singleton] at hc
    exact Or.inr (hc ▸ hnc)

/-- In a shorthand attribute that has classes there are strings and braces. -/
theorem form_within_shorthand {t : Tree} (ht : t.Linked) {attr n : NodeId} {classes : Text}
    (hattr : t.form attr = .attr) (hclasses : t.shorthandClasses attr = .ok classes)
    (hn : t.Within n attr) : n = attr ∨ t.form n = .str ∨ t.form n = .container := by
  have hstring {m : NodeId} {s : Text} {quote : Char} (hstr : t.kind m = .str s quote)
      (hm : t.Within n m) : t.form n = .str := by
    obtain rfl := hm.eq_of_leaf ht (by rw [children, hstr]; rfl)
    exact congrArg Kind.form hstr
  obtain ⟨hnone, -⟩ | ⟨value, hvalue, hstr⟩ := shorthandClasses_eq_ok.mp hclasses
  · refine .inl (hn.eq_of_leaf ht ?_)
    unfold attributeValue at hnone
    unfold form at hattr
    unfold children
    cases hk : t.kind attr <;> simp_all [Kind.form, Kind.children]
  · obtain ⟨name, hkind⟩ := attributeValue_eq_some hvalue
    refine (hn.eq_or_of_only ht (by rw [children, hkind]; rfl)).imp_right fun hwithin => ?_
    obtain ⟨quote, hstr⟩ | ⟨expression, quote, hcontainer, hstr⟩ := hstr
    · exact .inl (hstring hstr hwithin)
    · rcases hwithin.eq_or_of_only ht (by rw [children, hcontainer]; rfl) with rfl | hexpression
      · exact .inr (congrArg Kind.form hcontainer)
      · exact .inl (hstring hstr hexpression)

/-- No tag stands in a shorthand attribute that can be restyled. -/
theorem not_within_shorthand {t : Tree} (ht : t.Linked) {attr tag : NodeId} {classes : Text}
    (hattr : t.form attr = .attr) (hclasses : t.shorthandClasses attr = .ok classes)
    (htag : t.form tag = .opening) : ¬ t.Within tag attr := by
  intro hw
  rcases form_within_shorthand ht hattr hclasses hw with rfl | hform | hform
  · exact absurd (htag.symm.trans hattr) (by decide)
  · exact absurd (htag.symm.trans hform) (by decide)
  · exact absurd (htag.symm.trans hform) (by decide)

/-- The attributes of a tag are in the store. -/
theorem lt_size_of_mem_attributes {t : Tree} (ht : t.Linked) {opening a : NodeId}
    (hopening : t.form opening = .opening) (ha : a ∈ t.attributes opening) : a < t.size := by
  rw [attributes_eq_children hopening] at ha
  exact ht.lt_size_of_mem ha

/-- Annotating a tag keeps what it lists besides annotations. -/
theorem Annotated.besides_eq {label : Text} {t t' : Tree} {opening : NodeId}
    (h : Annotated label t t' opening) (ht : t.Sound) (hopening : t.form opening = .opening) :
    t'.besides label opening = t.besides label opening := by
  obtain ⟨before, after, new, hsplit, hsplit', hnew⟩ := h.self
  have hold : ∀ a ∈ before ++ after, t'.attributeName a = t.attributeName a := by
    intro a ha
    exact h.moves.attributeName_eq ht (lt_size_of_mem_attributes ht.linked hopening (hsplit ▸ ha))
  have hnone : new.filter (fun a => t'.attributeName a ≠ some label) = [] := by
    rw [List.filter_eq_nil_iff]
    intro a ha
    simp [(hnew a ha).2]
  unfold besides
  rw [hsplit, hsplit', List.filter_append, List.filter_append, hnone, List.append_nil,
    ← List.filter_append]
  refine List.filter_congr fun a ha => ?_
  rw [hold a ha]

/-- An item that passes a filter is replaced in what passes by one that passes too. -/
theorem filter_replace {α : Type} [DecidableEq α] {p : α → Bool} {old new : α} (hold : p old = true)
    (hnew : p new = true) (l : List α) :
    (l.replace old new).filter p = (l.filter p).replace old new := by
  induction l with
  | nil => rfl
  | cons a rest ih =>
    rw [Kind.replace_cons_eq_ite]
    by_cases ha : a = old
    · subst ha
      rw [if_pos rfl, List.filter_cons_of_pos hnew, List.filter_cons_of_pos hold,
        Kind.replace_cons_eq_ite, if_pos rfl]
    · rw [if_neg ha]
      by_cases hp : p a = true
      · rw [List.filter_cons_of_pos hp, List.filter_cons_of_pos hp, ih, Kind.replace_cons_eq_ite,
          if_neg ha]
      · rw [List.filter_cons_of_neg hp, List.filter_cons_of_neg hp, ih]

/-- What a tree shows stays, if nodes of the forms that it consists of stay. -/
theorem Depicts.keep {t t' : Tree} {id : NodeId} {a : Ast} (h : t.Depicts id a)
    (ha : a.Every fun b => b.kind.form.Steady) (hsize : t.size ≤ t'.size)
    (hsame : ∀ n < t.size, (t.form n).Steady → t'.kind n = t.kind n ∧ t'.span n = t.span n) :
    t'.Depicts id a := by
  induction h with
  | @node id z hlt hkind hbelow ih =>
    obtain ⟨hself, hchildren⟩ := Ast.every_node.mp ha
    have hsteady : (t.form id).Steady := by
      rw [form, hkind, Kind.form_map]
      rw [Ast.kind, Kind.form_map] at hself
      exact hself
    obtain ⟨hkind', hspan'⟩ := hsame id hlt hsteady
    rw [← hspan']
    refine .node z (Nat.lt_of_lt_of_le hlt hsize) (hkind'.trans hkind) fun p hp => ih p hp ?_
    refine hchildren p.1 ?_
    rw [Kind.children_map]
    exact List.mem_map_of_mem hp

/-- A style attribute that holds `ast` has come in the place of the attribute `attr`. -/
structure Converted (label : Text) (ast : Ast) (t t' : Tree) (opening attr style : NodeId) :
    Prop where
  fresh : t.size ≤ style
  besides : t'.besides label opening = (t.besides label opening).replace attr style
  holds : ∃ container styles, t'.kind style = .attr Vocabulary.style (some container) ∧
    t'.kind container = .container (some styles) ∧ t'.Depicts styles ast

/-- An annotation changes tags and attributes only. -/
theorem Annotated.kind_of_form {label : Text} {t t' : Tree} {opening n : NodeId}
    (h : Annotated label t t' opening) (hopening : t.form opening = .opening) (hn : n < t.size)
    (htag : t.form n ≠ .opening) (hattr : t.form n ≠ .attr) : t'.kind n = t.kind n := by
  have hne : n ≠ opening := by
    intro heq
    subst heq
    exact htag hopening
  rcases h.kind n hn hne with hkind | ⟨-, value, text, quote, hkind, -⟩
  · exact hkind
  · exact absurd (congrArg Kind.form hkind) hattr

/-- Annotating a tag keeps every node that is no tag, attribute or fragment. -/
theorem Annotated.kind_eq_of {label : Text} {t t' : Tree} {opening n : NodeId} {k : Kind NodeId}
    (h : Annotated label t t' opening) (hopening : t.form opening = .opening) (hk : t.kind n = k)
    (htag : k.form ≠ .opening) (hattr : k.form ≠ .attr) (hfragment : k.form ≠ .fragment) :
    t'.kind n = k := by
  have hform : t.form n = k.form := congrArg Kind.form hk
  rw [h.kind_of_form hopening (lt_size_of_form (by rwa [hform])) (by rwa [hform]) (by rwa [hform]),
    hk]

/-- Trees of steady forms stay what they are when a tag is annotated. -/
theorem Annotated.depicts {label : Text} {t t' : Tree} {opening n : NodeId} {a : Ast}
    (h : Annotated label t t' opening) (ht : t.Sound) (hopening : t.form opening = .opening)
    (ha : a.Every fun b => b.kind.form.Steady) (hn : t.Depicts n a) : t'.Depicts n a := by
  refine hn.keep ha (h.moves.size_le ht) fun m hm hst => ⟨?_, h.span m hm⟩
  exact h.kind_of_form hopening hm (hst.ne id) (hst.ne id)

/-- A tag stays attached when another one is annotated. -/
theorem Annotated.isAttached {label : Text} {t t' : Tree} {opening : NodeId}
    (h : Annotated label t t' opening) (ht : t.Sound) (hopening : t.form opening = .opening)
    {tag : NodeId} (htag : t.form tag = .opening) (hattached : t.isAttached tag = true) :
    t'.isAttached tag = true := by
  have ht' := h.moves.sound ht
  refine isAttached_of_links ht.linked ht'.linked hattached fun m p hm hp => .single ?_
  have hmem : m ∈ t.children p := ht.linked.mem_children.mpr hp
  have hplt := ht.linked.parent_lt_size hp
  rw [Up, ← ht'.linked.mem_children]
  by_cases hpo : p = opening
  · subst hpo
    obtain ⟨before, after, new, hsplit, hsplit', -⟩ := h.self
    rw [← attributes_eq_children hopening, hsplit] at hmem
    rw [← attributes_eq_children ((h.moves.form_eq ht hplt).trans hopening), hsplit']
    rcases List.mem_append.mp hmem with hmem | hmem
    · exact List.mem_append_left _ (List.mem_append_left _ hmem)
    · exact List.mem_append_right _ hmem
  · rcases h.kind p hplt hpo with hkind | ⟨-, value, text, quote, hkind, hstr⟩
    · rw [children, hkind]
      exact hmem
    · -- The string that is given up has no tag in it.
      obtain rfl : m = value := by
        rw [children, hkind] at hmem
        simpa [Kind.children] using hmem
      obtain rfl := hm.eq_of_leaf ht.linked (by rw [children, hstr]; rfl)
      rw [form, hstr] at htag
      exact absurd htag (by simp [Kind.form])

/-- A tag that is reworked and then annotated is reworked. -/
theorem Reworked.annotated {label : Text} {t u t' : Tree} {opening : NodeId} (ht : t.Sound)
    (hopening : t.form opening = .opening) (h : Reworked label t u opening)
    (ha : Annotated label u t' opening) : Reworked label t t' opening := by
  have hu := h.moves.sound ht
  have hle := h.moves.size_le ht
  have hlt : opening < t.size := lt_size_of_form (by rw [hopening]; decide)
  have hopeningu : u.form opening = .opening := (h.moves.form_eq ht hlt).trans hopening
  have hbelow (n : NodeId) (hn : n < t.size) (hp : t'.parent n = some opening) :
      t.parent n = some opening := by
    refine h.below n hn ?_
    have ht' := ha.moves.sound hu
    obtain ⟨before, after, new, hsplit, hsplit', hnew⟩ := ha.self
    have hopening' : t'.form opening = .opening :=
      (ha.moves.form_eq hu (Nat.lt_of_lt_of_le hlt hle)).trans hopeningu
    rw [← ht'.linked.mem_children, ← attributes_eq_children hopening', hsplit'] at hp
    rw [← hu.linked.mem_children, ← attributes_eq_children hopeningu, hsplit]
    rcases List.mem_append.mp hp with hp | hp
    · rcases List.mem_append.mp hp with hp | hp
      · exact List.mem_append_left _ hp
      · exact absurd (Nat.lt_of_lt_of_le hn hle) (Nat.not_lt.mpr (hnew n hp).1)
    · exact List.mem_append_right _ hp
  refine ⟨h.moves.trans ha.moves, fun n hn => ?_, fun n hn => ?_, hbelow, fun tag htag hat => ?_⟩
  · rw [ha.span n (Nat.lt_of_lt_of_le hn hle), h.span n hn]
  · rcases h.kind n hn with hkind | hpart
    · by_cases hne : n = opening
      · subst hne
        exact Or.inr .tag
      · rcases ha.kind n (Nat.lt_of_lt_of_le hn hle) hne with
          hkind' | ⟨hp, value, text, quote, hlabel, -⟩
        · exact Or.inl (hkind'.trans hkind)
        · exact Or.inr (.labelled (h.below n hn hp) (hkind.symm.trans hlabel))
    · exact Or.inr hpart
  · have htaglt : tag < t.size := lt_size_of_form (by rw [htag]; decide)
    exact ha.isAttached hu hopeningu ((h.moves.form_eq ht htaglt).trans htag)
      (h.attached tag htag hat)

/-- A style attribute with an expression in its braces is not changed by an annotation,
even by one of the same name. -/
theorem Annotated.kind_style {label name : Text} {t t' : Tree} {opening style container : NodeId}
    {expression : Option NodeId} (h : Annotated label t t' opening) (hne : style ≠ opening)
    (hstyle : t.kind style = .attr name (some container))
    (hcontainer : t.kind container = .container expression) : t'.kind style = t.kind style := by
  rcases h.kind style (lt_size_of_form (by rw [form, hstyle]; simp [Kind.form])) hne with
    hkind | ⟨-, value, text, quote, hlabel, hstr⟩
  · exact hkind
  · rw [hstyle, Kind.attr.injEq, Option.some.injEq] at hlabel
    rw [← hlabel.2, hcontainer] at hstr
    exact absurd hstr (by simp)

/-- A fresh attribute in the place of a shorthand attribute. -/
theorem reworked_replaceAt (label : Text) {t w : Tree} (ht : t.Sound) {attr style opening : NodeId}
    {classes : Text} (hattr : t.form attr = .attr) (hparent : t.parent attr = some opening)
    (hopening : t.form opening = .opening) (hclasses : t.shorthandClasses attr = .ok classes)
    (hadds : Adds t w style) (hmoves : Moves w (w.replaceAt attr style))
    (hedit : EditAt (w.update style ({ · with span := w.span attr }))
      (w.replaceAt attr style) opening
      ((w.kind opening).replaceChild attr style)
      fun n => if n = style then some opening else if n = attr then none else w.parent n) :
    Reworked label t (w.replaceAt attr style) opening ∧
      (w.replaceAt attr style).attributes opening = (t.attributes opening).replace attr style := by
  have hlt : opening < t.size := ht.linked.parent_lt_size hparent
  have hall : Moves t (w.replaceAt attr style) := hadds.moves.trans hmoves
  have hsound := hall.sound ht
  have hattributes : (w.replaceAt attr style).attributes opening =
      (t.attributes opening).replace attr style := by
    rw [attributes_eq_children ((hall.form_eq ht hlt).trans hopening), hedit.children_self,
      Kind.children_replaceChild, hadds.kind_eq hlt, attributes_eq_children hopening]
    rfl
  refine ⟨⟨hall, fun n hn => ?_, fun n hn => ?_, fun n hn hp => ?_, fun tag htag hat => ?_⟩,
    hattributes⟩
  · have hne : n ≠ style := Nat.ne_of_lt (Nat.lt_of_lt_of_le hn hadds.behind)
    rw [hedit.span, span, node_update, if_neg fun h => hne h.1, hadds.old n hn]
    rfl
  · by_cases hne : n = opening
    · subst hne
      exact Or.inr .tag
    · rw [hedit.kind, if_neg hne, kind_place, hadds.kind_eq hn]
      exact Or.inl rfl
  · have hne : n ≠ style := Nat.ne_of_lt (Nat.lt_of_lt_of_le hn hadds.behind)
    rw [hedit.parent, if_neg hne] at hp
    split at hp
    · exact absurd hp (by simp)
    · rwa [hadds.parent_eq hn] at hp
  · refine isAttached_of_links ht.linked hsound.linked hat fun m p hm hp => .single ?_
    have hmem : m ∈ t.children p := ht.linked.mem_children.mpr hp
    have hmattr : m ≠ attr := by
      intro heq
      subst heq
      exact not_within_shorthand ht.linked hattr hclasses htag hm
    rw [Up, ← hsound.linked.mem_children]
    by_cases hpo : p = opening
    · subst hpo
      rw [← attributes_eq_children ((hall.form_eq ht hlt).trans hopening), hattributes,
        mem_replace_iff]
      · rw [← attributes_eq_children hopening] at hmem
        exact Or.inr ⟨hmem, hmattr⟩
      · rw [attributes_eq_children hopening]
        exact ht.linked.nodup p
      · rw [attributes_eq_children hopening]
        exact ht.linked.mem_children.mpr hparent
    · rw [children, hedit.kind, if_neg hpo, kind_place, hadds.kind_eq (ht.linked.parent_lt_size hp)]
      exact hmem

/-- A style attribute that holds `ast` has come in the place of the attribute `attr`,
and that is all. -/
structure Swapped (ast : Ast) (t v : Tree) (opening attr style : NodeId) : Prop where
  reworked : ∀ label, Reworked label t v opening
  supplies : Supplies t v
  kind : ∀ n < t.size, n ≠ opening → v.kind n = t.kind n
  parent : ∀ n < t.size, v.parent n = if n = attr then none else t.parent n
  attributes : v.attributes opening = (t.attributes opening).replace attr style
  fresh : t.size ≤ style
  below : v.parent style = some opening
  holds : ∃ container styles, v.kind style = .attr Vocabulary.style (some container) ∧
    v.kind container = .container (some styles) ∧ v.Depicts styles ast

/-- The annotations of the tag are still there. -/
theorem Swapped.parent_of_label {ast : Ast} {t v : Tree} {opening attr style : NodeId}
    (h : Swapped ast t v opening attr style) (ht : t.Sound) (hopening : t.form opening = .opening)
    {label : Text} (hname : t.attributeName attr = some Vocabulary.shorthand)
    (hlabel : label ≠ Vocabulary.shorthand) :
    ∀ b ∈ t.attributes opening, v.attributeName b = some label → v.parent b = some opening := by
  intro b hb hlab
  have hblt := lt_size_of_mem_attributes ht.linked hopening hb
  have hbattr : b ≠ attr := by
    rintro rfl
    rw [(h.reworked label).moves.attributeName_eq ht hblt, hname] at hlab
    exact hlabel (Option.some.inj hlab).symm
  rw [attributes_eq_children hopening, ht.linked.mem_children] at hb
  rw [h.parent b hblt, if_neg hbattr, hb]

/-- What comes of a style expression when a style is put behind it. -/
structure Appended (t t' : Tree) (container expression styles : NodeId) : Prop where
  span : ∀ n < t.size, t'.span n = t.span n
  kind : ∀ n < t.size, n ≠ container → n ≠ expression → t'.kind n = t.kind n
  cases : (∃ xs, t.kind expression = .array xs ∧ t'.kind expression = .array (xs ++ [styles]) ∧
      t'.kind container = t.kind container) ∨
    t.form expression ≠ .array ∧ t'.kind expression = t.kind expression ∧
      ∃ array, t'.kind container = (t.kind container).replaceChild expression array ∧
        t'.kind array = .array [expression, styles]

/-- Neither braces nor an array, a node is kept where a style is put behind another. -/
theorem Appended.kind_of_form {t t' : Tree} {container expression styles n : NodeId}
    (h : Appended t t' container expression styles) (hcontainer : t.form container = .container)
    (hn : n < t.size) (hbraces : t.form n ≠ .container) (harray : t.form n ≠ .array) :
    t'.kind n = t.kind n := by
  have hnc : n ≠ container := fun e => hbraces (e ▸ hcontainer)
  by_cases hne : n = expression
  · subst hne
    rcases h.cases with ⟨xs, hxs, -, -⟩ | ⟨-, hsame, -⟩
    · exact absurd (congrArg Kind.form hxs) harray
    · exact hsame
  · exact h.kind n hn hnc hne

/-- A tree of steady forms is depicted still where a style is put behind another. -/
theorem Appended.depicts {t t' : Tree} {container expression styles n : NodeId} {a : Ast}
    (h : Appended t t' container expression styles) (hcontainer : t.form container = .container)
    (hsize : t.size ≤ t'.size) (ha : a.Every fun b => b.kind.form.Steady) (hn : t.Depicts n a) :
    t'.Depicts n a := by
  refine hn.keep ha hsize fun m hm hst => ⟨?_, h.span m hm⟩
  exact h.kind_of_form hcontainer hm (hst.ne id) (hst.ne id)

/-- Merging puts a style behind a style expression in its braces. -/
theorem appended_mergeStyles {t : Tree} (ht : t.Linked) {container expression styles : NodeId}
    (hparent : t.parent expression = some container) (hstyles : styles < t.size) :
    Appended t (Stylist.mergeStyles expression styles t) container expression styles := by
  have hlt : expression < t.size := lt_size_of_parent hparent
  have hcontlt : container < t.size := ht.parent_lt_size hparent
  have hne : container ≠ expression := by
    intro heq
    subst heq
    exact ht.not_within_of_parent hparent .refl
  unfold Stylist.mergeStyles
  by_cases hform : t.form expression = .array
  · obtain ⟨xs, hxs⟩ : ∃ xs, t.kind expression = .array xs := by
      unfold form at hform
      cases hk : t.kind expression <;> simp_all [Kind.form]
    have hedit := editAt_setItems hlt hstyles (xs ++ [styles])
    have hmerged : t.append expression styles = some (((t.mapKind expression
        (·.setItems (xs ++ [styles]))).setParent (some expression) styles).markDirty
        expression) := by
      unfold append
      rw [hxs]
      rfl
    rw [if_pos hform, hmerged, Option.getD_some]
    refine ⟨fun n _ => hedit.span n, fun n _ _ hn => ?_, Or.inl ⟨xs, hxs, ?_, ?_⟩⟩
    · rw [hedit.kind, if_neg hn]
    · rw [hedit.kind, if_pos rfl, hxs]
      rfl
    · rw [hedit.kind, if_neg hne]
  · rw [if_neg hform]
    obtain ⟨-, -, hkind, -, hspan, -⟩ := editAt_wrap ht hparent hstyles
    refine ⟨fun n hn => ?_, fun n hn hnc _ => ?_, Or.inr ⟨hform, ?_, t.size, ?_, ?_⟩⟩
    · rw [hspan, if_neg (Nat.ne_of_lt hn)]
    · rw [hkind, if_neg (Nat.ne_of_lt hn), if_neg hnc]
    · rw [hkind, if_neg (Nat.ne_of_lt hlt), if_neg hne.symm]
    · rw [hkind, if_neg (Nat.ne_of_lt hcontlt), if_pos rfl]
    · rw [hkind, if_pos rfl]

/-- Putting a style behind an expression supplies an array at most, and the only link
that changes is then led through it. -/
theorem links_mergeStyles {t : Tree} (ht : t.Linked) {container expression styles : NodeId}
    (hparent : t.parent expression = some container) (hstyles : styles < t.size) :
    Supplies t (Stylist.mergeStyles expression styles t) ∧ ∀ n < t.size, n ≠ styles →
      (Stylist.mergeStyles expression styles t).parent n = t.parent n ∨ n = expression ∧
        ∃ array, t.size ≤ array ∧ array < (Stylist.mergeStyles expression styles t).size ∧
          (Stylist.mergeStyles expression styles t).form array = .array ∧
          (Stylist.mergeStyles expression styles t).parent n = some array ∧
          (Stylist.mergeStyles expression styles t).parent array = some container := by
  have hlt : expression < t.size := lt_size_of_parent hparent
  unfold Stylist.mergeStyles
  split
  case isTrue hform =>
    cases happend : t.append expression styles with
    | none => exact ⟨.of_size_le (Nat.le_refl _), fun n _ _ => Or.inl rfl⟩
    | some t' =>
      obtain ⟨items, hitems, rfl⟩ := append_eq_some happend
      have hedit := editAt_setItems hlt hstyles (items ++ [styles])
      refine ⟨.of_size_le (Nat.le_of_eq hedit.size), fun n _ hne => Or.inl ?_⟩
      rw [Option.getD_some, hedit.parent, if_neg hne]
  case isFalse =>
    obtain ⟨hsize, -, hkind, hlinks, -, -⟩ := editAt_wrap ht hparent hstyles
    refine ⟨fun n hn => ?_, fun n hn hne => ?_⟩
    · rcases Nat.lt_or_eq_of_le hn with hn | rfl
      · refine Supplies.of_size_le (Nat.le_refl _) n ?_
        rw [hsize]
        exact hn
      · rw [form, attributeName, hkind, if_pos rfl]
        simp [Kind.form]
    · rw [hlinks, if_neg (Nat.ne_of_lt hn)]
      by_cases heq : n = expression
      · refine Or.inr ⟨heq, t.size, Nat.le_refl _, ?_, ?_, if_pos (Or.inl heq), ?_⟩
        · rw [hsize]
          exact Nat.lt_succ_self _
        · rw [form, hkind, if_pos rfl]
          rfl
        · rw [hlinks, if_pos rfl]
      · exact Or.inl (if_neg (not_or.mpr ⟨heq, hne⟩))

/-- What becomes of a node when `ast` is put behind an expression: the node is the array
that the expression is, or holds the expression and now an array in its place. -/
inductive Grown (ast : Ast) (t w : Tree) (n : NodeId) : Prop
  | longer {xs : List NodeId} {styles : NodeId} (hkind : t.kind n = .array xs)
      (hkind' : w.kind n = .array (xs ++ [styles])) (hnew : t.size ≤ styles)
      (hstyles : w.Depicts styles ast)
  | wrapped {expression array styles : NodeId} (hkind : t.kind n = .container (some expression))
      (hkind' : w.kind n = .container (some array))
      (harray : w.kind array = .array [expression, styles])
      (hnew : t.size ≤ styles) (hstyles : w.Depicts styles ast)

/-- The attribute `attr` has gone and `ast` stands behind the others of the style
attribute `style`, and that is all. -/
structure Joined (ast : Ast) (t w : Tree) (opening attr style : NodeId) : Prop where
  reworked : ∀ label, Reworked label t w opening
  supplies : Supplies t w
  kind : ∀ n < t.size, n ≠ opening → w.kind n = t.kind n ∨ Grown ast t w n
  parent : ∀ n < t.size, n = attr ∧ w.parent n = none ∨ n ≠ attr ∧ (w.parent n = t.parent n ∨
    ∃ array, t.size ≤ array ∧ array < w.size ∧ w.form array = .array ∧ w.parent n = some array ∧
      w.parent array = t.parent n)
  children : w.children opening = (t.children opening).filter (· ≠ attr)
  kept : w.kind style = t.kind style
  holds : ∃ container expression styles, t.kind style = .attr Vocabulary.style (some container) ∧
    t.kind container = .container (some expression) ∧ w.Depicts styles ast ∧
    ((∃ xs, t.kind expression = .array xs ∧ w.kind expression = .array (xs ++ [styles]) ∧
        w.kind container = .container (some expression)) ∨
      t.form expression ≠ .array ∧ ∃ array, w.kind container = .container (some array) ∧
        w.kind array = .array [expression, styles])

/-- The attribute `attr` has gone and its style `ast` stands behind the others of
the style attribute `style`. -/
structure Merged (label : Text) (ast : Ast) (t t' : Tree) (opening attr style : NodeId) : Prop where
  besides : t'.besides label opening = (t.besides label opening).filter (· ≠ attr)
  kept : t'.kind style = t.kind style
  holds : ∃ container expression styles, t.kind style = .attr Vocabulary.style (some container) ∧
    t.kind container = .container (some expression) ∧ t'.Depicts styles ast ∧
    ((∃ xs, t.kind expression = .array xs ∧ t'.kind expression = .array (xs ++ [styles]) ∧
        t'.kind container = .container (some expression)) ∨
      t.form expression ≠ .array ∧ ∃ array, t'.kind container = .container (some array) ∧
        t'.kind array = .array [expression, styles])

/-- The store `v` in which a style is put behind others: the attribute `attr` is out of
its tag, and the style `ast` stands beside the nodes of `t`, not linked to them yet. -/
structure Cleared (ast : Ast) (t v : Tree) (opening attr styles : NodeId) : Prop where
  moves : Moves t v
  supplies : Supplies t v
  kind : ∀ n < t.size, n ≠ opening → v.kind n = t.kind n
  span : ∀ n < t.size, v.span n = t.span n
  parent : ∀ n < t.size, v.parent n = if n = attr then none else t.parent n
  children : v.children opening = (t.children opening).filter (· ≠ attr)
  behind : t.size ≤ styles
  lt_size : styles < v.size
  depicts : v.Depicts styles ast

/-- Where a style was added and the attribute removed, the style can be put behind others. -/
theorem cleared_remove {ast : Ast} {t u : Tree} (ht : t.Sound) {attr opening styles : NodeId}
    (hparent : t.parent attr = some opening) (hopening : t.form opening = .opening)
    (hadds : Adds t u styles) (hsupplies : Supplies t u) (hdepicts : u.Depicts styles ast)
    (hsteady : ast.Every fun b => b.kind.form.Steady) :
    Cleared ast t (u.remove attr) opening attr styles := by
  have hlt : opening < t.size := ht.linked.parent_lt_size hparent
  have hgrown := hadds.moves.sound ht
  have hopenu : u.form opening = .opening := by rw [hadds.form_eq hlt, hopening]
  have hparentu : u.parent attr = some opening :=
    (hadds.parent_eq (lt_size_of_parent hparent)).trans hparent
  have hremove : Move u (u.remove attr) := .remove hparentu (items_eq_children (Or.inl hopenu))
  have hedit := editAt_remove hgrown.linked hparentu
  have hkind (n : NodeId) (hn : n ≠ opening) : (u.remove attr).kind n = u.kind n := by
    rw [hedit.kind, if_neg hn]
  refine ⟨hadds.moves.tail hremove, ?_, fun n hn hne => ?_, fun n hn => ?_, fun n hn => ?_, ?_,
    hadds.behind, ?_, ?_⟩
  · exact hsupplies.trans (.of_size_le (Nat.le_of_eq hedit.size)) hgrown (.single hremove)
  · exact (hkind n hne).trans (hadds.kind_eq hn)
  · exact (hedit.span n).trans (congrArg Node.span (hadds.old n hn))
  · rw [hedit.parent, hadds.parent_eq hn]
  · rw [hedit.children_self, Kind.children_dropChild (items_eq_children (Or.inl hopenu)),
      hadds.kind_eq hlt]
    rfl
  · rw [hedit.size]
    exact hadds.lt_size
  · refine hdepicts.keep hsteady (Nat.le_of_eq hedit.size.symm) fun n _ hst => ⟨?_, hedit.span n⟩
    refine hkind n ?_
    rintro rfl
    exact hst.ne id hopenu

namespace Cleared

variable {ast : Ast} {t v w : Tree} {opening attr style container expression styles : NodeId}
  (h : Cleared ast t v opening attr styles) (ht : t.Sound) (hopening : t.form opening = .opening)
  (hcontkind : t.kind container = .container (some expression))

include h ht hopening hcontkind

/-- The braces and what stands in them are not the tag. -/
theorem braces :
    (container < t.size ∧ opening ≠ container ∧ v.kind container = t.kind container) ∧
      expression < t.size ∧ opening ≠ expression ∧ v.kind expression = t.kind expression := by
  have hexpparent : t.parent expression = some container :=
    ht.linked.parent_of_kind hcontkind (by simp [Kind.children])
  have hcontlt : container < t.size := ht.linked.parent_lt_size hexpparent
  have hexplt : expression < t.size := lt_size_of_parent hexpparent
  have hopcont : opening ≠ container := by
    rintro rfl
    rw [form, hcontkind] at hopening
    exact absurd hopening (by simp [Kind.form])
  have hopexp : opening ≠ expression := by
    rintro rfl
    have hadm := ht.shaped (ht.linked.mem_children.mpr hexpparent)
    rw [hopening, form, hcontkind] at hadm
    exact absurd hadm (by simp [Form.Admits, Kind.form])
  exact ⟨⟨hcontlt, hopcont, h.kind container hcontlt hopcont.symm⟩,
    hexplt, hopexp, h.kind expression hexplt hopexp.symm⟩

/-- The tag lists what it did, without the attribute. -/
theorem children_opening (happ : Appended v w container expression styles)
    (hlt : opening < t.size) :
    w.children opening = (t.children opening).filter (· ≠ attr) := by
  obtain ⟨⟨-, hopcont, -⟩, -, hopexp, -⟩ := h.braces ht hopening hcontkind
  have hlt : opening < v.size := Nat.lt_of_lt_of_le hlt (h.moves.size_le ht)
  rw [Tree.children, happ.kind opening hlt hopcont hopexp]
  exact h.children

/-- But for that of the attribute, every link is kept or leads through an array now. -/
theorem within_of_parent (hw : Moves v w) (happ : Appended v w container expression styles)
    {m p : NodeId} (hp : t.parent m = some p) (hm : m ≠ attr) : w.Within m p := by
  have hwsound := hw.sound (h.moves.sound ht)
  have hmem : m ∈ t.children p := ht.linked.mem_children.mpr hp
  have hplt : p < t.size := ht.linked.parent_lt_size hp
  have hup {c q : NodeId} (hc : c ∈ w.children q) : w.Within c q :=
    .single (hwsound.linked.mem_children.mp hc)
  by_cases hpo : p = opening
  · subst hpo
    refine hup ?_
    rw [h.children_opening ht hopening hcontkind happ hplt, List.mem_filter]
    exact ⟨hmem, by simpa using hm⟩
  · have hvp := h.kind p hplt hpo
    by_cases hpc : p = container
    · subst hpc
      obtain rfl : m = expression := by
        rw [Tree.children, hcontkind] at hmem
        simpa [Kind.children] using hmem
      rcases happ.cases with ⟨xs, -, -, hcont⟩ | ⟨-, -, array, hcont, harray⟩
      · refine hup ?_
        rw [Tree.children, hcont, hvp]
        exact hmem
      · -- The expression stands in a new array now, and that in the braces.
        refine (hup (?_ : m ∈ w.children array)).trans (hup ?_)
        · rw [Tree.children, harray]
          simp [Kind.children]
        · rw [Tree.children, hcont, hvp, hcontkind]
          simp [Kind.replaceChild, Kind.children]
    · refine hup ?_
      by_cases hpe : p = expression
      · subst hpe
        rcases happ.cases with ⟨xs, hxs, hexp, -⟩ | ⟨-, hsame, -⟩
        · rw [Tree.children, ← hvp, hxs] at hmem
          rw [Tree.children, hexp]
          exact List.mem_append_left _ hmem
        · rw [Tree.children, hsame, hvp]
          exact hmem
      · rw [Tree.children, happ.kind p (Nat.lt_of_lt_of_le hplt (h.moves.size_le ht)) hpc hpe, hvp]
        exact hmem

/-- A shorthand attribute goes out of its tag and a style is put behind an expression
in the same tag. -/
theorem reworked (hw : Moves v w) (happ : Appended v w container expression styles)
    (label : Text) {classes : Text} (hclasses : t.shorthandClasses attr = .ok classes)
    (hattr : t.form attr = .attr) (hstyle : t.parent style = some opening)
    (hstylekind : t.kind style = .attr Vocabulary.style (some container)) :
    Reworked label t w opening := by
  have hmoves : Moves t w := h.moves.trans hw
  have hwsound := hmoves.sound ht
  have hlt {n : NodeId} (hn : n < t.size) : n < v.size :=
    Nat.lt_of_lt_of_le hn (h.moves.size_le ht)
  have hlist := h.children_opening ht hopening hcontkind happ (ht.linked.parent_lt_size hstyle)
  refine ⟨hmoves, fun n hn => ?_, fun n hn => ?_, fun n hn hp => ?_, fun tag htag hat => ?_⟩
  · rw [happ.span n (hlt hn), h.span n hn]
  · by_cases hno : n = opening
    · subst hno
      exact Or.inr .tag
    · by_cases hnc : n = container
      · subst hnc
        exact Or.inr (.braces hstyle hstylekind (congrArg Kind.form hcontkind))
      · by_cases hne : n = expression
        · subst hne
          rcases happ.cases with ⟨xs, hxs, -, -⟩ | ⟨-, hsame, -⟩
          · rw [h.kind n hn hno] at hxs
            exact Or.inr (.array hstyle hstylekind hcontkind (congrArg Kind.form hxs))
          · exact Or.inl (hsame.trans (h.kind n hn hno))
        · rw [happ.kind n (hlt hn) hnc hne]
          exact Or.inl (h.kind n hn hno)
  · rw [← hwsound.linked.mem_children, hlist, List.mem_filter] at hp
    exact ht.linked.mem_children.mp hp.1
  · refine isAttached_of_links ht.linked hwsound.linked hat fun m p hm hp => ?_
    refine h.within_of_parent ht hopening hcontkind hw happ hp ?_
    rintro rfl
    exact not_within_shorthand ht.linked hattr hclasses htag hm

/-- A style put behind an expression in the store that is left joins the styles. -/
theorem joined {classes : Text} (hclasses : t.shorthandClasses attr = .ok classes)
    (hattr : t.form attr = .attr) (hstyle : t.parent style = some opening)
    (hstylekind : t.kind style = .attr Vocabulary.style (some container))
    (hloose : (t.form expression).Loose) (hsteady : ast.Every fun b => b.kind.form.Steady)
    (hmoves : Moves v (Stylist.mergeStyles expression styles v)) :
    Joined ast t (Stylist.mergeStyles expression styles v) opening attr style := by
  have hvsound := h.moves.sound ht
  have hsize : t.size ≤ v.size := h.moves.size_le ht
  have hexpparent : t.parent expression = some container :=
    ht.linked.parent_of_kind hcontkind (by simp [Kind.children])
  have hexpattr : expression ≠ attr := by
    rintro rfl
    rw [hattr] at hloose
    exact hloose
  obtain ⟨⟨hcontlt, -, hcontkindv⟩, hexplt, -, hexpkindv⟩ := h.braces ht hopening hcontkind
  have hexpv : v.parent expression = some container := by
    rw [h.parent expression hexplt, if_neg hexpattr, hexpparent]
  have hcontv : v.kind container = .container (some expression) := hcontkindv.trans hcontkind
  have hcontform : v.form container = .container := congrArg Kind.form hcontv
  have happ := appended_mergeStyles hvsound.linked hexpv h.lt_size
  obtain ⟨hsupplies, hlinks⟩ := links_mergeStyles hvsound.linked hexpv h.lt_size
  have hoplt : opening < t.size := ht.linked.parent_lt_size hstyle
  have hstylelt : style < t.size := lt_size_of_parent hstyle
  have hstylene : style ≠ opening := by
    rintro rfl
    exact ht.linked.not_within_of_parent hstyle .refl
  have hstylev : v.kind style = .attr Vocabulary.style (some container) :=
    (h.kind style hstylelt hstylene).trans hstylekind
  have hstyleform : v.form style = .attr := congrArg Kind.form hstylev
  have hdepicts := happ.depicts hcontform (hmoves.size_le hvsound) hsteady h.depicts
  refine ⟨fun label => ?_, ?_, fun n hn hne => ?_, fun n hn => ?_, ?_, ?_, container, expression,
    styles, hstylekind, hcontkind, hdepicts, ?_⟩
  · exact h.reworked ht hopening hcontkind hmoves happ label hclasses hattr hstyle hstylekind
  · exact h.supplies.trans hsupplies hvsound hmoves
  · have hkind := h.kind n hn hne
    have hlt := Nat.lt_of_lt_of_le hn hsize
    by_cases hnc : n = container
    · subst hnc
      rcases happ.cases with ⟨xs, -, -, hcont⟩ | ⟨-, -, array, hcont, harray⟩
      · exact Or.inl (hcont.trans hkind)
      · refine Or.inr (.wrapped hcontkind ?_ harray h.behind hdepicts)
        rw [hcont, hcontv]
        simp [Kind.replaceChild]
    · by_cases hne : n = expression
      · subst hne
        rcases happ.cases with ⟨xs, hxs, hexp, -⟩ | ⟨-, hsame, -⟩
        · exact Or.inr (.longer (hkind.symm.trans hxs) hexp h.behind hdepicts)
        · exact Or.inl (hsame.trans hkind)
      · exact Or.inl ((happ.kind n hlt hnc hne).trans hkind)
  · have hnstyles : n ≠ styles := Nat.ne_of_lt (Nat.lt_of_lt_of_le hn h.behind)
    rcases hlinks n (Nat.lt_of_lt_of_le hn hsize) hnstyles with
      hsame | ⟨rfl, array, harray, hlt, hform, hup, hcont⟩
    · rw [hsame, h.parent n hn]
      split
      · exact Or.inl ⟨‹_›, rfl⟩
      · exact Or.inr ⟨‹_›, Or.inl rfl⟩
    · exact Or.inr ⟨hexpattr, Or.inr ⟨array, Nat.le_trans hsize harray, hlt, hform, hup,
        hcont.trans hexpparent.symm⟩⟩
  · exact h.children_opening ht hopening hcontkind happ hoplt
  · rw [happ.kind_of_form hcontform (Nat.lt_of_lt_of_le hstylelt hsize) (by rw [hstyleform]; decide)
      (by rw [hstyleform]; decide), hstylev, hstylekind]
  · rcases happ.cases with ⟨xs, hxs, hexp, hcont⟩ | ⟨hform, -, array, hcont, harray⟩
    · exact Or.inl ⟨xs, hexpkindv.symm.trans hxs, hexp, hcont.trans hcontv⟩
    · refine Or.inr ⟨?_, array, ?_, harray⟩
      · rwa [form, ← hexpkindv]
      · rw [hcont, hcontv]
        simp [Kind.replaceChild]

end Cleared

/-- The class string of a shorthand attribute, if it has one. -/
def classes (t : Tree) (attr : NodeId) : Option Text :=
  if t.attributeName attr = some Vocabulary.shorthand then (t.shorthandClasses attr).toOption
  else none

/-- An attribute that has classes is a shorthand attribute with those classes. -/
theorem classes_eq_some {t : Tree} {attr : NodeId} {r : Text} (h : t.classes attr = some r) :
    t.attributeName attr = some Vocabulary.shorthand ∧ t.shorthandClasses attr = .ok r := by
  unfold classes at h
  split at h
  case isTrue hname =>
    refine ⟨hname, ?_⟩
    cases hc : t.shorthandClasses attr with
    | error e =>
      rw [hc] at h
      exact absurd h (by simp [Except.toOption])
    | ok r' =>
      rw [hc] at h
      rw [Option.some.inj h]
  case isFalse => exact absurd h (by simp)

/-- Only attributes have classes. -/
theorem form_of_classes {t : Tree} {x : NodeId} (h : (t.classes x).isSome) : t.form x = .attr := by
  obtain ⟨r, hr⟩ := Option.isSome_iff_exists.mp h
  obtain ⟨value, hkind⟩ := attributeName_eq_some (classes_eq_some hr).1
  exact congrArg Kind.form hkind

/-- The value of a shorthand attribute is not among the nodes that restyling may
change, and what stands in braces there only if it is an array. -/
theorem StylePart.of_shorthand {label : Text} {t : Tree} (ht : t.Sound)
    {opening attr value n : NodeId}
    (hopening : t.form opening = .opening)
    (hattr : t.kind attr = .attr Vocabulary.shorthand (some value))
    (h : t.StylePart label opening n) :
    n ≠ value ∧ (t.kind value = .container (some n) → t.form n = .array) := by
  have hvalue : t.parent value = some attr :=
    ht.linked.parent_of_kind hattr (by simp [Kind.children])
  have hattrform : t.form attr = .attr := congrArg Kind.form hattr
  have hinside (hk : t.kind value = .container (some n)) :
      t.parent n = some value ∧ t.form value = .container :=
    ⟨ht.linked.parent_of_kind hk (by simp [Kind.children]), congrArg Kind.form hk⟩
  have hadm {c p : NodeId} (hp : t.parent c = some p) : (t.form p).Admits (t.form c) :=
    ht.shaped (ht.linked.mem_children.mpr hp)
  cases h with
  | tag =>
    have hno {p : NodeId} (hp : t.parent opening = some p) : t.form p = .element := by
      have h := hadm hp
      rwa [hopening] at h
    constructor
    · intro heq
      subst heq
      exact absurd ((hno hvalue).symm.trans hattrform) (by decide)
    · intro hk
      obtain ⟨hp, hform⟩ := hinside hk
      exact absurd ((hno hp).symm.trans hform) (by decide)
  | labelled hparent hlabel =>
    constructor
    · intro heq
      subst heq
      obtain rfl := Option.some.inj (hparent.symm.trans hvalue)
      exact absurd (hopening.symm.trans hattrform) (by decide)
    · intro hk
      obtain ⟨hp, hform⟩ := hinside hk
      obtain rfl := Option.some.inj (hparent.symm.trans hp)
      exact absurd (hopening.symm.trans hform) (by decide)
  | @braces style _ hparent hstyle hbraces =>
    have hup : t.parent n = some style := ht.linked.parent_of_kind hstyle (by simp [Kind.children])
    constructor
    · intro heq
      subst heq
      obtain rfl := Option.some.inj (hup.symm.trans hvalue)
      rw [hattr, Kind.attr.injEq] at hstyle
      exact absurd hstyle.1 (by decide)
    · intro hk
      obtain ⟨hp, hform⟩ := hinside hk
      obtain rfl := Option.some.inj (hup.symm.trans hp)
      exact absurd ((congrArg Kind.form hstyle).symm.trans hform) (by simp [Kind.form])
  | @array style container _ hparent hstyle hcontainer harray =>
    have hup : t.parent n = some container :=
      ht.linked.parent_of_kind hcontainer (by simp [Kind.children])
    refine ⟨?_, fun _ => harray⟩
    intro heq
    subst heq
    obtain rfl := Option.some.inj (hup.symm.trans hvalue)
    exact absurd ((congrArg Kind.form hcontainer).symm.trans hattrform) (by simp [Kind.form])

/-- Restyling an attribute leaves what another one asks for as it is. -/
theorem Reworked.shorthandClasses_eq {label : Text} {t t' : Tree} {opening : NodeId}
    (h : Reworked label t t' opening) (ht : t.Sound) (hopening : t.form opening = .opening)
    (hlabel : label ≠ Vocabulary.shorthand) {n : NodeId}
    (hname : t.attributeName n = some Vocabulary.shorthand) :
    t'.shorthandClasses n = t.shorthandClasses n := by
  obtain ⟨value, hattr⟩ := attributeName_eq_some hname
  have hn : n < t.size := lt_size_of_form (by rw [form, hattr]; simp [Kind.form])
  have hkind : t'.kind n = t.kind n := by
    rcases h.kind n hn with hk | hpart
    · exact hk
    · exact absurd (hpart.label_of_attr hopening hattr).symm hlabel
  have hvalue' : t'.attributeValue n = t.attributeValue n := by
    rw [attributeValue, hkind, attributeValue]
  unfold shorthandClasses
  rw [hvalue', attributeValue, hattr]
  cases value with
  | none => rfl
  | some value =>
    dsimp only
    have hparent : t.parent value = some n :=
      ht.linked.parent_of_kind hattr (by simp [Kind.children])
    have hvkind : t'.kind value = t.kind value := by
      rcases h.kind value (lt_size_of_parent hparent) with hk | hpart
      · exact hk
      · exact absurd rfl (hpart.of_shorthand ht hopening hattr).1
    rw [hvkind, h.span value (lt_size_of_parent hparent)]
    cases hk : t.kind value with
    | container expression =>
      cases expression with
      | none => rfl
      | some expression =>
        dsimp only
        have hup : t.parent expression = some value :=
          ht.linked.parent_of_kind hk (by simp [Kind.children])
        have hlt := lt_size_of_parent hup
        rw [h.span expression hlt]
        rcases h.kind expression hlt with hek | hpart
        · rw [hek]
        · -- An array may grow, but stays one.
          have harray := (hpart.of_shorthand ht hopening hattr).2 hk
          have harray' := (h.moves.form_eq ht hlt).trans harray
          unfold form at harray harray'
          cases he : t.kind expression <;> cases he' : t'.kind expression <;>
            simp_all [Kind.form]
    | _ => rfl

/-- Restyling an attribute leaves the class strings of all others as they are. -/
theorem Reworked.classes_eq {label : Text} {t t' : Tree} {opening : NodeId}
    (h : Reworked label t t' opening) (ht : t.Sound) (hopening : t.form opening = .opening)
    (hlabel : label ≠ Vocabulary.shorthand) {n : NodeId} (hn : n < t.size) :
    t'.classes n = t.classes n := by
  unfold classes
  rw [h.moves.attributeName_eq ht hn]
  split
  case isTrue hname => rw [h.shorthandClasses_eq ht hopening hlabel hname]
  case isFalse => rfl

end Tree

namespace Stylist

open JsxStyle.Tree

variable {t : Tree} {s : Stylist}

/-- Converting a shorthand attribute swaps it for a style attribute, whatever the annotator
does then. -/
theorem swapped_before {g : Generator} (ht : t.Sound) (hs : g.Plain) {attr opening : NodeId}
    {classes : Text} {ast : Ast} (hname : t.attributeName attr = some Vocabulary.shorthand)
    (hparent : t.parent attr = some opening) (hopening : t.form opening = .opening)
    (hclasses : t.shorthandClasses attr = .ok classes) (hast : g classes = .ok ast)
    (hsteady : ast.Every fun b => b.kind.form.Steady) (attributes : List NodeId) :
    ∃ v style, Swapped ast t v opening attr style ∧ ∀ annotator : Annotator,
      (Stylist.mk g annotator).convert attr attributes classes t =
        annotator.attachAfter style attributes classes v := by
  obtain ⟨value, hkind⟩ := attributeName_eq_some hname
  have hattr : t.form attr = .attr := congrArg Kind.form hkind
  have hlt : opening < t.size := ht.linked.parent_lt_size hparent
  have hattrlt : attr < t.size := lt_size_of_parent hparent
  unfold convert
  dsimp only
  rw [hast]
  dsimp only
  obtain ⟨hstyles, hloose⟩ := adds_generated ht.linked hs hast
  have hdepicts := (List.forall₂_cons.mp (graft_spec ast t ht.linked).depicts).1
  have hsupplies := supplies_graft ht.linked hsteady
  generalize (graft ast).run t = run at *
  obtain ⟨styles, u⟩ := run
  dsimp only at *
  obtain ⟨hadds, hstylekind, hcontkind, holdw⟩ := hstyles.styleAttribute ht.linked hloose
  have hcontlt : u.size < (u.alloc (.container (some styles)) none).2.size := by
    rw [size_alloc]
    exact Nat.lt_succ_self _
  have hwsize : (Tree.alloc (.attr Vocabulary.style (some u.size)) none
      (u.alloc (.container (some styles)) none).2).2.size =
      (u.alloc (.container (some styles)) none).2.size + 1 := size_alloc ..
  have hvsize : (u.alloc (.container (some styles)) none).2.size = u.size + 1 := size_alloc ..
  rw [alloc_fst, alloc_fst]
  generalize (Tree.alloc (.attr Vocabulary.style (some u.size)) none
    (u.alloc (.container (some styles)) none).2).2 = w at *
  generalize (u.alloc (.container (some styles)) none).2.size = style at *
  have hsuppliesw : Supplies t w := by
    intro n hn
    rcases Nat.lt_trichotomy n u.size with hnu | rfl | hnu
    · rw [form, attributeName, (holdw n hnu).1]
      exact hsupplies n hn
    · simp [form, attributeName, hcontkind, Kind.form]
    · rcases Nat.lt_or_ge n w.size with hnw | hnw
      · obtain rfl : n = style := by omega
        have hother : Vocabulary.style ≠ Vocabulary.shorthand := by decide
        simp [form, attributeName, hstylekind, Kind.form, hother]
      · exact Supplies.of_size_le (Nat.le_refl _) n hnw
  have hsoundw := hadds.moves.sound ht
  have hparentw : w.parent attr = some opening := by rw [hadds.parent_eq hattrlt, hparent]
  have hedit := editAt_replaceAt hsoundw.linked hparentw hadds.lt_size hadds.dirty
  obtain ⟨hreplaced, hnew⟩ :=
    moves_styleAttribute ht hparent hopening hadds (congrArg Kind.form hstylekind)
  have hrework (label : Text) := reworked_replaceAt label ht hattr hparent hopening hclasses hadds
    hreplaced hedit
  have hkeep (n : NodeId) (hn : n ≠ opening) : (w.replaceAt attr style).kind n = w.kind n := by
    rw [hedit.kind, if_neg hn, kind_place]
  have hne {n : NodeId} (hn : t.size ≤ n) : n ≠ opening :=
    Nat.ne_of_gt (Nat.lt_of_lt_of_le hlt hn)
  have hsizex : (w.replaceAt attr style).size = w.size := by rw [hedit.size, size_update]
  refine ⟨w.replaceAt attr style, style, ⟨fun label => (hrework label).1, ?_, fun n hn hne => ?_,
    fun n hn => ?_, (hrework []).2, hadds.behind, hnew, u.size, styles, ?_, ?_, ?_⟩, fun _ => rfl⟩
  · exact hsuppliesw.trans (.of_size_le (Nat.le_of_eq hsizex)) hsoundw hreplaced
  · rw [hkeep n hne, hadds.kind_eq hn]
  · rw [hedit.parent, if_neg (Nat.ne_of_lt (Nat.lt_of_lt_of_le hn hadds.behind)),
      hadds.parent_eq hn]
  · rw [hkeep style (hne hadds.behind), hstylekind]
  · rw [hkeep u.size (hne (hstyles.moves.size_le ht)), hcontkind]
  · refine hdepicts.keep hsteady (by omega) fun n hn hst => ?_
    have hne : n ≠ opening := by
      rintro rfl
      exact hst.ne id ((hstyles.form_eq hlt).trans hopening)
    have hnstyle : n ≠ style := Nat.ne_of_lt (Nat.lt_trans hn hcontlt)
    constructor
    · rw [hkeep n hne, (holdw n hn).1]
    · rw [hedit.span, span, node_update, if_neg fun h => hnstyle h.1]
      exact (holdw n hn).2

/-- Converting a shorthand attribute swaps it for a style attribute and then annotates. -/
theorem swapped (ht : t.Sound) (hs : s.generate.Plain) {attr opening : NodeId}
    {classes : Text} {ast : Ast} (hname : t.attributeName attr = some Vocabulary.shorthand)
    (hparent : t.parent attr = some opening) (hopening : t.form opening = .opening)
    (hclasses : t.shorthandClasses attr = .ok classes) (hast : s.generate classes = .ok ast)
    (hsteady : ast.Every fun b => b.kind.form.Steady) (attributes : List NodeId) :
    ∃ v style, Swapped ast t v opening attr style ∧ s.convert attr attributes classes t =
      s.annotator.attachAfter style attributes classes v := by
  obtain ⟨v, style, hswap, hconvert⟩ :=
    swapped_before ht hs hname hparent hopening hclasses hast hsteady attributes
  exact ⟨v, style, hswap, hconvert s.annotator⟩

/-- Converting a shorthand attribute puts a style attribute in its place. -/
theorem converted (ht : t.Sound) (hs : s.generate.Plain) {attr opening : NodeId}
    {classes : Text} {ast : Ast} (hname : t.attributeName attr = some Vocabulary.shorthand)
    (hparent : t.parent attr = some opening) (hopening : t.form opening = .opening)
    (hclasses : t.shorthandClasses attr = .ok classes) (hast : s.generate classes = .ok ast)
    (hsteady : ast.Every fun b => b.kind.form.Steady)
    (hlabel : s.annotator.label ≠ Vocabulary.shorthand ∧ s.annotator.label ≠ Vocabulary.style) :
    Reworked s.annotator.label t (s.convert attr (t.attributes opening) classes t).tree opening ∧
      ∃ style, Converted s.annotator.label ast t
        (s.convert attr (t.attributes opening) classes t).tree opening attr style := by
  obtain ⟨v, style, hswap, hconvert⟩ := swapped ht hs hname hparent hopening hclasses hast hsteady
    (t.attributes opening)
  rw [hconvert]
  have hrework := hswap.reworked s.annotator.label
  have hsoundv := hrework.moves.sound ht
  have hlt : opening < t.size := ht.linked.parent_lt_size hparent
  have hopeningv : v.form opening = .opening := (hrework.moves.form_eq ht hlt).trans hopening
  have hname' {n : NodeId} (hn : n < t.size) : v.attributeName n = t.attributeName n :=
    hrework.moves.attributeName_eq ht hn
  obtain ⟨-, hann, -⟩ := annotated_attachAfter hsoundv s.annotator hswap.below hopeningv
    (hswap.parent_of_label ht hopening hname hlabel.1) classes
  obtain ⟨container, styles, hstylekind, hcontkind, hdepicts⟩ := hswap.holds
  have hneattr : style ≠ opening := Nat.ne_of_gt (Nat.lt_of_lt_of_le hlt hswap.fresh)
  refine ⟨hrework.annotated ht hopening hann, style, hswap.fresh, ?_, container, styles, ?_, ?_, ?_⟩
  · rw [hann.besides_eq hsoundv hopeningv, besides, hswap.attributes, filter_replace]
    · refine congrArg (List.replace · attr style) (List.filter_congr fun b hb => ?_)
      rw [hname' (lt_size_of_mem_attributes ht.linked hopening hb)]
    · rw [hname' (lt_size_of_parent hparent), hname]
      simpa using hlabel.1.symm
    · rw [attributeName, hstylekind]
      simpa using hlabel.2.symm
  · rw [hann.kind_style hneattr hstylekind hcontkind, hstylekind]
  · exact hann.kind_eq_of hopeningv hcontkind (by simp [Kind.form]) (by simp [Kind.form])
      (by simp [Kind.form])
  · exact hann.depicts hsoundv hopeningv hsteady hdepicts

/-- Merging a shorthand attribute joins its style to a style expression and then annotates. -/
theorem joined (ht : t.Sound) (hs : s.generate.Plain) {attr opening style expression : NodeId}
    {classes : Text} {ast : Ast} (hname : t.attributeName attr = some Vocabulary.shorthand)
    (hparent : t.parent attr = some opening) (hopening : t.form opening = .opening)
    (hclasses : t.shorthandClasses attr = .ok classes) (hast : s.generate classes = .ok ast)
    (hsteady : ast.Every fun b => b.kind.form.Steady)
    (hstyle : t.attributeNamed (t.attributes opening) Vocabulary.style = some style)
    (hexpression : t.styleExpression style = some expression) :
    ∃ w, Joined ast t w opening attr style ∧ s.merge attr style opening classes t =
      s.annotator.attachTo opening (w.attributes opening) classes w := by
  obtain ⟨value, hkind⟩ := attributeName_eq_some hname
  have hattr : t.form attr = .attr := congrArg Kind.form hkind
  obtain ⟨name, container, hstylekind, hcontkind, hexpparent, hloose⟩ := ht.style_parts hexpression
  have hstylename : t.attributeName style = some Vocabulary.style := by
    simpa using List.find?_some hstyle
  have hstylekind : t.kind style = .attr Vocabulary.style (some container) := by
    rw [attributeName, hstylekind] at hstylename
    rw [hstylekind, Option.some.inj hstylename]
  have hstyleparent : t.parent style = some opening := by
    rw [← ht.linked.mem_children, ← attributes_eq_children hopening]
    exact List.mem_of_find?_eq_some hstyle
  unfold merge
  rw [hexpression]
  dsimp only
  rw [hast]
  dsimp only
  obtain ⟨hadds, hstyles⟩ := adds_generated ht.linked hs hast
  have hdepicts := (List.forall₂_cons.mp (graft_spec ast t ht.linked).depicts).1
  have hsupplies := supplies_graft ht.linked hsteady
  generalize (graft ast).run t = run at *
  obtain ⟨styles, u⟩ := run
  dsimp only at *
  obtain ⟨-, -, hmoves⟩ := moves_remove_mergeStyles ht hattr hparent hopening hexpparent
    hloose hadds hstyles
  have hcleared := cleared_remove ht hparent hopening hadds hsupplies hdepicts hsteady
  exact ⟨mergeStyles expression styles (u.remove attr), hcleared.joined ht hopening hcontkind
    hclasses hattr hstyleparent hstylekind hloose hsteady hmoves, rfl⟩

/-- Merging a shorthand attribute puts its style behind the others of its tag. -/
theorem merged (ht : t.Sound) (hs : s.generate.Plain) {attr opening style expression : NodeId}
    {classes : Text} {ast : Ast} (hname : t.attributeName attr = some Vocabulary.shorthand)
    (hparent : t.parent attr = some opening) (hopening : t.form opening = .opening)
    (hclasses : t.shorthandClasses attr = .ok classes) (hast : s.generate classes = .ok ast)
    (hsteady : ast.Every fun b => b.kind.form.Steady)
    (hstyle : t.attributeNamed (t.attributes opening) Vocabulary.style = some style)
    (hexpression : t.styleExpression style = some expression) :
    Reworked s.annotator.label t (s.merge attr style opening classes t).tree opening ∧
      Merged s.annotator.label ast t (s.merge attr style opening classes t).tree opening attr
        style := by
  obtain ⟨w, hjoin, hmerge⟩ := joined ht hs hname hparent hopening hclasses hast hsteady hstyle
    hexpression
  rw [hmerge]
  have hrework := hjoin.reworked s.annotator.label
  have hwsound := hrework.moves.sound ht
  have hlt : opening < t.size := ht.linked.parent_lt_size hparent
  have hopenw : w.form opening = .opening := (hrework.moves.form_eq ht hlt).trans hopening
  obtain ⟨-, hann, -⟩ := annotated_attachTo hwsound s.annotator hopenw
    (fun b hb _ => parent_of_mem_attributes hwsound.linked hb) classes style
  obtain ⟨container, expression, styles, hstylekind, hcontkind, hdepicts, hcontent⟩ := hjoin.holds
  have hstylene : style ≠ opening := by
    rintro rfl
    rw [form, hstylekind] at hopening
    exact absurd hopening (by simp [Kind.form])
  have hstylew : w.kind style = .attr Vocabulary.style (some container) :=
    hjoin.kept.trans hstylekind
  have hkind_style {expression : Option NodeId}
      (hcont : w.kind container = .container expression) :=
    (hann.kind_style hstylene hstylew hcont).trans hjoin.kept
  refine ⟨hrework.annotated ht hopening hann, ?_, ?_, container, expression, styles, hstylekind,
    hcontkind, hann.depicts hwsound hopenw hsteady hdepicts, ?_⟩
  · rw [hann.besides_eq hwsound hopenw, besides, attributes_eq_children hopenw, hjoin.children,
      besides, attributes_eq_children hopening, List.filter_filter, List.filter_filter]
    refine List.filter_congr fun b hb => ?_
    rw [hrework.moves.attributeName_eq ht (ht.linked.lt_size_of_mem hb), Bool.and_comm]
  · rcases hcontent with ⟨xs, -, -, hcont⟩ | ⟨-, array, hcont, -⟩
    · exact hkind_style hcont
    · exact hkind_style hcont
  · rcases hcontent with ⟨xs, hxs, hexp, hcont⟩ | ⟨hform, array, hcont, harray⟩
    · refine Or.inl ⟨xs, hxs, ?_, ?_⟩
      · exact hann.kind_eq_of hopenw hexp (by simp [Kind.form]) (by simp [Kind.form])
          (by simp [Kind.form])
      · exact hann.kind_eq_of hopenw hcont (by simp [Kind.form]) (by simp [Kind.form])
          (by simp [Kind.form])
    · refine Or.inr ⟨hform, array, ?_, ?_⟩
      · exact hann.kind_eq_of hopenw hcont (by simp [Kind.form]) (by simp [Kind.form])
          (by simp [Kind.form])
      · exact hann.kind_eq_of hopenw harray (by simp [Kind.form]) (by simp [Kind.form])
          (by simp [Kind.form])

/-- An attribute without a class string is left alone. -/
theorem restyleAttribute_of_none {attr : NodeId} (h : t.classes attr = none) :
    (s.restyleAttribute attr t).tree = t := by
  unfold restyleAttribute
  split
  case isTrue hname =>
    cases hc : t.shorthandClasses attr with
    | error e => rfl
    | ok classes =>
      rw [Tree.classes, if_pos hname, hc] at h
      exact absurd h (by simp [Except.toOption])
  case isFalse => rfl

/-- An attribute with a class string is merged or converted in the tag around it. -/
theorem restyleAttribute_of_some (ht : t.Sound) {attr opening : NodeId} {classes : Text}
    (h : t.classes attr = some classes) (hparent : t.parent attr = some opening) :
    t.form opening = .opening ∧ s.restyleAttribute attr t =
      match t.attributeNamed (t.attributes opening) Vocabulary.style with
      | some style => s.merge attr style opening classes t
      | none => s.convert attr (t.attributes opening) classes t := by
  obtain ⟨hname, hclasses⟩ := classes_eq_some h
  obtain ⟨value, hkind⟩ := attributeName_eq_some hname
  have hopening : t.form opening = .opening := by
    have hadm := ht.shaped (ht.linked.mem_children.mpr hparent)
    rw [show t.form attr = .attr from congrArg Kind.form hkind] at hadm
    exact hadm
  have henclosing : t.enclosing attr .opening = some opening := by
    rw [ht.linked.enclosing_eq hparent, if_pos hopening]
  refine ⟨hopening, ?_⟩
  unfold restyleAttribute
  cases hstyle : t.attributeNamed (t.attributes opening) Vocabulary.style with
  | none => simp only [if_pos hname, hclasses, henclosing, hstyle]
  | some style => simp only [if_pos hname, hclasses, henclosing, hstyle]

/-- Restyling an attribute by calls left to run time changes what belongs to its tag at most. -/
theorem reworked_restyleAttribute (ht : t.Sound) {callee : Text}
    (hs : s.generate = Generator.runtimeCall callee)
    (hlabel : s.annotator.label ≠ Vocabulary.shorthand ∧ s.annotator.label ≠ Vocabulary.style)
    {attr opening : NodeId} {classes : Text} (h : t.classes attr = some classes)
    (hparent : t.parent attr = some opening) :
    (s.restyleAttribute attr t).tree = t ∨
      Reworked s.annotator.label t (s.restyleAttribute attr t).tree opening := by
  have hplain : s.generate.Plain := fun _ _ hast => Or.inl ⟨callee, hs ▸ hast⟩
  obtain ⟨ast, hast⟩ : ∃ ast, s.generate classes = .ok ast := ⟨_, by rw [hs]; rfl⟩
  have hsteady := Generator.steady_runtimeCall (hs ▸ hast)
  obtain ⟨hname, hclasses⟩ := classes_eq_some h
  obtain ⟨hopening, hstep⟩ := restyleAttribute_of_some (s := s) ht h hparent
  rw [hstep]
  cases hstyle : t.attributeNamed (t.attributes opening) Vocabulary.style with
  | none =>
    exact Or.inr (converted ht hplain hname hparent hopening hclasses hast hsteady hlabel).1
  | some style =>
    dsimp only
    cases hexpression : t.styleExpression style with
    | none =>
      refine Or.inl ?_
      unfold merge
      rw [hexpression]
    | some expression =>
      exact Or.inr (merged ht hplain hname hparent hopening hclasses hast hsteady hstyle
        hexpression).1

end Stylist

end JsxStyle
