import JsxStyle.Proofs.Account
import JsxStyle.Proofs.Printing

/-!
# Stores that differ in annotations

Of two stores of one module, let one have annotated tags and the other not.
Their nodes have different identifiers, since annotations are nodes too, so the
two are compared along a renaming of the nodes of the plain store.  A node keeps
its kind, renamed, but for two things: a tag may list annotations besides, and
an annotation that was there may hold another string.  What the renaming does
not reach is an annotation or the string of one.

Nothing is said about parents.  The links of both stores agree with their
lists, so the parents are the same too, except above a string; and no
string stands above anything.

* `Alike`: the comparison;
* `Alike.parent_eq`, `Alike.ancestors_eq`: looking up;
* `Alike.attributeNamed_eq`, `Alike.shorthandClasses_eq`, `Alike.staticClasses_eq`:
  looking around;
* `Alike.filter_descendants`: looking down.
-/

namespace JsxStyle

namespace Kind

variable {α β : Type}

/-- The same kind, with those attributes only that `q` accepts if it is a tag. -/
def keepAttributes (q : α → Bool) : Kind α → Kind α
  | opening name attributes selfClosing => opening name (attributes.filter q) selfClosing
  | k => k

/-- Leaving attributes out keeps the form of a node. -/
@[simp] theorem form_keepAttributes (q : α → Bool) (k : Kind α) :
    (k.keepAttributes q).form = k.form := by
  cases k <;> rfl

/-- Only an opening tag has attributes to leave out. -/
theorem keepAttributes_of_form {q : α → Bool} {k : Kind α} (h : k.form ≠ .opening) :
    k.keepAttributes q = k := by
  cases k <;> simp_all [keepAttributes, form]

/-- Keeping attributes adds no children, and loses none that are accepted. -/
theorem mem_children_keepAttributes {q : α → Bool} {k : Kind α} {c : α} (hq : q c = true) :
    c ∈ (k.keepAttributes q).children ↔ c ∈ k.children := by
  cases k <;> simp [keepAttributes, Kind.children, hq]

/-- Attributes may be left out before or after a renaming. -/
theorem keepAttributes_map (q : β → Bool) (f : α → β) (k : Kind α) :
    (k.map f).keepAttributes q = (k.keepAttributes (q ∘ f)).map f := by
  cases k with
  | opening name attributes selfClosing => simp only [map, keepAttributes, List.filter_map]
  | _ => rfl

/-- Keeping all attributes keeps the node. -/
theorem keepAttributes_of_all {q : α → Bool} (h : ∀ c, q c = true) (k : Kind α) :
    k.keepAttributes q = k := by
  cases k <;> simp [keepAttributes, h]

theorem map_id (k : Kind α) : (k.map fun c => c) = k := by
  cases k <;> simp [map]

/-- Where nothing comes of the attributes left out, the others are all that counts. -/
theorem flatMap_children_keepAttributes {q : α → Bool} {g : α → List β} {k : Kind α}
    (h : ∀ c, q c = false → g c = []) :
    (k.keepAttributes q).children.flatMap g = k.children.flatMap g := by
  have hfilter (l : List α) : (l.filter q).flatMap g = l.flatMap g := by
    induction l with
    | nil => rfl
    | cons c rest ih =>
      cases hc : q c <;> simp [hc, ih, h]
  cases k with
  | opening name attributes selfClosing => exact hfilter attributes
  | _ => rfl

end Kind

namespace Tree

/-- Whether a renaming reaches a node. -/
noncomputable def reaches (f : NodeId → NodeId) (e : NodeId) : Bool :=
  @decide (∃ n, f n = e) (Classical.propDecidable _)

/-- A renaming reaches what some node is renamed to. -/
@[simp] theorem reaches_iff {f : NodeId → NodeId} {e : NodeId} :
    reaches f e = true ↔ ∃ n, f n = e := by
  simp [reaches]

/-- A renaming reaches every renamed node. -/
theorem reaches_self (f : NodeId → NodeId) (n : NodeId) : reaches f (f n) = true :=
  reaches_iff.mpr ⟨n, rfl⟩

/-- The node `f n` of `a` has the kind that `n` has in `p`, but for annotations. -/
inductive Twins (label : Text) (f : NodeId → NodeId) (a p : Tree) (n : NodeId) : Prop
  /-- If the node is a tag, it may list more. -/
  | same (h : (a.kind (f n)).keepAttributes (reaches f) = (p.kind n).map f)
  /-- The node is an annotation that was given another string. -/
  | extended {s s' : NodeId} (hkind : p.kind n = .attr label (some s)) (hform : p.form s = .str)
      (hkind' : a.kind (f n) = .attr label (some s')) (hform' : a.form s' = .str)
      (hnew : reaches f s' = false)

/-- A node of `a` that `f` does not reach is an annotation or the string of one. -/
inductive Spare (label : Text) (f : NodeId → NodeId) (a : Tree) (e : NodeId) : Prop
  | string (h : a.form e = .str)
  | note {s : NodeId} (hkind : a.kind e = .attr label (some s)) (hform : a.form s = .str)
      (hnew : reaches f s = false)

/-- The store `a` is `p` with annotations called `label`, where the node `n` of `p` is called
`f n`.  Nodes that will be added to both stores are in step already. -/
structure Alike (label : Text) (f : NodeId → NodeId) (a p : Tree) : Prop where
  injective : Function.Injective f
  ahead : ∀ k, f (p.size + k) = a.size + k
  lt_size : ∀ n < p.size, f n < a.size
  root_eq : f root = root
  span_eq : ∀ n, a.span (f n) = p.span n
  twins : ∀ n, Twins label f a p n
  spare : ∀ e, reaches f e = false → Spare label f a e
  listed : ∀ n, ∀ e ∈ a.attributes n, reaches f e = false → a.attributeName e = some label

/-- A store is alike to itself. -/
theorem Alike.refl (label : Text) (t : Tree) : Alike label id t t where
  injective _ _ h := h
  ahead _ := rfl
  lt_size _ h := h
  root_eq := rfl
  span_eq _ := rfl
  twins n := by
    refine .same ?_
    exact (Kind.keepAttributes_of_all (reaches_self id) _).trans (Kind.map_id _).symm
  spare e he := absurd (reaches_self id e) (by simp [he])
  listed _ e _ he := absurd (reaches_self id e) (by simp [he])

/-- The text of a template is the same where its holes hold the same literals. -/
theorem foldChunks_map {a p : Tree} {f : NodeId → NodeId} (chunks : List Text)
    {holes : List NodeId} (hholes : ∀ hole ∈ holes, a.literalText (f hole) = p.literalText hole) :
    a.foldChunks chunks (holes.map f) = p.foldChunks chunks holes := by
  induction chunks generalizing holes with
  | nil => simp only [foldChunks]
  | cons chunk rest ih =>
    cases holes with
    | nil =>
      have hrest : a.foldChunks rest ([].map f) = p.foldChunks rest [] := ih (by simp)
      simp only [List.map_nil, foldChunks]
      exact congrArg _ hrest
    | cons hole holes =>
      simp only [List.map_cons, foldChunks]
      rw [hholes hole List.mem_cons_self, ih fun c hc => hholes c (List.mem_cons_of_mem _ hc)]

namespace Alike

variable {label : Text} {f : NodeId → NodeId} {a p : Tree}

theorem form_eq (h : Alike label f a p) (n : NodeId) : a.form (f n) = p.form n := by
  rcases h.twins n with hsame | ⟨hkind, -, hkind', -, -⟩
  · have hform := congrArg Kind.form hsame
    rwa [Kind.form_keepAttributes, Kind.form_map] at hform
  · rw [form, form, hkind, hkind']
    rfl

/-- A node that is neither a tag nor an annotation has the same kind. -/
theorem kind_eq (h : Alike label f a p) {n : NodeId} {k : Kind NodeId} (hn : p.kind n = k)
    (hform : k.form ≠ .opening) (hlabel : ∀ s, k ≠ .attr label (some s)) :
    a.kind (f n) = k.map f := by
  rcases h.twins n with hsame | ⟨hkind, -, -, -, -⟩
  · rw [Kind.keepAttributes_of_form, hn] at hsame
    · exact hsame
    · rwa [← form, h.form_eq, form, hn]
  · exact absurd (hn.symm.trans hkind) (hlabel _)

/-- An attribute has the same name in both stores. -/
theorem attributeName_eq (h : Alike label f a p) (n : NodeId) :
    a.attributeName (f n) = p.attributeName n := by
  rcases h.twins n with hsame | ⟨hkind, -, hkind', -, -⟩
  · unfold attributeName
    cases hk : p.kind n <;> cases hk' : a.kind (f n) <;>
      simp_all [Kind.keepAttributes, Kind.map]
  · rw [attributeName, attributeName, hkind, hkind']

/-- But for added annotations a tag lists the same attributes in both stores. -/
theorem attributes_eq (h : Alike label f a p) (n : NodeId) :
    (a.attributes (f n)).filter (reaches f) = (p.attributes n).map f := by
  rcases h.twins n with hsame | ⟨hkind, -, hkind', -, -⟩
  · unfold attributes
    cases hk : p.kind n <;> cases hk' : a.kind (f n) <;>
      simp_all [Kind.keepAttributes, Kind.map]
  · rw [attributes, attributes, hkind, hkind']
    rfl

section Upwards

variable (h : Alike label f a p) (ha : a.Linked) (hp : p.Linked)
include h ha hp

/-- Above a node that is not the string of an annotation stands the same node, with the same
kind but for annotations. -/
theorem parent_of_child {n q : NodeId} (hparent : p.parent n = some q)
    (hn : p.form n ≠ .str ∨ p.form q ≠ .attr) :
    a.parent (f n) = some (f q) ∧ (a.kind (f q)).keepAttributes (reaches f) = (p.kind q).map f := by
  have hchild : n ∈ (p.kind q).children := hp.mem_children.mpr hparent
  rcases h.twins q with hsame | ⟨hkind, hstr, -, -, -⟩
  · refine ⟨?_, hsame⟩
    rw [← ha.mem_children, children, ← Kind.mem_children_keepAttributes (reaches_self f n), hsame,
      Kind.children_map]
    exact List.mem_map_of_mem hchild
  · rw [hkind] at hchild
    obtain rfl := List.mem_singleton.mp hchild
    exact absurd (congrArg Kind.form hkind) (hn.resolve_left fun hne => hne hstr)

/-- Above a node that is no string stands the same node. -/
theorem parent_eq {n : NodeId} (hn : p.form n ≠ .str) : a.parent (f n) = (p.parent n).map f := by
  cases hparent : p.parent n with
  | some q => exact (h.parent_of_child ha hp hparent (Or.inl hn)).1
  | none =>
    rw [Option.map_none, Option.eq_none_iff_forall_ne_some]
    intro e he
    have hchild : f n ∈ (a.kind e).children := ha.mem_children.mpr he
    cases hreach : reaches f e with
    | false =>
      cases h.spare e hreach with
      | string hform =>
        unfold form at hform
        cases hk : a.kind e <;> simp_all [Kind.form, Kind.children]
      | note hkind _ hnew =>
        rw [hkind] at hchild
        obtain rfl := List.mem_singleton.mp hchild
        exact absurd (reaches_self f n) (by simp [hnew])
    | true =>
      obtain ⟨q, rfl⟩ := reaches_iff.mp hreach
      rcases h.twins q with hsame | ⟨-, -, hkind', -, hnew⟩
      · rw [← Kind.mem_children_keepAttributes (reaches_self f n), hsame, Kind.children_map,
          List.mem_map_of_injective h.injective] at hchild
        rw [hp.mem_children.mp hchild] at hparent
        exact absurd hparent (by simp)
      · rw [hkind'] at hchild
        obtain rfl := List.mem_singleton.mp hchild
        exact absurd (reaches_self f n) (by simp [hnew])

/-- Looking up from a node that is no string finds the same nodes. -/
theorem ancestors_eq {n : NodeId} (hn : p.form n ≠ .str) :
    a.ancestors (f n) = (p.ancestors n).map f := by
  induction hp.grounded n with
  | intro n _ ih =>
    have hparent := h.parent_eq ha hp hn
    cases habove : p.parent n with
    | none =>
      rw [ha.ancestors_eq_nil (hparent.trans (by rw [habove]; rfl)), hp.ancestors_eq_nil habove,
        List.map_nil]
    | some q =>
      rw [ha.ancestors_eq_cons (hparent.trans (by rw [habove]; rfl)), hp.ancestors_eq_cons habove,
        List.map_cons, ih q habove (hp.form_ne_str habove)]

/-- A node hangs under the root in both stores or in neither. -/
theorem isAttached_eq {n : NodeId} (hn : p.form n ≠ .str) :
    a.isAttached (f n) = p.isAttached n := by
  have hroot (m : NodeId) : f m = root ↔ m = root := by
    constructor
    · exact fun hm => h.injective (hm.trans h.root_eq.symm)
    · rintro rfl
      exact h.root_eq
  rw [Bool.eq_iff_iff, isAttached, isAttached, h.ancestors_eq ha hp hn]
  simp [hroot]

/-- The nearest node of a form above is the same in both stores. -/
theorem enclosing_eq {n : NodeId} (hn : p.form n ≠ .str) (form : Form) :
    a.enclosing (f n) form = (p.enclosing n form).map f := by
  unfold enclosing findAncestor
  rw [h.ancestors_eq ha hp hn, List.find?_map]
  refine congrArg (Option.map f) (congrArg (List.find? · _) (funext fun m => ?_))
  exact congrArg (fun g => decide (g = form)) (h.form_eq m)

end Upwards

section Around

variable (h : Alike label f a p)
include h

/-- The attribute that goes by a name is the same, unless annotations go by that name. -/
theorem attributeNamed_eq {name : Text} (hne : label ≠ name) (n : NodeId) :
    a.attributeNamed (a.attributes (f n)) name =
      (p.attributeNamed (p.attributes n) name).map f := by
  have hspare (e : NodeId) : (reaches f e && (a.attributeName e == some name)) =
      (a.attributeName e == some name) := by
    cases hreach : reaches f e with
    | true => rfl
    | false =>
      cases h.spare e hreach with
      | string hform =>
        unfold form at hform
        unfold attributeName
        cases hk : a.kind e <;> simp_all [Kind.form]
      | note hkind _ _ =>
        rw [attributeName, hkind]
        simpa using hne
  have hkept : (a.attributes (f n)).find? (fun e => a.attributeName e == some name) =
      ((a.attributes (f n)).filter (reaches f)).find? fun e => a.attributeName e == some name := by
    rw [List.find?_filter]
    refine congrArg (List.find? · _) (funext fun e => ?_)
    rw [← hspare e, Bool.decide_and, Bool.decide_eq_true]
    simp
  unfold attributeNamed
  rw [hkept, h.attributes_eq, List.find?_map]
  refine congrArg (Option.map f) (congrArg (List.find? · _) (funext fun m => ?_))
  exact congrArg (· == some name) (h.attributeName_eq m)

/-- An attribute that is no annotation has the same value in both stores. -/
theorem attributeValue_eq {name : Text} (hne : label ≠ name) {n : NodeId}
    (hname : p.attributeName n = some name) :
    a.attributeValue (f n) = (p.attributeValue n).map f := by
  obtain ⟨value, hkind⟩ := attributeName_eq_some hname
  have hkind' := h.kind_eq hkind (by simp [Kind.form]) fun s heq => hne (Kind.attr.inj heq).1.symm
  rw [attributeValue, attributeValue, hkind, hkind']
  rfl

/-- Below anything but a tag or an element, a node has the same kind. -/
theorem kind_below (hp : p.Sound) {n c : NodeId} (hc : c ∈ p.children n)
    (hn : p.form n ≠ .opening ∧ p.form n ≠ .element) : a.kind (f c) = (p.kind c).map f := by
  have hadm := hp.shaped hc
  refine h.kind_eq rfl (fun hform => ?_) fun s hkind => ?_
  · rw [show p.form c = .opening from hform] at hadm
    exact hn.2 hadm
  · rw [show p.form c = .attr from congrArg Kind.form hkind] at hadm
    exact hn.1 hadm

/-- A shorthand attribute has the same classes, unless it counts as an annotation. -/
theorem shorthandClasses_eq (hp : p.Sound) (hne : label ≠ Vocabulary.shorthand) {n : NodeId}
    (hname : p.attributeName n = some Vocabulary.shorthand) :
    a.shorthandClasses (f n) = p.shorthandClasses n := by
  obtain ⟨value, hkind⟩ := attributeName_eq_some hname
  unfold shorthandClasses
  rw [h.attributeValue_eq hne hname]
  cases hvalue : p.attributeValue n with
  | none => rfl
  | some v =>
    rw [attributeValue, hkind] at hvalue
    subst hvalue
    have hv : a.kind (f v) = (p.kind v).map f :=
      h.kind_below hp (n := n) (by simp [children, hkind, Kind.children])
        (by simp [form, hkind, Kind.form])
    dsimp only [Option.map_some]
    rw [hv, h.span_eq]
    cases hk : p.kind v with
    | container expression =>
      cases expression with
      | none => rfl
      | some e =>
        have he : a.kind (f e) = (p.kind e).map f :=
          h.kind_below hp (n := v) (by simp [children, hk, Kind.children])
            (by simp [form, hk, Kind.form])
        dsimp only [Kind.map, Option.map_some]
        rw [he, h.span_eq]
        cases p.kind e <;> rfl
    | _ => rfl

/-- A style attribute has the same expression, unless it counts as an annotation. -/
theorem styleExpression_eq (hp : p.Sound) (hne : label ≠ Vocabulary.style) {n : NodeId}
    (hname : p.attributeName n = some Vocabulary.style) :
    a.styleExpression (f n) = (p.styleExpression n).map f := by
  obtain ⟨value, hkind⟩ := attributeName_eq_some hname
  unfold styleExpression
  rw [h.attributeValue_eq hne hname]
  cases hvalue : p.attributeValue n with
  | none => rfl
  | some v =>
    rw [attributeValue, hkind] at hvalue
    subst hvalue
    have hv : a.kind (f v) = (p.kind v).map f :=
      h.kind_below hp (n := n) (by simp [children, hkind, Kind.children])
        (by simp [form, hkind, Kind.form])
    simp only [Option.map_some, Option.map_eq_map, hv]
    cases p.kind v <;> rfl

/-- A hole of a template holds the same literal in both stores. -/
theorem literalText_eq (hp : p.Sound) {template hole : NodeId} (hhole : hole ∈ p.children template)
    (htemplate : p.form template = .template) : a.literalText (f hole) = p.literalText hole := by
  have hkind : a.kind (f hole) = (p.kind hole).map f :=
    h.kind_below hp hhole (by simp [htemplate])
  unfold literalText
  rw [hkind]
  cases hk : p.kind hole with
  | fragment parts =>
    rcases parts with _ | ⟨only, _ | ⟨next, rest⟩⟩
    · rfl
    · have honly : a.kind (f only) = (p.kind only).map f :=
        h.kind_below hp (n := hole) (by simp [children, hk, Kind.children])
          (by simp [form, hk, Kind.form])
      simp only [Kind.map, List.map_cons, List.map_nil, honly]
      cases p.kind only <;> rfl
    · rfl
  | _ => rfl

/-- A template stands for the same classes. -/
theorem staticClasses_eq (hp : p.Sound) (n : NodeId) (builder : Option Text) :
    a.staticClasses (f n) builder = p.staticClasses n builder := by
  by_cases hform : p.form n = .template
  · have hforms : p.form n ≠ .opening ∧ p.form n ≠ .element := by simp [hform]
    unfold form at hform
    cases hk : p.kind n with
    | template tag chunks holes =>
      have hchildren : p.children n = tag :: holes := by rw [children, hk]; rfl
      have htag : a.kind (f tag) = (p.kind tag).map f :=
        h.kind_below hp (n := n) (by simp [hchildren]) hforms
      have hfold : a.foldChunks chunks (holes.map f) = p.foldChunks chunks holes :=
        foldChunks_map chunks fun hole hhole =>
          h.literalText_eq hp (show hole ∈ p.children n by simp [hchildren, hhole])
            (by rw [form, hk]; rfl)
      have hkind := h.kind_eq hk (by simp [Kind.form]) (by simp)
      unfold staticClasses
      rw [hk, hkind]
      dsimp only [Kind.map]
      rw [htag, hfold]
      cases p.kind tag <;> rfl
    | _ =>
      rw [hk] at hform
      exact absurd hform (by simp [Kind.form])
  · have hnone {t : Tree} {m : NodeId} (hm : t.form m ≠ .template) :
        t.staticClasses m builder = none := by
      unfold form at hm
      unfold staticClasses
      cases hk : t.kind m <;> simp_all [Kind.form]
    rw [hnone hform, hnone (by rwa [h.form_eq])]

/-- A template stands where it may in both stores, or in neither. -/
theorem permits_eq (ha : a.Linked) (hp : p.Linked) (scope : Scope) {n : NodeId}
    (hn : p.form n ≠ .str) : Stylist.permits scope (f n) a = Stylist.permits scope n p := by
  unfold Stylist.permits
  rw [h.enclosing_eq ha hp hn]
  cases p.enclosing n .attr with
  | none => rfl
  | some above =>
    dsimp only [Option.map_some, Option.bind_some]
    rw [h.attributeName_eq]

end Around

section Downwards

variable (h : Alike label f a p)
include h

/-- Below an annotation there are only strings of annotations. -/
theorem unreached_below {d : Nat} {e m : NodeId} (he : reaches f e = false)
    (hm : m ∈ a.descendantsWithin d e) : reaches f m = false := by
  induction d generalizing e with
  | zero => exact absurd hm (by simp [descendantsWithin])
  | succ d ih =>
    rw [descendantsWithin] at hm
    obtain ⟨c, hc, hm⟩ := List.mem_flatMap.mp hm
    have hcnew : reaches f c = false := by
      cases h.spare e he with
      | string hform =>
        unfold form at hform
        unfold children at hc
        cases hk : a.kind e <;> simp_all [Kind.form, Kind.children]
      | note hkind _ hnew =>
        rw [children, hkind] at hc
        rwa [List.mem_singleton.mp hc]
    rcases List.mem_cons.mp hm with rfl | hm
    · exact hcnew
    · exact ih hcnew hm

/-- A walk down meets the same nodes, annotations and strings apart. -/
theorem filter_descendantsWithin {q q' : NodeId → Bool} (hq : ∀ n, q' (f n) = q n)
    (hnew : ∀ e, reaches f e = false → q' e = false) (hstr : ∀ n, p.form n = .str → q n = false)
    (d : Nat) (n : NodeId) : (a.descendantsWithin d (f n)).filter q' =
      ((p.descendantsWithin d n).filter q).map f := by
  induction d generalizing n with
  | zero => rfl
  | succ d ih =>
    have hnone {e : NodeId} (he : reaches f e = false) :
        (e :: a.descendantsWithin d e).filter q' = [] := by
      rw [List.filter_eq_nil_iff]
      intro m hm
      rcases List.mem_cons.mp hm with rfl | hm
      · simp [hnew m he]
      · simp [hnew m (h.unreached_below he hm)]
    have hbelow (c : NodeId) : (f c :: a.descendantsWithin d (f c)).filter q' =
        ((c :: p.descendantsWithin d c).filter q).map f := by
      rw [List.filter_cons, List.filter_cons, hq, ih]
      split <;> rfl
    rw [descendantsWithin, descendantsWithin, List.filter_flatMap, List.filter_flatMap,
      List.map_flatMap]
    rcases h.twins n with hsame | @⟨s, s', hkind, hform, hkind', -, hreach⟩
    · rw [children, ← Kind.flatMap_children_keepAttributes (q := reaches f) fun e he => hnone he,
        hsame, Kind.children_map, List.flatMap_map]
      exact List.flatMap_congr fun c _ => hbelow c
    · have hleaf : p.descendantsWithin d s = [] := by
        unfold form at hform
        cases d with
        | zero => rfl
        | succ d =>
          unfold descendantsWithin children
          cases hk : p.kind s <;> simp_all [Kind.form, Kind.children]
      simp [children, hkind, hkind', Kind.children, hnone hreach, hleaf, hstr s hform]

/-- A search that passes over annotations visits the same nodes in both stores. -/
theorem filter_descendants (ha : a.Linked) (hp : p.Linked) {q q' : NodeId → Bool}
    (hq : ∀ n, q' (f n) = q n) (hnew : ∀ e, reaches f e = false → q' e = false)
    (hstr : ∀ n, p.form n = .str → q n = false) :
    (a.descendants root).filter q' = ((p.descendants root).filter q).map f := by
  have hwide := h.filter_descendantsWithin hq hnew hstr (max a.size p.size) root
  rw [h.root_eq, ha.descendantsWithin_eq (Nat.le_add_right ..) (Nat.le_max_left ..),
    hp.descendantsWithin_eq (Nat.le_add_right ..) (Nat.le_max_right ..)] at hwide
  exact hwide

/-- An identifier has the same name. -/
theorem kind_ident_iff (n : NodeId) (name : Text) :
    a.kind (f n) = .ident name ↔ p.kind n = .ident name := by
  rcases h.twins n with hsame | ⟨hkind, -, hkind', -, -⟩
  · cases hk : p.kind n <;> cases hk' : a.kind (f n) <;>
      simp_all [Kind.keepAttributes, Kind.map]
  · simp [hkind, hkind']

/-- A name is referred to by the same nodes. -/
theorem referencesTo_eq (ha : a.Linked) (hp : p.Linked) (name : Text) :
    a.referencesTo name = (p.referencesTo name).map f := by
  refine h.filter_descendants ha hp (fun n => ?_) (fun e he => ?_) fun n hn => ?_
  · rw [decide_eq_decide, h.kind_ident_iff]
  · refine decide_eq_false fun hkind => ?_
    cases h.spare e he with
    | string hform =>
      exact absurd ((congrArg Kind.form hkind).symm.trans hform) (by simp [Kind.form])
    | note hkind' => exact absurd (hkind'.symm.trans hkind) (by simp)
  · refine decide_eq_false fun hkind => ?_
    exact absurd ((congrArg Kind.form hkind).symm.trans hn) (by simp [Kind.form])

/-- A node uses a name in both stores or in neither. -/
theorem uses_eq (n : NodeId) (name : Text) : a.uses name (f n) = p.uses name n := by
  unfold uses
  rcases h.twins n with hsame | ⟨hkind, -, hkind', -, -⟩
  · cases hk : p.kind n <;> cases hk' : a.kind (f n) <;>
      simp_all [Kind.keepAttributes, Kind.map]
  · rw [hkind, hkind']

/-- A name is in use in both stores or in neither. -/
theorem isReferenced_eq (ha : a.Linked) (hp : p.Linked) (name : Text) :
    a.isReferenced name = p.isReferenced name := by
  have hstr {t : Tree} {n : NodeId} (hn : t.form n = .str) : t.uses name n = false := by
    unfold form at hn
    unfold uses
    cases hk : t.kind n <;> simp_all [Kind.form]
  have hfound : (a.descendants root).filter (a.uses name) =
      ((p.descendants root).filter (p.uses name)).map f := h.filter_descendants ha hp
    (fun n => h.uses_eq n name)
    (fun e he => by
      cases h.spare e he with
      | string hform => exact hstr hform
      | note hkind => rw [uses, hkind]) (fun n hn => hstr hn)
  have hany (l : List NodeId) (q : NodeId → Bool) : (l.filter q).any q = l.any q := by
    simp [List.any_filter]
  have hsame : a.uses name ∘ f = p.uses name := funext fun n => h.uses_eq n name
  rw [isReferenced, ← hany, hfound, List.any_map, hsame, hany, isReferenced]

end Downwards

end Alike

end Tree

end JsxStyle
