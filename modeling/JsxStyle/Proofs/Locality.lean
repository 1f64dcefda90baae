import JsxStyle.Proofs.Marks
import JsxStyle.Proofs.Printing
import JsxStyle.Proofs.Tiles
import Mathlib.Data.Finset.Basic

/-!
# Edits stay where they are made

Attributes of some opening tags are removed, replaced and added, and some import
statements are removed.  Everything else of the module is printed as it was
written: what is printed is the source with the places of those tags and
statements rewritten.  The tags are those in the code of the module itself, not
in expressions, where the places of nodes need not cover the text around them.

The changes leave the nodes of the module but those tags and the program as they
were, and marks are found on the tags and above them only.  So an element is
copied, or printed piece by piece; the pieces cover it, and each of them is, by
induction, its place in the source with the tags in it rewritten.

* `Text.patched`: a text with some places rewritten;
* `Confined.edit`: what the changes leave alone;
* `printed_patched`: the printed module is the patched source.
-/

namespace JsxStyle

/-- Places of a text and what is put there, in order and apart from each other. -/
inductive Patches : Nat → Nat → List (Span × Text) → Prop
  | nil {lo hi : Nat} (hle : lo ≤ hi) : Patches lo hi []
  | cons {lo hi : Nat} {s : Span} {new : Text} {rest : List (Span × Text)} (hlo : lo ≤ s.lo)
      (hs : s.lo ≤ s.hi) (hrest : Patches s.hi hi rest) : Patches lo hi ((s, new) :: rest)

/-- The text from `lo` to `hi` with what `patches` puts in their places. -/
def Text.patched (src : Text) (hi : Nat) : (lo : Nat) → (patches : List (Span × Text)) → Text
  | lo, [] => src.slice lo hi
  | lo, (s, new) :: rest => src.slice lo s.lo ++ new ++ patched src hi s.hi rest

namespace Patches

variable {src : Text} {lo mid hi : Nat} {ps qs : List (Span × Text)}

/-- Patches lie in order between their two ends. -/
theorem le (h : Patches lo hi ps) : lo ≤ hi := by
  induction h with
  | nil hle => exact hle
  | cons hlo hs _ ih => exact Nat.le_trans hlo (Nat.le_trans hs ih)

/-- Patches in a range are patches in one that begins earlier. -/
theorem widen (hle : lo ≤ mid) (h : Patches mid hi ps) : Patches lo hi ps := by
  cases h with
  | nil hmid => exact .nil (Nat.le_trans hle hmid)
  | cons hlo hs hrest => exact .cons (Nat.le_trans hle hlo) hs hrest

/-- Patches in one range and in the next are patches in both together. -/
theorem append (h : Patches lo mid ps) (h' : Patches mid hi qs) : Patches lo hi (ps ++ qs) := by
  induction h with
  | nil hle => exact h'.widen hle
  | cons hlo hs _ ih => exact .cons hlo hs (ih h')

/-- Text in front of all patches stays. -/
theorem patched_widen (hle : lo ≤ mid) (h : Patches mid hi ps) :
    src.slice lo mid ++ src.patched hi mid ps = src.patched hi lo ps := by
  cases h with
  | nil hmid => exact Text.slice_append_slice src hle hmid
  | cons hlo hs hrest =>
    rw [Text.patched, Text.patched, ← List.append_assoc, ← List.append_assoc,
      Text.slice_append_slice src hle hlo]

/-- Neighbouring ranges are patched one by one. -/
theorem patched_append (h : Patches lo mid ps) (h' : Patches mid hi qs) :
    src.patched mid lo ps ++ src.patched hi mid qs = src.patched hi lo (ps ++ qs) := by
  induction h with
  | nil hle => exact h'.patched_widen hle
  | cons hlo hs _ ih =>
    rw [List.cons_append, Text.patched, Text.patched, List.append_assoc, ih h']

/-- Patches that put back what was there change nothing. -/
theorem patched_same (h : Patches lo hi ps) (hsame : ∀ p ∈ ps, p.2 = p.1.of src) :
    src.patched hi lo ps = src.slice lo hi := by
  induction h with
  | nil => rfl
  | @cons lo hi s new rest hlo hs hrest ih =>
    obtain ⟨hnew, hall⟩ := List.forall_mem_cons.mp hsame
    have hof : new = src.slice s.lo s.hi := hnew
    rw [Text.patched, ih hall, hof, Text.slice_append_slice src hlo hs,
      Text.slice_append_slice src (Nat.le_trans hlo hs) hrest.le]

end Patches

namespace Tree

/-- An attached opening tag that stands in elements and the program only. -/
structure AtSurface (t : Tree) (o : NodeId) : Prop where
  attached : t.isAttached o = true
  form : t.form o = .opening
  above : ∀ a ∈ t.ancestors o, t.form a = .element ∨ t.form a = .program

/-- A detached node that was added after the first `k`. -/
structure Fresh (t : Tree) (k : Nat) (new : NodeId) : Prop where
  added : k ≤ new
  lt_size : new < t.size
  parent : t.parent new = none

theorem Fresh.ne {t : Tree} {k : Nat} {new n : NodeId} (h : t.Fresh k new) (hn : n < k) :
    n ≠ new := by
  rintro rfl
  exact absurd hn (Nat.not_lt.mpr h.added)

/-- A change to the attributes of a tag in `S`, or the removal of an import in
`I`, or a node that is added for such a change.  The first `k` nodes are not fresh. -/
inductive Edit (k : Nat) (S I : Finset NodeId) (t : Tree) : Tree → Prop
  | alloc (kind : Kind NodeId) (span : Option Span) (hfresh : ∀ c ∈ kind.children, t.Fresh k c)
      (hnodup : kind.children.Nodup) : Edit k S I t (alloc kind span t).2
  | remove {tag attr : NodeId} (htag : tag ∈ S) (hattr : attr ∈ t.attributes tag) :
      Edit k S I t (t.remove attr)
  | replace {tag attr new : NodeId} (htag : tag ∈ S) (hattr : attr ∈ t.attributes tag)
      (hnew : t.Fresh k new) : Edit k S I t (t.replace attr new)
  | replaceAt {tag attr new : NodeId} (htag : tag ∈ S) (hattr : attr ∈ t.attributes tag)
      (hnew : t.Fresh k new) : Edit k S I t (t.replaceAt attr new)
  | insertAfter {tag attr new : NodeId} {t' : Tree} (htag : tag ∈ S)
      (hattr : attr ∈ t.attributes tag) (hnew : t.Fresh k new)
      (h : t.insertAfter attr new = some t') : Edit k S I t t'
  | append {tag new : NodeId} {t' : Tree} (htag : tag ∈ S) (hnew : t.Fresh k new)
      (h : t.append tag new = some t') : Edit k S I t t'
  | removeImport {i : NodeId} (hi : i ∈ I) : Edit k S I t (t.remove i)

/-- Where the tags in `S` and the imports in `I` stood in `t₀`, in document order,
and what is printed for them in `t`. -/
def patches (t₀ t : Tree) (S I : Finset NodeId) (nodes : List NodeId) : List (Span × Text) :=
  nodes.filterMap fun n =>
    if n ∈ S then (t₀.span n).map (·, (t.printNode n).code)
    else if n ∈ I then (t₀.span n).map (·, [])
    else none

/-- What edits leave of the module `t₀`. -/
structure Confined (S I : Finset NodeId) (t₀ t : Tree) : Prop where
  linked : t.Linked
  source : t.source = t₀.source
  size_le : t₀.size ≤ t.size
  form : ∀ o ∈ S, t.form o = .opening
  span : ∀ n < t₀.size, t.span n = t₀.span n
  kind : ∀ n < t₀.size, n ∉ S → n ≠ root → t.kind n = t₀.kind n
  body : ∃ J ⊆ I, t.kind root = .program ((t₀.children root).filter (· ∉ J))
  path : ∀ o ∈ S, ∀ n, t₀.Within o n → t.parent n = t₀.parent n
  imports : ∀ i ∈ I, i < t₀.size ∧ (t.parent i = some root ∨ t.parent i = none)
  marked : ∀ n < t₀.size, t.dirty n = true → n = root ∨ ∃ o ∈ S, t₀.Within o n
  rises : ∀ o ∈ S, t.dirty o = true → ∀ n, t₀.Within o n → t.dirty n = true
  body_clean : t.dirty root = false → t.kind root = t₀.kind root

variable {t₀ t t' : Tree} {S I : Finset NodeId}

namespace AtSurface

variable {o n a : NodeId}

/-- No tag at the surface stands below another one, nor below one of its attributes. -/
theorem form_of_below (h : t₀.AtSurface o) (ht₀ : t₀.Linked) (hbelow : t₀.Below o a) :
    t₀.form a = .element ∨ t₀.form a = .program :=
  h.above a (ht₀.mem_ancestors_iff.mpr hbelow)

/-- From a tag at the surface upwards there are only elements and the program. -/
theorem form_of_within (h : t₀.AtSurface o) (ht₀ : t₀.Linked) (hwithin : t₀.Within o a) :
    t₀.form a = .opening ∨ t₀.form a = .element ∨ t₀.form a = .program := by
  rcases Relation.reflTransGen_iff_eq_or_transGen.mp hwithin with rfl | hbelow
  · exact Or.inl h.form
  · exact Or.inr (h.form_of_below ht₀ hbelow)

/-- Nothing above a tag at the surface hangs directly under such a tag. -/
theorem parent_ne {tag : NodeId} (h : t₀.AtSurface o) (htag : t₀.AtSurface tag)
    (ht₀ : t₀.Linked) (hwithin : t₀.Within o n) : t₀.parent n ≠ some tag := by
  intro hparent
  have hbelow : t₀.Below o tag := Relation.TransGen.tail' hwithin hparent
  rcases h.form_of_below ht₀ hbelow with hform | hform <;>
    exact absurd (htag.form.symm.trans hform) (by simp)

theorem lt_size (h : t₀.AtSurface o) (ht₀ : t₀.Linked) (hwithin : t₀.Within o n) : n < t₀.size := by
  induction hwithin with
  | refl => exact lt_size_of_form (by rw [h.form]; simp)
  | tail _ hup _ => exact ht₀.parent_lt_size hup

end AtSurface

/-- The way up is the same in two stores if the parents on it are. -/
theorem within_iff_of_path {o : NodeId}
    (hpath : ∀ n, t₀.Within o n → t.parent n = t₀.parent n) (n : NodeId) :
    t.Within o n ↔ t₀.Within o n := by
  constructor
  · intro h
    induction h with
    | refl => exact .refl
    | tail _ hup ih => exact .tail ih ((hpath _ ih).symm.trans hup)
  · intro h
    induction h with
    | refl => exact .refl
    | tail hw hup ih => exact .tail ih ((hpath _ hw).trans hup)

/-- A node and its ancestors are the nodes that it is within. -/
theorem mem_cons_ancestors_iff (ht : t.Linked) {n a : NodeId} :
    a ∈ n :: t.ancestors n ↔ t.Within n a := by
  rw [List.mem_cons, ht.mem_ancestors_iff, Within, Relation.reflTransGen_iff_eq_or_transGen]
  rfl

namespace Confined

variable (ht₀ : t₀.Linked) (hS : ∀ o ∈ S, t₀.AtSurface o)
  (hI : ∀ i ∈ I, t₀.form i = .importing ∧ i ∈ t₀.children root)

include ht₀ hS in
/-- Changes at the attributes of a tag are confined. -/
theorem editAt (h : Confined S I t₀ t) {tag : NodeId} (htag : tag ∈ S) (ht' : t'.Linked)
    {k : Kind NodeId} {up : NodeId → Option NodeId} (he : EditAt t t' tag k up)
    (hk : k.form = .opening) (hup : ∀ n < t₀.size, t.parent n ≠ some tag → up n = t.parent n) :
    Confined S I t₀ t' := by
  have hroot : root ≠ tag := by
    rintro rfl
    obtain ⟨J, -, hbody⟩ := h.body
    have hform := h.form _ htag
    rw [Tree.form, hbody] at hform
    exact absurd hform (by simp [Kind.form])
  have hpath : ∀ o ∈ S, ∀ n, t₀.Within o n → t'.parent n = t₀.parent n := by
    intro o ho n hn
    have hsame := h.path o ho n hn
    rw [he.parent,
      hup n ((hS o ho).lt_size ht₀ hn) (hsame ▸ (hS o ho).parent_ne (hS tag htag) ht₀ hn),
      hsame]
  have hdirty (n : NodeId) : t'.dirty n = true ↔ t.dirty n = true ∨ t₀.Within tag n := by
    rw [he.dirty, Bool.or_eq_true, decide_eq_true_eq, mem_cons_ancestors_iff ht',
      within_iff_of_path (hpath tag htag)]
    have hlt (hn : t₀.Within tag n) : n < t.size :=
      Nat.lt_of_lt_of_le ((hS tag htag).lt_size ht₀ hn) h.size_le
    grind
  refine ⟨ht', he.source.trans h.source, he.size ▸ h.size_le, ?_, ?_, ?_, ?_, hpath, ?_, ?_, ?_, ?_⟩
  · intro o ho
    rw [Tree.form, he.kind]
    split
    · exact hk
    · exact h.form o ho
  · intro n hn
    rw [he.span, h.span n hn]
  · intro n hn hnS hne
    have htagged : n ≠ tag := by
      rintro rfl
      exact hnS htag
    rw [he.kind, if_neg htagged, h.kind n hn hnS hne]
  · rw [he.kind, if_neg hroot]
    exact h.body
  · intro i hi
    obtain ⟨hlt, hparent⟩ := h.imports i hi
    have hne : t.parent i ≠ some tag := by
      rcases hparent with hparent | hparent <;> rw [hparent]
      · exact fun heq => hroot (Option.some.inj heq)
      · simp
    rw [he.parent, hup i hlt hne]
    exact ⟨hlt, hparent⟩
  · intro n hn hnd
    rcases (hdirty n).mp hnd with hnd | hwithin
    · exact h.marked n hn hnd
    · exact Or.inr ⟨tag, htag, hwithin⟩
  · intro o ho hod n hn
    rcases (hdirty o).mp hod with hod | hwithin
    · exact (hdirty n).mpr (Or.inl (h.rises o ho hod n hn))
    · exact (hdirty n).mpr (Or.inr (hwithin.trans hn))
  · intro hclean
    rw [he.kind, if_neg hroot]
    refine h.body_clean (Bool.eq_false_iff.mpr fun hd => ?_)
    exact absurd ((hdirty root).mpr (Or.inl hd)) (by simp [hclean])

include ht₀ hS in
/-- Nothing changes for the module as long as its nodes stay as they are. -/
theorem grow (h : Confined S I t₀ t) (ht' : t'.Linked) (hsource : t'.source = t.source)
    (hsize : t₀.size ≤ t'.size) (hold : ∀ n < t₀.size, t'.node n = t.node n) :
    Confined S I t₀ t' := by
  have hroot := ht₀.nonempty
  have hlt {o n : NodeId} (ho : o ∈ S) (hn : t₀.Within o n) : n < t₀.size :=
    (hS o ho).lt_size ht₀ hn
  refine ⟨ht', hsource.trans h.source, hsize, ?_, ?_, ?_, ?_, ?_, ?_, ?_, ?_, ?_⟩
  · intro o ho
    rw [Tree.form, Tree.kind, hold o (hlt ho .refl)]
    exact h.form o ho
  · intro n hn
    rw [Tree.span, hold n hn]
    exact h.span n hn
  · intro n hn hnS hne
    rw [Tree.kind, hold n hn]
    exact h.kind n hn hnS hne
  · rw [Tree.kind, hold root hroot]
    exact h.body
  · intro o ho n hn
    rw [Tree.parent, hold n (hlt ho hn)]
    exact h.path o ho n hn
  · intro i hi
    rw [Tree.parent, hold i (h.imports i hi).1]
    exact h.imports i hi
  · intro n hn hnd
    rw [dirty, hold n hn] at hnd
    exact h.marked n hn hnd
  · intro o ho hod n hn
    rw [dirty, hold o (hlt ho .refl)] at hod
    rw [dirty, hold n (hlt ho hn)]
    exact h.rises o ho hod n hn
  · intro hclean
    rw [dirty, hold root hroot] at hclean
    rw [Tree.kind, hold root hroot]
    exact h.body_clean hclean

include ht₀ hS in
/-- A node that was added may get another place or mark. -/
theorem update (h : Confined S I t₀ t) {new : NodeId} (hnew : t₀.size ≤ new) {f : Node → Node}
    (hkind : ∀ x, (f x).kind = x.kind) (hparent : ∀ x, (f x).parent = x.parent) :
    Confined S I t₀ (t.update new f) := by
  have hkinds (n : NodeId) : (t.update new f).kind n = t.kind n := by
    rw [Tree.kind, node_update]
    split
    · exact hkind _
    · rfl
  have hparents (n : NodeId) : (t.update new f).parent n = t.parent n := by
    rw [Tree.parent, node_update]
    split
    · exact hparent _
    · rfl
  refine h.grow ht₀ hS (h.linked.congr (size_update ..) hparents
    fun n => congrArg Kind.children (hkinds n)) rfl (by rw [size_update]; exact h.size_le)
    fun n hn => ?_
  have hne : ¬ (n = new ∧ n < t.size) := fun hand => absurd hn (Nat.not_lt.mpr (hand.1 ▸ hnew))
  rw [node_update, if_neg hne]

include ht₀ hS in
/-- A node may be allocated over fresh ones. -/
theorem alloc (h : Confined S I t₀ t) {kind : Kind NodeId} (span : Option Span)
    (hfresh : ∀ c ∈ kind.children, t.Fresh t₀.size c) (hnodup : kind.children.Nodup) :
    Confined S I t₀ (alloc kind span t).2 := by
  have hfree : ∀ c ∈ kind.children, t.parent c = none ∧ c < t.size ∧ c ≠ root := fun c hc =>
    ⟨(hfresh c hc).parent, (hfresh c hc).lt_size,
      Nat.ne_of_gt (Nat.lt_of_lt_of_le ht₀.nonempty (hfresh c hc).added)⟩
  refine h.grow ht₀ hS (linked_alloc h.linked span hfree hnodup) (source_alloc ..) ?_ fun n hn => ?_
  · rw [size_alloc]
    exact Nat.le_succ_of_le h.size_le
  · have hout : n ∉ kind.children := fun hc => absurd hn (Nat.not_lt.mpr (hfresh n hc).added)
    rw [node_alloc, if_neg (Nat.ne_of_lt (Nat.lt_of_lt_of_le hn h.size_le)),
      if_neg fun hc => hout hc.1]

include ht₀ hS in
/-- A fresh node may be hung under every tag in `S`. -/
theorem not_within (h : Confined S I t₀ t) {tag new : NodeId} (htag : tag ∈ S)
    (hnew : t.Fresh t₀.size new) : ¬ t.Within tag new := by
  intro hwithin
  rw [within_iff_of_path (h.path tag htag)] at hwithin
  exact absurd ((hS tag htag).lt_size ht₀ hwithin) (Nat.not_lt.mpr hnew.added)

/-- The items of a tag in `S` are all its children. -/
theorem items_of_mem (h : Confined S I t₀ t) {tag : NodeId} (htag : tag ∈ S) :
    (t.kind tag).items? = some (t.children tag) :=
  items_eq_children (Or.inl (h.form tag htag))

include ht₀ in
/-- No fresh node is the root. -/
theorem ne_root {new : NodeId} (hnew : t.Fresh t₀.size new) : new ≠ root :=
  Nat.ne_of_gt (Nat.lt_of_lt_of_le ht₀.nonempty hnew.added)

include ht₀ hS in
/-- An attribute of a tag in `S` may be replaced by a fresh node. -/
theorem replace (h : Confined S I t₀ t) {tag attr new : NodeId} (htag : tag ∈ S)
    (hattr : attr ∈ t.attributes tag) (hnew : t.Fresh t₀.size new) :
    Confined S I t₀ (t.replace attr new) := by
  have hparent := parent_of_mem_attributes h.linked hattr
  have hlinked := linked_replace h.linked hparent hnew.lt_size hnew.parent (ne_root ht₀ hnew)
    (h.not_within ht₀ hS htag hnew)
  refine h.editAt ht₀ hS htag hlinked (editAt_replace h.linked hparent hnew.lt_size)
    ((Kind.form_replaceChild ..).trans (h.form tag htag)) fun n hn hne => ?_
  have hold : n ≠ attr := fun heq => hne (heq ▸ hparent)
  rw [if_neg (hnew.ne hn), if_neg hold]

include ht₀ hS hI in
/-- An import goes from the body of the program. -/
theorem removeImport (h : Confined S I t₀ t) {i : NodeId} (hi : i ∈ I) :
    Confined S I t₀ (t.remove i) := by
  obtain ⟨hilt, hparent | hparent⟩ := h.imports i hi
  · obtain ⟨J, hJ, hbody⟩ := h.body
    have hform : t.form root = .program := by rw [Tree.form, hbody]; rfl
    have hlinked := linked_remove h.linked hparent (items_eq_children (Or.inr (Or.inl hform)))
    have he := editAt_remove h.linked hparent
    have hkind :
        (t.remove i).kind root = .program ((t₀.children root).filter (· ∉ insert i J)) := by
      rw [he.kind, if_pos rfl, hbody]
      simp [Kind.dropChild, Kind.items?, Kind.setItems, List.filter_filter, not_or]
    have hdirty (n : NodeId) : (t.remove i).dirty n = true ↔ t.dirty n = true ∨ n = root := by
      have hnil := hlinked.ancestors_eq_nil hlinked.root_free
      rw [he.dirty, hnil, Bool.or_eq_true, decide_eq_true_eq, List.mem_singleton]
      have hlt : root < t.size := h.linked.nonempty
      grind
    have hroot {o : NodeId} (ho : o ∈ S) : o ≠ root := by
      rintro rfl
      exact absurd ((h.form _ ho).symm.trans hform) (by simp)
    refine ⟨hlinked, he.source.trans h.source, he.size ▸ h.size_le, ?_, ?_, ?_,
      ⟨insert i J, Finset.insert_subset hi hJ, hkind⟩, ?_, ?_, ?_, ?_, ?_⟩
    · intro o ho
      rw [Tree.form, he.kind, if_neg (hroot ho)]
      exact h.form o ho
    · intro n hn
      rw [he.span, h.span n hn]
    · intro n hn hnS hne
      rw [he.kind, if_neg hne, h.kind n hn hnS hne]
    · intro o ho n hn
      have hne : n ≠ i := by
        rintro rfl
        rcases (hS o ho).form_of_within ht₀ hn with hn | hn | hn <;>
          exact absurd ((hI _ hi).1.symm.trans hn) (by simp)
      rw [he.parent, if_neg hne, h.path o ho n hn]
    · intro j hj
      obtain ⟨hlt, hj⟩ := h.imports j hj
      rw [he.parent]
      split
      · exact ⟨hlt, Or.inr rfl⟩
      · exact ⟨hlt, hj⟩
    · intro n hn hnd
      rcases (hdirty n).mp hnd with hnd | rfl
      · exact h.marked n hn hnd
      · exact Or.inl rfl
    · intro o ho hod n hn
      have hod : t.dirty o = true := ((hdirty o).mp hod).resolve_right (hroot ho)
      exact (hdirty n).mpr (Or.inl (h.rises o ho hod n hn))
    · intro hclean
      exact absurd ((hdirty root).mpr (Or.inr rfl)) (by simp [hclean])
  · have hsame : t.remove i = t := by rw [remove, hparent]
    rw [hsame]
    exact h

include ht₀ hS hI in
/-- Every edit is confined. -/
theorem edit (h : Confined S I t₀ t) (hedit : Edit t₀.size S I t t') : Confined S I t₀ t' := by
  -- The list of a tag gets one entry more.
  have hgrow {tag new : NodeId} (htag : tag ∈ S) (hnew : t.Fresh t₀.size new) {items : List NodeId}
      (hlinked : (((t.mapKind tag (·.setItems items)).setParent (some tag) new).markDirty
        tag).Linked) : Confined S I t₀
          (((t.mapKind tag (·.setItems items)).setParent (some tag) new).markDirty tag) := by
    have hlt : tag < t.size := lt_size_of_form (by rw [h.form tag htag]; simp)
    refine h.editAt ht₀ hS htag hlinked (editAt_setItems hlt hnew.lt_size items)
      ((Kind.form_setItems ..).trans (h.form tag htag)) fun n hn _ => ?_
    rw [if_neg (hnew.ne hn)]
  cases hedit with
  | alloc kind span hfresh hnodup => exact h.alloc ht₀ hS span hfresh hnodup
  | @remove tag attr htag hattr =>
    have hparent := parent_of_mem_attributes h.linked hattr
    refine h.editAt ht₀ hS htag (linked_remove h.linked hparent (h.items_of_mem htag))
      (editAt_remove h.linked hparent) ((Kind.form_dropChild ..).trans (h.form tag htag))
      fun n _ hne => ?_
    have hold : n ≠ attr := fun heq => hne (heq ▸ hparent)
    rw [if_neg hold]
  | replace htag hattr hnew => exact h.replace ht₀ hS htag hattr hnew
  | @replaceAt tag attr new htag hattr hnew =>
    have hplaced : Confined S I t₀ (t.update new ({ · with span := t.span attr })) :=
      h.update ht₀ hS hnew.added (fun _ => rfl) fun _ => rfl
    have hfresh : (t.update new ({ · with span := t.span attr })).Fresh t₀.size new :=
      ⟨hnew.added, by rw [size_update]; exact hnew.lt_size,
        (parent_place ..).trans hnew.parent⟩
    have hmem : attr ∈ (t.update new ({ · with span := t.span attr })).attributes tag := by
      rw [attributes, kind_place]
      exact hattr
    exact (hplaced.replace ht₀ hS htag hmem hfresh).update ht₀ hS hnew.added (fun _ => rfl)
      fun _ => rfl
  | @insertAfter tag attr new _ htag hattr hnew hins =>
    have hparent := parent_of_mem_attributes h.linked hattr
    have hlinked := linked_insertAfter h.linked hins hnew.lt_size hnew.parent (ne_root ht₀ hnew)
      fun above habove => by
        obtain rfl := Option.some.inj (hparent.symm.trans habove)
        exact h.not_within ht₀ hS htag hnew
    obtain ⟨above, items, habove, hitems, hmem, rfl⟩ := insertAfter_eq_some hins
    obtain rfl := Option.some.inj (hparent.symm.trans habove)
    exact hgrow htag hnew hlinked
  | @append tag new _ htag hnew happ =>
    have hlt : tag < t.size := lt_size_of_form (by rw [h.form tag htag]; simp)
    have hlinked := linked_append h.linked happ hlt hnew.lt_size hnew.parent (ne_root ht₀ hnew)
      (h.not_within ht₀ hS htag hnew)
    obtain ⟨items, hitems, rfl⟩ := append_eq_some happ
    exact hgrow htag hnew hlinked
  | removeImport hi => exact h.removeImport ht₀ hS hI hi

end Confined

/-! ### What is printed -/

/-- The code of printed parts put together is their code put together. -/
theorem code_concat (ps : List Printed) : (Printed.concat ps).code = ps.flatMap (·.code) := by
  induction ps with
  | nil => rfl
  | cons p ps ih => exact congrArg (p.code ++ ·) ih

/-- Entries that are left out, or that come to nothing. -/
theorem flatMap_filter_not {α β : Type} (p : α → Prop) [DecidablePred p] (l : List α)
    (f : α → List β) :
    (l.filter fun x => ¬ p x).flatMap f = l.flatMap fun x => if p x then [] else f x := by
  induction l with
  | nil => rfl
  | cons x l ih => by_cases hx : p x <;> simpa [hx] using ih

/-- A node and its descendants are the nodes within it. -/
theorem mem_cons_descendants_iff (ht : t.Linked) {m n : NodeId} :
    m ∈ n :: t.descendants n ↔ t.Within m n := by
  rw [List.mem_cons, ht.mem_descendants_iff, Within, Relation.reflTransGen_iff_eq_or_transGen,
    eq_comm]
  rfl

/-- Where nothing is rewritten there are no patches. -/
theorem patches_eq_nil {nodes : List NodeId} (h : ∀ m ∈ nodes, m ∉ S ∧ m ∉ I) :
    patches t₀ t S I nodes = [] := by
  refine List.filterMap_eq_nil_iff.mpr fun m hm => ?_
  rw [if_neg (h m hm).1, if_neg (h m hm).2]

/-- The patches at and below a node. -/
abbrev patchesFrom (t₀ t : Tree) (S I : Finset NodeId) (n : NodeId) : List (Span × Text) :=
  patches t₀ t S I (n :: t₀.descendants n)

/-- The patches of several subtrees are those of each in turn. -/
theorem patches_flatMap (ids : List NodeId) :
    patches t₀ t S I (ids.flatMap fun c => c :: t₀.descendants c) =
      ids.flatMap (patchesFrom t₀ t S I) :=
  List.filterMap_flatMap ..

/-- A tag in `S` is patched with what is printed for it. -/
theorem mem_patches_of_tag {nodes : List NodeId} {o : NodeId} {s : Span} (hmem : o ∈ nodes)
    (ho : o ∈ S) (hs : t₀.span o = some s) :
    (s, (t.printNode o).code) ∈ patches t₀ t S I nodes := by
  refine List.mem_filterMap.mpr ⟨o, hmem, ?_⟩
  rw [if_pos ho, hs]
  rfl

/-- An import in `I` is patched with nothing. -/
theorem mem_patches_of_import {nodes : List NodeId} {i : NodeId} {s : Span} (hmem : i ∈ nodes)
    (hi : i ∈ I) (hiS : i ∉ S) (hs : t₀.span i = some s) :
    (s, []) ∈ patches t₀ t S I nodes := by
  refine List.mem_filterMap.mpr ⟨i, hmem, ?_⟩
  rw [if_neg hiS, if_pos hi, hs]
  rfl

/-- What is printed at and below `n` is its place with the tags in it rewritten. -/
def PrintedPatched (S I : Finset NodeId) (t₀ t : Tree) (printed : Text) (n : NodeId) : Prop :=
  ∀ s, t₀.span n = some s → s.lo ≤ s.hi →
    Patches s.lo s.hi (patchesFrom t₀ t S I n) ∧
      printed = t₀.source.patched s.hi s.lo (patchesFrom t₀ t S I n)

/-- What is printed for nodes one behind the other is the text they cover, rewritten. -/
theorem printedPatched_row {lo hi : Nat} {as : List Ast} (htiles : Tiles lo hi as)
    {ids : List NodeId} (hids : List.Forall₂ t₀.Depicts ids as) {printed : NodeId → Text}
    (heach : ∀ id ∈ ids, PrintedPatched S I t₀ t (printed id) id) :
    Patches lo hi (ids.flatMap (patchesFrom t₀ t S I)) ∧
      ids.flatMap printed =
        t₀.source.patched hi lo (ids.flatMap (patchesFrom t₀ t S I)) := by
  induction htiles generalizing ids with
  | nil lo =>
    obtain rfl := List.forall₂_nil_right_iff.mp hids
    exact ⟨.nil (Nat.le_refl _), (Text.slice_self ..).symm⟩
  | @cons lo mid hi a rest hspan hle htail ih =>
    obtain ⟨id, ids, hd, hrest, rfl⟩ := List.forall₂_cons_right_iff.mp hids
    obtain ⟨hid, hall⟩ := List.forall_mem_cons.mp heach
    have hplace : t₀.span id = some ⟨lo, mid⟩ := by
      cases hd
      exact hspan
    obtain ⟨hpatches, hprinted⟩ := hid _ hplace hle
    obtain ⟨hpatches', hprinted'⟩ := ih hrest hall
    rw [List.flatMap_cons, List.flatMap_cons, hprinted, hprinted']
    exact ⟨hpatches.append hpatches', hpatches.patched_append hpatches'⟩

section Printing

variable (ht₀ : t₀.Linked) (hS : ∀ o ∈ S, t₀.AtSurface o)
  (hI : ∀ i ∈ I, t₀.form i = .importing ∧ i ∈ t₀.children root) (h : Confined S I t₀ t)

include ht₀ hI in
/-- The imports stand below the program and nothing else. -/
theorem not_mem_imports {m n : NodeId} (hne : n ≠ root) (hbelow : t₀.Below m n) : m ∉ I := by
  intro hm
  have hparent := ht₀.mem_children.mp (hI m hm).2
  rcases Relation.ReflTransGen.cases_head (hbelow.parent_within hparent) with hroot | ⟨p, hp, -⟩
  · exact hne hroot.symm
  · exact absurd (ht₀.root_free.symm.trans hp) (by simp)

include ht₀ hS hI h in
/-- A node that is no element is printed as it stood, or it is one of the tags. -/
theorem printedPatched_leaf {n : NodeId} (hn : n < t₀.size) (hne : n ≠ root) (hnI : n ∉ I)
    (helement : t₀.form n ≠ .element) (hprogram : t₀.form n ≠ .program) :
    PrintedPatched S I t₀ t (t.printNode n).code n := by
  intro s hspan hle
  have hbelow {m : NodeId} (hm : t₀.Below m n) : m ∉ S ∧ m ∉ I := by
    refine ⟨fun hmS => ?_, not_mem_imports ht₀ hI hne hm⟩
    rcases (hS m hmS).form_of_below ht₀ hm with hform | hform
    · exact helement hform
    · exact hprogram hform
  have hnil : patches t₀ t S I (t₀.descendants n) = [] :=
    patches_eq_nil fun m hm => hbelow (ht₀.mem_descendants_iff.mp hm)
  by_cases hnS : n ∈ S
  · have hself : patchesFrom t₀ t S I n = [(s, (t.printNode n).code)] := by
      refine (List.filterMap_cons_some ?_).trans (congrArg _ hnil)
      rw [if_pos hnS, hspan]
      rfl
    rw [hself]
    refine ⟨.cons (Nat.le_refl _) hle (.nil (Nat.le_refl _)), ?_⟩
    simp [Text.patched]
  · have hself : patchesFrom t₀ t S I n = [] := by
      refine (List.filterMap_cons_none ?_).trans hnil
      rw [if_neg hnS, if_neg hnI]
    have hclean : t.dirty n = false := by
      refine Bool.eq_false_iff.mpr fun hdirty => ?_
      obtain hroot | ⟨o, ho, hwithin⟩ := h.marked n hn hdirty
      · exact hne hroot
      · rcases Relation.reflTransGen_iff_eq_or_transGen.mp hwithin with rfl | hm
        · exact hnS ho
        · exact (hbelow hm).1 ho
    rw [hself,
      printNode_of_clean (Nat.lt_of_lt_of_le hn h.size_le) hclean ((h.span n hn).trans hspan),
      h.source]
    exact ⟨.nil hle, rfl⟩

/-- Patches for tags that were not touched put back what was there. -/
theorem same_of_clean (h : Confined S I t₀ t) (hS : ∀ o ∈ S, o < t₀.size) {nodes : List NodeId}
    (hclean : ∀ m ∈ nodes, m ∈ S → t.dirty m = false) (hnI : ∀ m ∈ nodes, m ∉ I) :
    ∀ p ∈ patches t₀ t S I nodes, p.2 = p.1.of t₀.source := by
  intro p hp
  obtain ⟨m, hm, hp⟩ := List.mem_filterMap.mp hp
  split at hp
  case isTrue hmS =>
    obtain ⟨s, hspan, rfl⟩ := Option.map_eq_some_iff.mp hp
    have hlt := hS m hmS
    rw [printNode_of_clean (Nat.lt_of_lt_of_le hlt h.size_le) (hclean m hm hmS)
      ((h.span m hlt).trans hspan), h.source]
    rfl
  case isFalse =>
    rw [if_neg (hnI m hm)] at hp
    exact absurd hp (by simp)

/-- The parts of an element are shown by the nodes below it. -/
theorem Depicts.element_parts {n : NodeId} {s : Option Span} {opening : Ast} {children : List Ast}
    {closing : Option Text}
    (hd : t₀.Depicts n (.node s (.element opening children closing))) :
    n < t₀.size ∧ t₀.span n = s ∧ ∃ tag ids, t₀.kind n = .element tag ids closing ∧
      t₀.Depicts tag opening ∧ List.Forall₂ t₀.Depicts ids children := by
  generalize hk : Kind.element opening children closing = k at hd
  cases hd with
  | node z hlt hkind hbelow =>
    obtain ⟨head, inner, closing', rfl⟩ :
        ∃ head inner closing', z = .element head inner closing' := by
      cases z <;> simp [Kind.map] at hk ⊢
    obtain ⟨rfl, rfl, rfl⟩ := Kind.element.inj hk
    refine ⟨hlt, rfl, head.2, inner.map Prod.snd, hkind, hbelow head List.mem_cons_self, ?_⟩
    rw [List.forall₂_map_left_iff, List.forall₂_map_right_iff, List.forall₂_same]
    exact fun p hp => hbelow p (List.mem_cons_of_mem _ hp)

include ht₀ hS hI h in
/-- What is printed of a tree in the code of a module is its place, rewritten. -/
theorem printedPatched_of_tiled {n : NodeId} {a : Ast} (htiled : a.Tiled t₀.source)
    (hd : t₀.Depicts n a) (hne : n ≠ root) (hnI : n ∉ I) :
    PrintedPatched S I t₀ t (t.printNode n).code n := by
  induction htiled generalizing n with
  | other helement hprogram =>
    have hlt : n < t₀.size := by
      cases hd
      assumption
    exact printedPatched_leaf ht₀ hS hI h hlt hne hnI (hd.form_eq ▸ helement)
      (hd.form_eq ▸ hprogram)
  | @element lo mid stop hi opening _ closing hopeningform hopening hle htiles hstop hclosing
      _ ih =>
    obtain ⟨hlt, hspan, tag, ids, hkind, htag, hids⟩ := hd.element_parts
    intro s hs hsle
    obtain rfl := Option.some.inj (hs.symm.trans hspan)
    -- The nodes of the element are no imports, and none of them is the program.
    have hinner {m : NodeId} (hm : m ∈ t₀.children n) : m ≠ root ∧ m ∉ I ∧ m < t₀.size := by
      have hparent := ht₀.mem_children.mp hm
      refine ⟨?_, not_mem_imports ht₀ hI hne (.single hparent), lt_size_of_parent hparent⟩
      rintro rfl
      exact absurd (ht₀.root_free.symm.trans hparent) (by simp)
    have hparts : t₀.children n = tag :: ids := congrArg Kind.children hkind
    have hform : t₀.form n = .element := congrArg Kind.form hkind
    obtain ⟨htagne, htagI, htaglt⟩ := hinner (hparts ▸ List.mem_cons_self)
    have htagform : t₀.form tag = .opening := htag.form_eq.trans hopeningform
    have htagspan : t₀.span tag = some ⟨lo, mid⟩ := by
      cases htag
      exact hopening
    obtain ⟨hhead, hheadprinted⟩ := printedPatched_leaf ht₀ hS hI h htaglt htagne htagI
      (by rw [htagform]; simp) (by rw [htagform]; simp) _ htagspan hle
    have heach : ∀ id ∈ ids, PrintedPatched S I t₀ t (t.printNode id).code id := fun id hid => by
      obtain ⟨c, hc, hdc⟩ := exists_mem_of_forall₂ hids hid
      have hmem : id ∈ t₀.children n := hparts ▸ List.mem_cons_of_mem _ hid
      exact ih c hc hdc (hinner hmem).1 (hinner hmem).2.1
    obtain ⟨hrow, hrowprinted⟩ := printedPatched_row htiles hids heach
    have hclosed : Patches stop hi [] := .nil hstop
    have hnS : n ∉ S := fun hn => absurd ((hS n hn).form.symm.trans hform) (by simp)
    have hself : patchesFrom t₀ t S I n =
        patchesFrom t₀ t S I tag ++ (ids.flatMap (patchesFrom t₀ t S I) ++ []) := by
      have hskip : patchesFrom t₀ t S I n = patches t₀ t S I (t₀.descendants n) :=
        List.filterMap_cons_none (by rw [if_neg hnS, if_neg hnI])
      rw [hskip, ht₀.descendants_eq, hparts, patches_flatMap, List.flatMap_cons, List.append_nil]
    have hpatches : Patches lo hi (patchesFrom t₀ t S I n) :=
      hself ▸ hhead.append (hrow.append hclosed)
    refine ⟨hpatches, ?_⟩
    cases hdirty : t.dirty n with
    | true =>
      have hkind' : t.kind n = .element tag ids closing := (h.kind n hlt hnS hne).trans hkind
      rw [h.linked.code_printNode_of_dirty hdirty, hkind', hself,
        ← hhead.patched_append (hrow.append hclosed), ← hrow.patched_append hclosed, ← hheadprinted,
        ← hrowprinted, Text.patched, ← hclosing]
      simp [Kind.map, Kind.render, Printed.ofText, code_concat, List.flatMap_map]
    | false =>
      have hlt' : ∀ o ∈ S, o < t₀.size := fun o ho => (hS o ho).lt_size ht₀ .refl
      rw [printNode_of_clean (Nat.lt_of_lt_of_le hlt h.size_le) hdirty ((h.span n hlt).trans hs),
        h.source, hpatches.patched_same]
      · rfl
      · refine same_of_clean h hlt' (fun m hm hmS => ?_) fun m hm => ?_
        · have hwithin := (mem_cons_descendants_iff ht₀).mp hm
          refine Bool.eq_false_iff.mpr fun hmd => ?_
          exact absurd ((h.rises m hmS hmd n hwithin).symm.trans hdirty) (by simp)
        · rcases List.mem_cons.mp hm with rfl | hm
          · exact hnI
          · exact not_mem_imports ht₀ hI hne (ht₀.mem_descendants_iff.mp hm)

include ht₀ hI in
/-- An import that was removed is patched with nothing. -/
theorem printedPatched_import {i : NodeId} (hi : i ∈ I) (hiS : i ∉ S) :
    PrintedPatched S I t₀ t [] i := by
  intro s hspan hle
  have hleaf : t₀.descendants i = [] := by
    have hform := (hI i hi).1
    rw [ht₀.descendants_eq, children]
    rw [form] at hform
    cases hkind : t₀.kind i <;> simp_all [Kind.form, Kind.children]
  have hself : patchesFrom t₀ t S I i = [(s, [])] := by
    rw [patchesFrom, hleaf, patches, List.filterMap_cons_some (b := (s, []))]
    · rfl
    · rw [if_neg hiS, if_pos hi, hspan]
      rfl
  rw [hself]
  refine ⟨.cons (Nat.le_refl _) hle (.nil (Nat.le_refl _)), ?_⟩
  simp [Text.patched]

/-- Of the body, the nodes that were not removed are left. -/
theorem Confined.kind_root (h : Confined S I t₀ t) (hgone : ∀ i ∈ I, i ∉ t.children root) :
    t.kind root = .program ((t₀.children root).filter (· ∉ I)) := by
  obtain ⟨J, hJ, hleft⟩ := h.body
  rw [hleft]
  refine congrArg Kind.program (List.filter_congr fun c hc => decide_eq_decide.mpr (not_congr ?_))
  refine ⟨fun hc' => hJ hc', fun hc' => by_contra fun hcJ => hgone c hc' ?_⟩
  rw [children, hleft]
  exact List.mem_filter.mpr ⟨hc, by simpa using hcJ⟩

include ht₀ hS hI h in
/-- The module is printed from what is left of its body, or taken from the source. -/
theorem code_print (hspan : t₀.span root = some ⟨0, t₀.source.length⟩)
    (hgone : ∀ i ∈ I, i ∉ t.children root)
    (hpatches : Patches 0 t₀.source.length (patches t₀ t S I (t₀.descendants root))) :
    t.print.code = t₀.source.patched t₀.source.length 0 (patches t₀ t S I (t₀.descendants root)) ∨
      t.print.code =
        (t₀.children root).flatMap fun id => if id ∈ I then [] else (t.printNode id).code := by
  have hlt : ∀ o ∈ S, o < t₀.size := fun o ho => (hS o ho).lt_size ht₀ .refl
  cases hdirty : t.dirty root with
  | true =>
    refine Or.inr ?_
    rw [print, h.linked.code_printNode_of_dirty hdirty, h.kind_root hgone, ← flatMap_filter_not]
    simp [Kind.map, Kind.render, code_concat, List.flatMap_map]
  | false =>
    refine Or.inl ?_
    rw [print, printNode_of_clean (n := root) h.linked.nonempty hdirty
      ((h.span root ht₀.nonempty).trans hspan), h.source, hpatches.patched_same]
    · rfl
    · refine same_of_clean h hlt (fun m hm hmS => ?_) fun m hm hmI => ?_
      · refine Bool.eq_false_iff.mpr fun hmd => ?_
        have hroot := h.rises m hmS hmd root (ht₀.isAttached_iff.mp (hS m hmS).attached)
        exact absurd (hroot.symm.trans hdirty) (by simp)
      · refine hgone m hmI ?_
        rw [children, h.body_clean hdirty]
        exact (hI m hmI).2

end Printing

/-- A module that was just read is confined to what it is. -/
theorem confined_ofSource {source : Text} (h : ofSource source = .ok t₀) (ht₀ : t₀.Linked)
    (hS : ∀ o ∈ S, t₀.AtSurface o)
    (hI : ∀ i ∈ I, t₀.form i = .importing ∧ i ∈ t₀.children root)
    (hroot : t₀.form root = .program) : Confined S I t₀ t₀ := by
  have hclean {n : NodeId} (hn : n < t₀.size) : t₀.dirty n = false := ((placed_ofSource h).2 n hn).1
  have hbody : t₀.kind root = .program ((t₀.children root).filter (· ∉ (∅ : Finset NodeId))) := by
    rw [form] at hroot
    unfold children
    cases hkind : t₀.kind root <;> simp_all [Kind.form, Kind.children]
  refine ⟨ht₀, rfl, Nat.le_refl _, fun o ho => (hS o ho).form, fun _ _ => rfl, fun _ _ _ _ => rfl,
    ⟨∅, Finset.empty_subset _, hbody⟩, fun _ _ _ _ => rfl, fun i hi => ?_, fun n hn hd => ?_,
    fun o ho hd => ?_, fun _ => rfl⟩
  · have hparent := ht₀.mem_children.mp (hI i hi).2
    exact ⟨lt_size_of_parent hparent, Or.inl hparent⟩
  · exact absurd (hd.symm.trans (hclean hn)) (by simp)
  · exact absurd (hd.symm.trans (hclean ((hS o ho).lt_size ht₀ .refl))) (by simp)

/-- The store of a source holds what was read from it. -/
theorem holds_ofSource {source : Text} (h : ofSource source = .ok t₀) :
    ∃ body, Read.program source = .ok body ∧ t₀.Holds source body := by
  obtain ⟨body, hbody, rfl⟩ := map_eq_ok.mp h
  exact ⟨body, hbody, ofBody_holds source body⟩

/-- What all edits together leave of a module. -/
theorem confined_edits {source : Text} (hread : ofSource source = .ok t₀) (ht₀ : t₀.Linked)
    (hS : ∀ o ∈ S, t₀.AtSurface o)
    (hI : ∀ i ∈ I, t₀.form i = .importing ∧ i ∈ t₀.children root)
    (hroot : t₀.form root = .program)
    (hedits : Relation.ReflTransGen (Edit t₀.size S I) t₀ t) : Confined S I t₀ t := by
  induction hedits with
  | refl => exact confined_ofSource hread ht₀ hS hI hroot
  | tail _ hedit ih => exact ih.edit ht₀ hS hI hedit

/-- **Edits are local.**  Attribute lists of opening tags in the code of a module are
edited and imports are removed.  What is printed then is the source, with the place of
each of the tags patched with what is printed for the tag and the place of each of the
imports patched with nothing; the places are apart from each other. -/
theorem printed_patched {source : Text} (hread : ofSource source = .ok t₀)
    (hS : ∀ o ∈ S, t₀.AtSurface o)
    (hI : ∀ i ∈ I, t₀.form i = .importing ∧ i ∈ t₀.children root)
    (hedits : Relation.ReflTransGen (Edit t₀.size S I) t₀ t)
    (hgone : ∀ i ∈ I, i ∉ t.children root) :
    ∃ ps, ps = patches t₀ t S I (t₀.descendants root) ∧ Patches 0 source.length ps ∧
      (∀ o ∈ S, ∃ s, t₀.span o = some s ∧ (s, (t.printNode o).code) ∈ ps) ∧
      (∀ i ∈ I, ∃ s, t₀.span i = some s ∧ (s, []) ∈ ps) ∧
      t.print.code = source.patched source.length 0 ps := by
  obtain ⟨rfl, hplaced⟩ := placed_ofSource hread
  obtain ⟨body, hbody, hholds⟩ := holds_ofSource hread
  have ht₀ := hholds.linked
  obtain ⟨ids, hkind, hids⟩ := hholds.program
  have hchildren : t₀.children root = ids := congrArg Kind.children hkind
  have h := confined_edits hread ht₀ hS hI (congrArg Kind.form hkind) hedits
  obtain ⟨htiles, htiled⟩ := Read.tiles_program hbody
  have hlt : ∀ o ∈ S, o < t₀.size := fun o ho => (hS o ho).lt_size ht₀ .refl
  have hiS : ∀ i ∈ I, i ∉ S := fun i hi hiS =>
    absurd ((hI i hi).1.symm.trans (hS i hiS).form) (by simp)
  -- The nodes of the body, the removed ones as nothing.
  have heach : ∀ id ∈ ids,
      PrintedPatched S I t₀ t (if id ∈ I then [] else (t.printNode id).code) id := by
    intro id hid
    have hparent := ht₀.mem_children.mp (hchildren ▸ hid)
    have hne : id ≠ root := by
      rintro rfl
      exact absurd (ht₀.root_free.symm.trans hparent) (by simp)
    obtain ⟨a, ha, hd⟩ := exists_mem_of_forall₂ hids hid
    split
    case isTrue hi => exact printedPatched_import ht₀ hI hi (hiS id hi)
    case isFalse hi => exact printedPatched_of_tiled ht₀ hS hI h (htiled a ha) hd hne hi
  obtain ⟨hpatches, hprinted⟩ := printedPatched_row htiles hids heach
  rw [← patches_flatMap, ← hchildren, ← ht₀.descendants_eq] at hpatches hprinted
  refine ⟨_, rfl, hpatches, ?_, ?_, ?_⟩
  · intro o ho
    obtain ⟨s, hs⟩ := Option.isSome_iff_exists.mp (hplaced o (hlt o ho)).2
    have hmem : o ∈ t₀.descendants root := by
      rcases (ht₀.isAttached_iff_mem_descendants.mp (hS o ho).attached) with rfl | hmem
      · exact absurd ((congrArg Kind.form hkind).symm.trans (hS _ ho).form) (by simp [Kind.form])
      · exact hmem
    exact ⟨s, hs, mem_patches_of_tag hmem ho hs⟩
  · intro i hi
    have hparent := ht₀.mem_children.mp (hI i hi).2
    obtain ⟨s, hs⟩ := Option.isSome_iff_exists.mp (hplaced i (lt_size_of_parent hparent)).2
    exact ⟨s, hs, mem_patches_of_import (ht₀.mem_descendants_iff.mpr (.single hparent)) hi
      (hiS i hi) hs⟩
  · rcases code_print ht₀ hS hI h hholds.root_span hgone hpatches with hprint | hprint
    · exact hprint
    · exact hprint.trans hprinted

/-- An attribute is replaced in one tag and another one added to the tag inside, and
the import is removed. -/
theorem two_tags_patched :
    ∃ (source : Text) (t₀ t : Tree) (ps : List (Span × Text)),
      source = Text.ofString "import a from 'b'\nx = <p c='d'><q /></p>" ∧
      ofSource source = .ok t₀ ∧ ps = patches t₀ t {5, 6} {1} (t₀.descendants root) ∧
      t.print.code = source.patched source.length 0 ps ∧
      t.print.code = Text.ofString "x = <p e><q f /></p>" := by
  let replaced (t₀ : Tree) : Tree := (Tree.alloc (.attr (Text.ofString "e") none) none t₀).2
  let removed (t₀ : Tree) : Tree := ((replaced t₀).replaceAt 4 9).remove 1
  let added (t₀ : Tree) : Tree := (Tree.alloc (.attr (Text.ofString "f") none) none (removed t₀)).2
  have hrun : ((ofSource
      (Text.ofString "import a from 'b'\nx = <p c='d'><q /></p>")).toOption.any fun t₀ =>
      ((added t₀).append 6 10).any fun t =>
        ((∀ o ∈ ({5, 6} : Finset NodeId), t₀.isAttached o = true ∧ t₀.form o = .opening ∧
          ∀ a ∈ t₀.ancestors o, t₀.form a = .element ∨ t₀.form a = .program) ∧
        (∀ i ∈ ({1} : Finset NodeId), t₀.form i = .importing ∧ i ∈ t₀.children root) ∧
        (4 ∈ (replaced t₀).attributes 5 ∧ t₀.size ≤ 9 ∧ 9 < (replaced t₀).size ∧
          (replaced t₀).parent 9 = none) ∧
        (t₀.size ≤ 10 ∧ 10 < (added t₀).size ∧ (added t₀).parent 10 = none) ∧
        (∀ i ∈ ({1} : Finset NodeId), i ∉ t.children root) ∧
        t.print.code = Text.ofString "x = <p e><q f /></p>")) = true := by
    decide +kernel
  obtain ⟨t₀, hread, hrest⟩ := exists_of_any hrun
  obtain ⟨t, happ, hfacts⟩ := (Option.any_eq_true _ _).mp hrest
  obtain ⟨hS, hI, ⟨hattr, hle, hlt, hfree⟩, ⟨hle', hlt', hfree'⟩, hgone, hprint⟩ :=
    of_decide_eq_true hfacts
  have hedits : Relation.ReflTransGen (Edit t₀.size {5, 6} {1}) t₀ t :=
    .tail
      (.tail
        (.tail
          (.tail (.single (.alloc _ none (by simp [Kind.children]) (by simp [Kind.children])))
            (.replaceAt (by simp) hattr ⟨hle, hlt, hfree⟩))
          (.removeImport (by simp)))
        (.alloc _ none (by simp [Kind.children]) (by simp [Kind.children])))
      (.append (by simp) ⟨hle', hlt', hfree'⟩ happ)
  obtain ⟨ps, hps, -, -, -, hprinted⟩ := printed_patched hread
    (fun o ho => ⟨(hS o ho).1, (hS o ho).2.1, (hS o ho).2.2⟩) hI hedits hgone
  exact ⟨_, t₀, t, ps, rfl, hread, hps, hprinted, hprint⟩

end Tree

end JsxStyle
