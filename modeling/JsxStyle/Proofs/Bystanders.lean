import JsxStyle.Proofs.Labels

/-!
# References while attributes are restyled

The references to the style builder are restyled after the attributes, in the module as
the attributes left it.  This module shows that for a reference nothing has changed by
then.

A shorthand attribute that is restyled holds strings only.  What comes in
instead, a call and perhaps an annotation, holds no node that was there before.  So every
link on the way up from a reference is kept, or leads through an array that was put around
a style expression, and where the children of a node have changed, the references found below it
are the same as before, in the same order.

* `thread`: what a condition picks out of a part of a tree, in source order;
* `Linked.thread_eq_of_children`: threads are the same if those of the children of every
  node add up to the same;
* `Swapped.thread_eq`, `Joined.thread_eq`, `Inscribed.thread_eq`: so they are for references;
* `Bystanding`: everything that is asked of references and templates;
* `Bystanding.visit`: it outlives the visit to an attribute.
-/

namespace JsxStyle

/-- What a list brings in does not change if one member is replaced by another that brings in
the same. -/
theorem flatMap_replace {α β : Type} [DecidableEq α] {g : α → List β} {old new : α}
    (h : g new = g old) (l : List α) : (l.replace old new).flatMap g = l.flatMap g := by
  induction l with
  | nil => rfl
  | cons a rest ih =>
    rw [Kind.replace_cons_eq_ite]
    split
    case isTrue ha => rw [List.flatMap_cons, List.flatMap_cons, ha, h]
    case isFalse => rw [List.flatMap_cons, List.flatMap_cons, ih]

/-- An item that gives nothing may be left out. -/
theorem flatMap_filter_ne {α β : Type} [DecidableEq α] {g : α → List β} {old : α}
    (h : g old = []) (l : List α) : (l.filter (· ≠ old)).flatMap g = l.flatMap g := by
  induction l with
  | nil => rfl
  | cons a rest ih =>
    by_cases ha : a = old
    · rw [List.filter_cons_of_neg (by simp [ha]), ih, List.flatMap_cons, ha, h, List.nil_append]
    · rw [List.filter_cons_of_pos (by simp [ha]), List.flatMap_cons, List.flatMap_cons, ih]

namespace Tree

variable {t t' : Tree} {q : NodeId → Bool} {n : NodeId}

/-- The nodes at or below `n` that `q` accepts, in source order. -/
def thread (t : Tree) (q : NodeId → Bool) (n : NodeId) : List NodeId :=
  (n :: t.descendants n).filter q

section Threads

/-- The thread of a node is the node, if it is accepted, and those of its children. -/
theorem Linked.thread_eq (ht : t.Linked) (q : NodeId → Bool) (n : NodeId) :
    t.thread q n = (if q n then [n] else []) ++ (t.children n).flatMap (t.thread q) := by
  have hbelow : (t.descendants n).filter q = (t.children n).flatMap (t.thread q) := by
    rw [ht.descendants_eq, List.filter_flatMap]
    rfl
  rw [thread, List.filter_cons, hbelow]
  split <;> rfl

/-- A thread is empty where nothing below the node is accepted. -/
theorem Linked.thread_eq_nil (ht : t.Linked) (h : ∀ m, t.Within m n → q m = false) :
    t.thread q n = [] := by
  refine List.filter_eq_nil_iff.mpr fun m hm => ?_
  rw [h m]
  · simp
  · rcases List.mem_cons.mp hm with rfl | hm
    · exact .refl
    · exact (ht.mem_descendants_iff.mp hm).to_reflTransGen

/-- Threads are the same if, step by step up, those of the children add up to the same. -/
theorem Linked.thread_eq_of_children (ht : t.Linked) (ht' : t'.Linked)
    (h : ∀ n < t.size, (∀ c ∈ t.children n, t'.thread q c = t.thread q c) →
      (t'.children n).flatMap (t'.thread q) = (t.children n).flatMap (t.thread q)) :
    ∀ n < t.size, t'.thread q n = t.thread q n := by
  intro n
  induction n using ht.downward with
  | h n ih =>
    intro hn
    rw [ht.thread_eq, ht'.thread_eq, h n hn fun c hc => ih c hc (ht.lt_size_of_mem hc)]

/-- The same children with the same threads add up to the same. -/
theorem flatMap_thread_of_children (hsame : t'.children n = t.children n)
    (h : ∀ c ∈ t.children n, t'.thread q c = t.thread q c) :
    (t'.children n).flatMap (t'.thread q) = (t.children n).flatMap (t.thread q) := by
  rw [hsame]
  exact List.flatMap_congr h

/-- Strings and identifiers have no children. -/
theorem children_eq_nil (h : t.form n = .str ∨ t.form n = .ident) : t.children n = [] := by
  unfold form at h
  unfold children
  cases hk : t.kind n <;> simp_all [Kind.form, Kind.children]

theorem children_congr (h : t'.kind n = t.kind n) : t'.children n = t.children n := by
  rw [children, h, children]

end Threads

section Steps

variable {label classes : Text} {ast : Ast} {opening attr style : NodeId}

/-- What a condition on references that are there picks out of the store. -/
def PicksReferences (t : Tree) (q : NodeId → Bool) : Prop :=
  ∀ n, q n = true → t.form n = .ident

namespace PicksReferences

variable (hq : t.PicksReferences q)

include hq

theorem lt_size (hn : q n = true) : n < t.size :=
  lt_size_of_form (by rw [hq n hn]; decide)

/-- What is no identifier is not picked. -/
theorem eq_false (hn : t.form n ≠ .ident) : q n = false :=
  Bool.eq_false_iff.mpr fun h => hn (hq n h)

theorem moves (ht : t.Sound) (hmoves : Moves t t') : t'.PicksReferences q := fun n hn =>
  (hmoves.form_eq ht (hq.lt_size hn)).trans (hq n hn)

/-- There are no references in a shorthand attribute that has a class string. -/
theorem thread_shorthand (ht : t.Linked) (h : t.classes attr = some classes) :
    t.thread q attr = [] := by
  refine ht.thread_eq_nil fun m hm => hq.eq_false ?_
  have hattr : t.form attr = .attr := form_of_classes (by rw [h]; rfl)
  rcases form_within_shorthand ht hattr (classes_eq_some h).2 hm with rfl | hform | hform
  · rw [hattr]
    decide
  · rw [hform]
    decide
  · rw [hform]
    decide

/-- No reference is picked out of a string. -/
theorem thread_str (ht : t.Linked) (hn : t.form n = .str) : t.thread q n = [] := by
  refine ht.thread_eq_nil fun m hm => hq.eq_false ?_
  rw [hm.eq_of_leaf ht (children_eq_nil (.inl hn)), hn]
  decide

end PicksReferences

/-- A style attribute in the place of a shorthand attribute. -/
theorem Swapped.thread_eq (h : Swapped ast t t' opening attr style) (ht : t.Sound)
    (hopening : t.form opening = .opening) (hclasses : t.classes attr = some classes)
    (hparent : t.parent attr = some opening) (hq : t.PicksReferences q) :
    ∀ n < t.size, t'.thread q n = t.thread q n := by
  have hmoves := (h.reworked []).moves
  have ht' := hmoves.sound ht
  -- A node that was there before has only such nodes above it.
  have hstyle : t'.thread q style = [] := by
    refine ht'.linked.thread_eq_nil fun m hm => Bool.eq_false_iff.mpr fun hqm => ?_
    have hold : ∀ k, t'.Within m k → k < t.size := by
      intro k hk
      induction hk with
      | refl => exact hq.lt_size hqm
      | @tail c p _ hup ih =>
        rw [Up, h.parent c ih] at hup
        split at hup
        · exact absurd hup (by simp)
        · exact ht.linked.parent_lt_size hup
    exact absurd h.fresh (Nat.not_le.mpr (hold style hm))
  refine ht.linked.thread_eq_of_children ht'.linked fun n hn ih => ?_
  by_cases hno : n = opening
  · subst hno
    have hattr : t'.thread q attr = [] := by
      rw [ih attr (ht.linked.mem_children.mpr hparent), hq.thread_shorthand ht.linked hclasses]
    have hchildren : t'.children n = (t.children n).replace attr style := by
      rw [← attributes_eq_children hopening, ← h.attributes,
        attributes_eq_children ((hmoves.form_eq ht hn).trans hopening)]
    rw [hchildren, flatMap_replace (hstyle.trans hattr.symm)]
    exact List.flatMap_congr ih
  · exact flatMap_thread_of_children (children_congr (h.kind n hn hno)) ih

/-- No reference that was there before is in the styles that come in.  A node that was there
before has only such nodes above it, and perhaps an array between them. -/
theorem Joined.thread_styles (h : Joined ast t t' opening attr style) (ht : t.Sound)
    (hast : ast.kind.form = .call) (hq : t.PicksReferences q) {styles : NodeId}
    (hnew : t.size ≤ styles) (hdepicts : t'.Depicts styles ast) : t'.thread q styles = [] := by
  have ht' := (h.reworked []).moves.sound ht
  refine ht'.linked.thread_eq_nil fun m hm => Bool.eq_false_iff.mpr fun hqm => ?_
  have hold : ∀ k, t'.Within m k → k < t.size ∨
      t'.form k = .array ∧ ∀ p, t'.parent k = some p → p < t.size := by
    intro k hk
    induction hk with
    | refl => exact .inl (hq.lt_size hqm)
    | @tail c p _ hup ih =>
      rw [Up] at hup
      rcases ih with hc | ⟨-, hbehind⟩
      · rcases h.parent c hc with ⟨-, hnone⟩ | ⟨-, hsame | ⟨array, -, -, harray, hto, hbehind⟩⟩
        · exact absurd (hup.symm.trans hnone) (by simp)
        · exact .inl (ht.linked.parent_lt_size (hsame.symm.trans hup))
        · obtain rfl := Option.some.inj (hup.symm.trans hto)
          exact .inr ⟨harray, fun p hp => ht.linked.parent_lt_size (hbehind.symm.trans hp)⟩
      · exact .inl (hbehind p hup)
  rcases hold styles hm with hlt | ⟨harray, -⟩
  · exact absurd hnew (Nat.not_le.mpr hlt)
  · exact absurd (harray.symm.trans (hdepicts.form_eq.trans hast)) (by decide)

/-- A shorthand attribute that is taken out, with its style joined to that of its tag. -/
theorem Joined.thread_eq (h : Joined ast t t' opening attr style) (ht : t.Sound)
    (hclasses : t.classes attr = some classes) (hparent : t.parent attr = some opening)
    (hast : ast.kind.form = .call) (hq : t.PicksReferences q) :
    ∀ n < t.size, t'.thread q n = t.thread q n := by
  have hmoves := (h.reworked []).moves
  have ht' := hmoves.sound ht
  refine ht.linked.thread_eq_of_children ht'.linked fun n hn ih => ?_
  by_cases hno : n = opening
  · subst hno
    have hattr : t'.thread q attr = [] := by
      rw [ih attr (ht.linked.mem_children.mpr hparent), hq.thread_shorthand ht.linked hclasses]
    rw [h.children, flatMap_filter_ne hattr]
    exact List.flatMap_congr ih
  · rcases h.kind n hn hno with hsame | hgrown
    · exact flatMap_thread_of_children (children_congr hsame) ih
    · cases hgrown with
      | @longer xs styles hkind hkind' hnew hdepicts =>
        have hchildren : t.children n = xs := congrArg Kind.children hkind
        have hchildren' : t'.children n = xs ++ [styles] := congrArg Kind.children hkind'
        rw [hchildren', List.flatMap_append, List.flatMap_singleton,
          h.thread_styles ht hast hq hnew hdepicts,
          List.append_nil, ← hchildren]
        exact List.flatMap_congr ih
      | @wrapped expression array styles hkind hkind' harray hnew hdepicts =>
        have hchildren : t.children n = [expression] := congrArg Kind.children hkind
        have hchildren' : t'.children n = [array] := congrArg Kind.children hkind'
        have hbelow : t'.children array = [expression, styles] := congrArg Kind.children harray
        have hnot : q array = false := (hq.moves ht hmoves).eq_false (by
          rw [form, harray]
          simp [Kind.form])
        rw [hchildren', List.flatMap_singleton, ht'.linked.thread_eq, hnot, hbelow, hchildren]
        simp [h.thread_styles ht hast hq hnew hdepicts, ih expression (by simp [hchildren])]

/-- An annotation. -/
theorem Inscribed.thread_eq (h : Inscribed label t t') (ht : t.Sound) (hmoves : Moves t t')
    (hq : t.PicksReferences q) : ∀ n < t.size, t'.thread q n = t.thread q n := by
  have ht' := hmoves.sound ht
  have hq' := hq.moves ht hmoves
  refine ht.linked.thread_eq_of_children ht'.linked fun n hn ih => ?_
  cases h.old n hn with
  | same hkind => exact flatMap_thread_of_children (children_congr hkind) ih
  | @longer name before after new selfClosing hkind hkind' hnew hname =>
    have hchildren : t.children n = before ++ after := congrArg Kind.children hkind
    have hchildren' : t'.children n = before ++ new :: after := congrArg Kind.children hkind'
    have hempty : t'.thread q new = [] := by
      rcases h.added new hnew.1 hnew.2 with hstr | ⟨s, hattr, hstr, -, -⟩
      · exact hq'.thread_str ht'.linked hstr
      · have hbelow : t'.children new = [s] := congrArg Kind.children hattr
        have hnot : q new = false := hq'.eq_false (by
          rw [form, hattr]
          simp [Kind.form])
        rw [ht'.linked.thread_eq, hnot, hbelow]
        simp [hq'.thread_str ht'.linked hstr]
    have hsame : (t'.children n).flatMap (t'.thread q) = (t.children n).flatMap (t'.thread q) := by
      rw [hchildren', hchildren, List.flatMap_append, List.flatMap_cons, hempty, List.nil_append,
        List.flatMap_append]
    rw [hsame]
    exact List.flatMap_congr ih
  | @extended s s' hkind hstr hkind' hstr' _ =>
    have hchildren : t.children n = [s] := congrArg Kind.children hkind
    have hchildren' : t'.children n = [s'] := congrArg Kind.children hkind'
    rw [hchildren, hchildren', List.flatMap_singleton, List.flatMap_singleton,
      hq.thread_str ht.linked hstr, hq'.thread_str ht'.linked hstr']

end Steps

end Tree

namespace Stylist

open JsxStyle.Tree

variable {t : Tree} {s : Stylist} {callee : Text} {attr opening : NodeId} {q : NodeId → Bool}

/-- Restyling a shorthand attribute leaves the references alone, wherever one looks for them. -/
theorem thread_restyleAttribute (ht : t.Sound) (hs : s.generate = Generator.runtimeCall callee)
    (hlabel : s.annotator.label ≠ Vocabulary.shorthand) (hrestylable : t.IsRestylable attr)
    (hparent : t.parent attr = some opening) (hq : t.PicksReferences q) :
    ∀ n < t.size, (s.restyleAttribute attr t).tree.thread q n = t.thread q n := by
  obtain ⟨classes, hclasses⟩ := hrestylable.exists_classes
  obtain ⟨hopening, ast, hast, ⟨v, style, hswap, hrun⟩ | ⟨w, style, hjoin, hrun⟩⟩ :=
    restyleAttribute_parts ht hs hrestylable hparent hclasses
  · have hmoves := (hswap.reworked s.annotator.label).moves
    have hv := hmoves.sound ht
    have hopeningv : v.form opening = .opening :=
      hmoves.form_of_form ht hopening (by decide)
    obtain ⟨hnone, hann, -⟩ := annotated_attachAfter hv s.annotator hswap.below hopeningv
      (hswap.parent_of_label ht hopening hrestylable.1 hlabel) classes
    intro n hn
    rw [hrun, (inscribed_attachAfter hv s.annotator hswap.below hopeningv hnone).thread_eq hv
      hann.moves
      (hq.moves ht hmoves) n (Nat.lt_of_lt_of_le hn (hmoves.size_le ht))]
    exact hswap.thread_eq ht hopening hclasses hparent hq n hn
  · have hmoves := (hjoin.reworked s.annotator.label).moves
    have hw := hmoves.sound ht
    have hopeningw : w.form opening = .opening :=
      hmoves.form_of_form ht hopening (by decide)
    obtain ⟨hnone, hann, -⟩ := annotated_attachTo hw s.annotator hopeningw
      (fun b hb _ => parent_of_mem_attributes hw.linked hb) classes opening
    have hcall : ast.kind.form = .call := by
      rw [← Except.ok.inj hast]
      rfl
    intro n hn
    rw [hrun, (inscribed_attachTo hw s.annotator hopeningw hnone).thread_eq hw hann.moves
      (hq.moves ht hmoves) n (Nat.lt_of_lt_of_le hn (hmoves.size_le ht))]
    exact hjoin.thread_eq ht hclasses hparent hcall hq n hn

end Stylist

/-- The forms of references and of the templates that they tag. -/
def Form.Referring : Form → Prop
  | .ident | .template => True
  | _ => False

namespace Tree

variable {t t' : Tree} {label : Text} {opening attr n : NodeId}

/-- The nearest node of a form is the same if the way up has got arrays at most. -/
theorem enclosing_eq_of_relinked (ht : t.Sound) (hmoves : Moves t t') {f : Form} (hf : f ≠ .array)
    (h : ∀ m, t.Within n m → Relinked t t' m) : t'.enclosing n f = t.enclosing n f := by
  have ht' := hmoves.sound ht
  have hsame : (t'.ancestors n).filter (fun a => t'.form a = f) =
      (t.ancestors n).filter fun a => t.form a = f := by
    induction ht.linked.grounded n with
    | intro n _ ih =>
      cases hp : t.parent n with
      | none =>
        rcases h n .refl with hkept | ⟨array, -, harray, hup, hbehind⟩
        · rw [ht.linked.ancestors_eq_nil hp, ht'.linked.ancestors_eq_nil (hkept.trans hp)]
          rfl
        · rw [ht.linked.ancestors_eq_nil hp, ht'.linked.ancestors_eq_cons hup,
            ht'.linked.ancestors_eq_nil (hbehind.trans hp), List.filter_cons_of_neg (by
              simpa [harray] using hf.symm)]
          rfl
      | some p =>
        have hform : t'.form p = t.form p := hmoves.form_eq ht (ht.linked.parent_lt_size hp)
        have hrest : (p :: t'.ancestors p).filter (fun a => t'.form a = f) =
            (t.ancestors n).filter fun a => t.form a = f := by
          rw [ht.linked.ancestors_eq_cons hp, List.filter_cons, List.filter_cons, hform,
            ih p hp fun m hm => h m (.head hp hm)]
        rcases h n .refl with hkept | ⟨array, -, harray, hup, hbehind⟩
        · rw [ht'.linked.ancestors_eq_cons (hkept.trans hp), hrest]
        · rw [ht'.linked.ancestors_eq_cons hup, ht'.linked.ancestors_eq_cons (hbehind.trans hp),
            List.filter_cons_of_neg (by simpa [harray] using hf.symm), hrest]
  unfold enclosing findAncestor
  rw [← List.head?_filter, ← List.head?_filter]
  exact congrArg List.head? hsame

/-- A reference or template does not stand in an attribute that is restyled. -/
theorem Dealt.relinked (h : Dealt label t t' opening attr) (ht : t.Sound)
    (hrestylable : t.IsRestylable attr) (hn : (t.form n).Referring) {m : NodeId}
    (hm : t.Within n m) : Relinked t t' m := by
  have hlt : n < t.size := lt_size_of_form (by rintro hform; rw [hform] at hn; exact hn)
  obtain ⟨classes, hclasses⟩ := hrestylable.exists_classes
  refine h.links m (hm.lt_size ht.linked hlt) ?_ ?_
  · rintro rfl
    have hattr : t.form m = .attr := form_of_classes (by rw [hclasses]; rfl)
    rcases form_within_shorthand ht.linked hattr (classes_eq_some hclasses).2 hm with
      rfl | hform | hform
    · rw [hattr] at hn
      exact hn
    · rw [hform] at hn
      exact hn
    · rw [hform] at hn
      exact hn
  · rcases Relation.ReflTransGen.cases_tail hm with rfl | ⟨c, -, hc⟩
    · rintro hform
      rw [hform] at hn
      exact hn
    · exact ht.linked.form_ne_str hc

/-- What a template stands for is the same as long as its own node is, and everything that is
known in advance. -/
theorem staticClasses_eq_of_kept (ht : t.Linked) (hform : ∀ n < t.size, t'.form n = t.form n)
    (hkind : ∀ n < t.size, t'.kind n = t.kind n ∨ t.form n ≠ .template ∧ ¬ (t.form n).Telling)
    (hn : n < t.size) (builder : Option Text) :
    t'.staticClasses n builder = t.staticClasses n builder := by
  by_cases htemplate : t.form n = .template
  · have hsame : t'.kind n = t.kind n := (hkind n hn).resolve_right fun h => h.1 htemplate
    refine staticClasses_eq_of_tellsAs (hsame.trans (Kind.map_id _).symm) (fun c hc => ?_)
      ht builder
    obtain ⟨p, hp, -⟩ := Relation.TransGen.head'_iff.mp hc
    have hc : c < t.size := lt_size_of_parent hp
    rcases hkind c hc with hsame | ⟨-, htelling⟩
    · exact .inl (hsame.trans (Kind.map_id _).symm)
    · refine .inr ⟨htelling, ?_⟩
      exact (hform c hc).symm ▸ htelling
  · have hnone {u : Tree} (hu : u.form n ≠ .template) : u.staticClasses n builder = none := by
      unfold form at hu
      unfold staticClasses
      cases hk : u.kind n <;> simp_all [Kind.form]
    rw [hnone htemplate, hnone (by rwa [hform n hn])]

/-- Neither templates nor literals are changed when an attribute is restyled. -/
theorem Reworked.kind_or (h : Reworked label t t' opening) (hopening : t.form opening = .opening)
    (hn : n < t.size) : t'.kind n = t.kind n ∨ t.form n ≠ .template ∧ ¬ (t.form n).Telling := by
  refine (h.kind n hn).imp_right fun hpart => ?_
  have hform :
      t.form n = .opening ∨ t.form n = .attr ∨ t.form n = .container ∨ t.form n = .array := by
    cases hpart with
    | tag => exact .inl hopening
    | labelled _ hkind => exact .inr (.inl (congrArg Kind.form hkind))
    | braces _ _ hform => exact .inr (.inr (.inl hform))
    | array _ _ _ hform => exact .inr (.inr (.inr hform))
  rcases hform with hform | hform | hform | hform <;> rw [hform] <;> simp [Form.Telling]

/-- What the attributes `done` of the module `t₀` have left of everything that the others and the
references depend on: in `t` it is the same. -/
structure Bystanding (t₀ : Tree) (done : List NodeId) (t : Tree) : Prop where
  parent : ∀ n, t₀.form n = .attr → n ∉ done → t.parent n = t₀.parent n
  attached : ∀ n, (t₀.form n).Referring → (t.isAttached n = true ↔ t₀.isAttached n = true)
  enclosing : ∀ n f, (t₀.form n).Referring → f ≠ .array → t.enclosing n f = t₀.enclosing n f
  template : ∀ n, t₀.form n = .template → t.kind n = t₀.kind n
  known : ∀ n < t₀.size, ∀ builder, t.staticClasses n builder = t₀.staticClasses n builder
  thread : ∀ n < t₀.size, ∀ q, t₀.PicksReferences q → t.thread q n = t₀.thread q n

theorem Bystanding.start (t₀ : Tree) : Bystanding t₀ [] t₀ where
  parent _ _ _ := rfl
  attached _ _ := Iff.rfl
  enclosing _ _ _ _ := rfl
  template _ _ := rfl
  known _ _ _ := rfl
  thread _ _ _ _ := rfl

section Runs

variable {s : Stylist} {callee : Text} {t₀ : Tree} {done : List NodeId} {d : Draft} {x : NodeId}
  (ht₀ : t₀.Sound) (hs : s.generate = Generator.runtimeCall callee)
  (hlabel : s.annotator.label ≠ Vocabulary.shorthand)

include ht₀ hs hlabel

/-- When the turn of an attribute has come, it has been dealt with if it is restylable, and
otherwise nothing has happened. -/
theorem Tallied.dealt (hd : Tallied t₀ done d) (hx : x ∈ t₀.allAttributes) (hnew : x ∉ done) :
    (¬ t₀.IsRestylable x ∧ (d.visit s x).tree = d.tree) ∨
      t₀.IsRestylable x ∧ d.tree.IsRestylable x ∧ ∃ p, d.tree.parent x = some p ∧
        d.tree.form p = .opening ∧ (d.visit s x).tree = (s.restyleAttribute x d.tree).tree ∧
        Dealt s.annotator.label d.tree (d.visit s x).tree p x := by
  obtain ⟨hattached, -, hrestylable, p, hp, hopening⟩ := hd.turn ht₀ hx hnew
  obtain ⟨-, hdealt, hsame⟩ :=
    Stylist.restyleAttribute_dealt (hd.moves.sound ht₀) hs hlabel hp
  have hvisit : (d.visit s x).tree = (s.restyleAttribute x d.tree).tree := by
    rw [tree_visit, if_pos hattached]
  by_cases hdo : t₀.IsRestylable x
  · have hdo' := hrestylable.mpr hdo
    exact .inr ⟨hdo, hdo', p, hp, hopening, hvisit, hvisit ▸ hdealt hdo'⟩
  · exact .inl ⟨hdo, hvisit.trans (hsame fun h => hdo (hrestylable.mp h))⟩

/-- The visit to an attribute changes nothing for those that wait, nor for references. -/
theorem Bystanding.visit (h : Bystanding t₀ done d.tree) (hd : Tallied t₀ done d)
    (hx : x ∈ t₀.allAttributes) (hnew : x ∉ done) :
    Bystanding t₀ (done ++ [x]) (d.visit s x).tree := by
  have ht := hd.moves.sound ht₀
  have hsize := hd.moves.size_le ht₀
  have hform {n : NodeId} (hn : n < t₀.size) : d.tree.form n = t₀.form n := hd.moves.form_eq ht₀ hn
  rcases hd.dealt ht₀ hs hlabel hx hnew with ⟨-, hsame⟩ | ⟨-, hdo, p, hp, hopening, hvisit, hdealt⟩
  · rw [hsame]
    exact
      { h with
        parent := fun n hn hnot =>
          h.parent n hn fun hin => hnot (List.mem_append_left _ hin) }
  · have hmoves := hdealt.reworked.moves
    have hway {n : NodeId} (hn : (t₀.form n).Referring) {m : NodeId} (hm : d.tree.Within n m) :
        Relinked d.tree (d.visit s x).tree m := by
      refine hdealt.relinked ht hdo ?_ hm
      rwa [hform (lt_size_of_form (by rintro hfragment; rw [hfragment] at hn; exact hn))]
    refine ⟨fun n hn hnot => ?_, fun n hn => ?_, fun n f hn hf => ?_, fun n hn => ?_,
      fun n hn builder => ?_, fun n hn q hq => ?_⟩
    · obtain ⟨hnot, hne⟩ : n ∉ done ∧ n ≠ x := by simpa using hnot
      have hlt : n < t₀.size := lt_size_of_form (by rw [hn]; decide)
      rw [hdealt.parent_eq ht (Nat.lt_of_lt_of_le hlt hsize) ((hform hlt).trans hn) hne,
        h.parent n hn hnot]
    · rw [isAttached_iff_of_relinked ht.linked (hmoves.sound ht).linked fun m hm => hway hn hm,
        h.attached n hn]
    · rw [enclosing_eq_of_relinked ht hmoves hf fun m hm => hway hn hm, h.enclosing n f hn hf]
    · have hlt : n < t₀.size := lt_size_of_form (by rw [hn]; decide)
      rw [← h.template n hn]
      exact (hdealt.reworked.kind_or hopening (Nat.lt_of_lt_of_le hlt hsize)).resolve_right
        fun hother => hother.1 ((hform hlt).trans hn)
    · rw [staticClasses_eq_of_kept ht.linked (fun _ => hmoves.form_eq ht)
        (fun _ => hdealt.reworked.kind_or hopening) (Nat.lt_of_lt_of_le hn hsize),
        h.known n hn builder]
    · rw [hvisit, Stylist.thread_restyleAttribute ht hs hlabel hdo hp (hq.moves ht₀ hd.moves) n
        (Nat.lt_of_lt_of_le hn hsize), h.thread n hn q hq]

end Runs

end Tree

end JsxStyle
